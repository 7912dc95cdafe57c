/-
  Machine/Rewriting.lean --- rewritten arguments over whole runs.

  When an entry callback ends, the frame of the activation below it is compared with what
  the hooks asked for through the `ArgumentsNative` of the callback.
-/
import JvmHookFramework.Machine.Callbacks

set_option autoImplicit false

namespace JvmHookFramework

open Foundation ArgumentsNative

/-- The entry callback `c`, run by `t` over the activation `a`, ends after the run over
`ls` and leaves the activation `a'`. -/
structure EntryEnds (jvm : Jvm) (ls : List Label) (t : Tid) (threw : Bool) (c : CallbackId)
    (a a' : Activation) (s₁ s₂ : State) : Prop where
  before : run (step jvm) initialState ls = some s₁
  stack : ∃ (e : EntryCall) (rest : List Frame), e.callback = c ∧
    s₁.stack t = .methodEntry e :: .activation a :: rest ∧ s₂.stack t = .activation a' :: rest
  ends : step jvm s₁ (.finish t threw) = some s₂

/-- The slot of the first parameter. -/
def Jvm.firstSlot (jvm : Jvm) (method : JmethodID) : Nat := if jvm.isStatic method then 0 else 1

/-- The frame that an entry callback leaves behind. -/
theorem Step.frame_finish {jvm : Jvm} {s s' : State} {t : Tid} {threw : Bool} {e : EntryCall}
    {a a' : Activation} {rest : List Frame} (h : Step jvm s (.finish t threw) s')
    (hstack : s.stack t = .methodEntry e :: .activation a :: rest)
    (hstack' : s'.stack t = .activation a' :: rest) :
    ∃ cb, s.callbacks[e.callback]? = some cb ∧
      a'.frame = (writeParameters cb.parameters a.frame s.refs).1 := by
  cases h with
  | finishEntry hframes hloop hcb =>
      obtain ⟨hentry, hrest⟩ := List.cons.inj (hstack.symm.trans hframes)
      obtain rfl := Frame.methodEntry.inj hentry
      obtain ⟨hactivation, rfl⟩ := List.cons.inj hrest
      obtain rfl := Frame.activation.inj hactivation
      obtain ⟨forced, hthreads⟩ := onMethodEntry.threads_finish jvm s t e _ a rest
      rw [State.stack, hthreads, Function.update_self] at hstack'
      obtain ⟨hactivation', _⟩ := List.cons.inj hstack'
      obtain rfl := Frame.activation.inj hactivation'
      exact ⟨_, hcb, rfl⟩
  | finishExit hframes =>
      have hclash := hstack.symm.trans hframes
      cases hclash
  | finishPrepare hframes =>
      have hclash := hstack.symm.trans hframes
      cases hclash

/-- The table that an entry callback of a method with a legal descriptor writes back. -/
theorem EntryEnds.exists_table {jvm : Jvm} {ls : List Label} {t : Tid} {threw : Bool}
    {c : CallbackId} {a a' : Activation} {s₁ s₂ : State} {d : MethodDescriptor}
    (hends : EntryEnds jvm ls t threw c a a' s₁ s₂) (hdesc : jvm.methodDesc a.method = d.render) :
    ∃ cb, s₁.callbacks[c]? = some cb ∧
      TableOk s₁.refs (putsOf (callsOn jvm c ls))
        (cellsOf a.frame (jvm.firstSlot a.method) (scanned d.params)) cb.parameters ∧
      a'.frame = (writeParameters cb.parameters a.frame s₁.refs).1 := by
  obtain ⟨hrun, ⟨e, rest, rfl, hstack, hstack'⟩, hfinish⟩ := hends
  obtain ⟨cb, hcb, hframe⟩ := (step_cases hfinish).frame_finish hstack hstack'
  have hmem : (e.callback, a) ∈ entries (s₁.stack t) := by
    rw [hstack, entries_methodEntry]
    exact List.mem_cons_self
  exact ⟨cb, hcb, (callbackOk_of_run hrun).table t a d hmem hdesc cb hcb, hframe⟩

/-- At the end of an entry callback of a method with a legal descriptor, whose frame holds
values of the parameter types, and whose hooks put each parameter by the operation of its
type: each parameter holds the value of the last put made to it, or its original value, and
all other slots are unchanged, exactly when every last `putInt` carried the value that its
parameter had already. -/
theorem arguments_rewritten_iff (jvm : Jvm) (ls : List Label) (t : Tid) (threw : Bool)
    (c : CallbackId) (a a' : Activation) (s₁ s₂ : State) (d : MethodDescriptor)
    (hends : EntryEnds jvm ls t threw c a a' s₁ s₂)
    (hdesc : jvm.methodDesc a.method = d.render) (hplain : d.Plain)
    (hfits : FrameFits (jvm.firstSlot a.method) d.params a.frame)
    (hputs : PutsFit d.params (putsOf (callsOn jvm c ls))) :
    Rewritten (jvm.firstSlot a.method) d.params (putsOf (callsOn jvm c ls)) a.frame a'.frame ↔
      IntsKept (jvm.firstSlot a.method) d.params (putsOf (callsOn jvm c ls)) a.frame := by
  obtain ⟨cb, _, htable, hframe⟩ := hends.exists_table hdesc
  rw [scanned_of_plain hplain] at htable
  rw [hframe]
  exact rewritten_iff hfits hputs htable

/-! ## Two runs -/

/-- A method is hooked and called with the given locals, and the hook puts an argument. -/
def putRun (frame : Locals) (op : PutOp) (index : Int) : List Label :=
  [.register ⟨1⟩ (some ⟨5⟩), .call 0 ⟨1⟩ frame, .broadcast 0, .dispatch 0,
    .native 0 (.put op index)]

/-- A machine whose methods are all `static void m(long, float)`. -/
def Jvm.plainLongFloat : Jvm :=
  { Jvm.plain with methodDesc := fun _ => ['(', 'J', 'F', ')', 'V'] }

def longFloatDescriptor : MethodDescriptor := { params := [.long, .float], ret := none }

/-- The `float` stands behind the two slots of the `long`. -/
def longFloatFrame : Locals := fun slot =>
  if slot = 0 then some (.long 7) else if slot = 2 then some (.float 0x3F800000) else none

theorem longFloatDescriptor_plain : longFloatDescriptor.Plain := by
  intro t ht
  simp only [longFloatDescriptor, List.mem_cons, List.not_mem_nil, or_false] at ht
  rcases ht with rfl | rfl <;> trivial

theorem longFloatFrame_fits : FrameFits 0 longFloatDescriptor.params longFloatFrame := by
  intro x t ht
  rcases x with _ | _ | x
  · obtain rfl := Option.some.inj ht
    exact ⟨_, rfl, rfl⟩
  · obtain rfl := Option.some.inj ht
    exact ⟨_, rfl, rfl⟩
  · cases ht

/-- The second argument of a `(long, float)` method is rewritten. -/
theorem arguments_rewritten_float :
    ∃ a' s₁ s₂, EntryEnds .plainLongFloat (putRun longFloatFrame (.putFloat 0x40000000) 1) 0
        false 0 (entered ⟨1⟩ longFloatFrame) a' s₁ s₂ ∧
      Rewritten 0 [.long, .float] [(1, .putFloat 0x40000000)] longFloatFrame a'.frame := by
  refine ⟨_, _, _, ⟨rfl, ⟨_, _, rfl, rfl, rfl⟩, rfl⟩, ?_⟩
  refine (arguments_rewritten_iff .plainLongFloat (putRun longFloatFrame (.putFloat 0x40000000) 1)
    0 false 0 (entered ⟨1⟩ longFloatFrame) _ _ _ longFloatDescriptor
    ⟨rfl, ⟨_, _, rfl, rfl, rfl⟩, rfl⟩ rfl longFloatDescriptor_plain longFloatFrame_fits ?_).mpr ?_
  · intro call hcall x t hx ht
    obtain rfl := List.mem_singleton.mp hcall
    obtain rfl := Int.ofNat.inj hx
    obtain rfl := Option.some.inj ht
    trivial
  · intro x ht
    rcases x with _ | _ | x <;> cases ht

/-- A machine whose methods are all `static void m(int)`. -/
def Jvm.plainInt : Jvm := { Jvm.plain with methodDesc := fun _ => ['(', 'I', ')', 'V'] }

def intDescriptor : MethodDescriptor := { params := [.int], ret := none }

def intFrame : Locals := fun slot => if slot = 0 then some (.int 7) else none

/-- A hook puts 9 into an `int` parameter and ends with the link failure, and the local
keeps its value 7. -/
theorem int_lost_in_putRun :
    ¬ ∀ jvm ls t threw c a a' s₁ s₂ (d : MethodDescriptor),
      EntryEnds jvm ls t threw c a a' s₁ s₂ → jvm.methodDesc a.method = d.render → d.Plain →
        FrameFits (jvm.firstSlot a.method) d.params a.frame →
        PutsFit d.params (putsOf (callsOn jvm c ls)) →
          Rewritten (jvm.firstSlot a.method) d.params (putsOf (callsOn jvm c ls)) a.frame
            a'.frame := by
  intro hrewritten
  have hplain : intDescriptor.Plain := List.forall_mem_singleton.mpr trivial
  have hfits : FrameFits 0 intDescriptor.params intFrame := by
    intro x t ht
    cases x with
    | zero =>
        obtain rfl := Option.some.inj ht
        exact ⟨_, rfl, rfl⟩
    | succ x => cases ht
  have hputs : PutsFit intDescriptor.params [(0, .putInt 9)] := by
    intro call hcall x t hx ht
    obtain rfl := List.mem_singleton.mp hcall
    obtain rfl := Int.ofNat.inj hx
    obtain rfl := Option.some.inj ht
    trivial
  have h := hrewritten .plainInt (putRun intFrame (.putInt 9) 0) 0 true 0 (entered ⟨1⟩ intFrame)
    _ _ _ intDescriptor ⟨rfl, ⟨_, _, rfl, rfl, rfl⟩, rfl⟩ rfl hplain hfits hputs
  have hslot := h.parameter 0 Nat.one_pos
  exact absurd hslot (by decide)

end JvmHookFramework
