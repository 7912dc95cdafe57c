/-
  Machine/Returns.lean --- forced return values over whole runs.

  Both callbacks end with the same switch, on the return type that each of them finds in
  the descriptor.  What it forces is compared with what the hooks asked for through the
  objects of the callback.
-/
import JvmHookFramework.Machine.Callbacks

set_option autoImplicit false

namespace JvmHookFramework

open Foundation ForceEarlyReturnNative

/-- The callback `c`, run by `t` over the activation `a`, ends after the run over `ls`. -/
structure CallbackEnds (jvm : Jvm) (ls : List Label) (t : Tid) (threw : Bool) (c : CallbackId)
    (a : Activation) (s₁ s₂ : State) : Prop where
  before : run (step jvm) initialState ls = some s₁
  stack : ∃ f rest, s₁.stack t = f :: .activation a :: rest ∧ f.owner.map Prod.fst = some c
  ends : step jvm s₁ (.finish t threw) = some s₂

section

variable {jvm : Jvm} {s s' : State} {t : Tid} {c : CallbackId} {a : Activation}

theorem onMethodEntry.forced_finish (jvm : Jvm) (s : State) (t : Tid) (e : EntryCall)
    (cb : Callback) (a : Activation) (rest : List Frame) :
    ((onMethodEntry.finish jvm s t e cb a rest).threads t).forced = (s.threads t).forced ++
      (forceReturn (charAt (jvm.methodDesc a.method)
        (pastEnd (indexOf (jvm.methodDesc a.method) ')' 1))) cb.returnForce
        (writeParameters cb.parameters a.frame s.refs).2).1 := by
  unfold onMethodEntry.finish
  rw [State.setThread_threads_self]
  rfl

theorem onMethodExit.forced_finish (jvm : Jvm) (s : State) (t : Tid) (e : ExitCall)
    (cb : Callback) (a : Activation) (rest : List Frame) :
    ((onMethodExit.finish jvm s t e cb a rest).threads t).forced = (s.threads t).forced ++
      (forceReturn (charAt (jvm.methodDesc a.method)
        (pastEnd (indexOf (jvm.methodDesc a.method) ')' 0))) cb.returnForce s.refs).1 := by
  unfold onMethodExit.finish
  rw [State.setThread_threads_self]
  rfl

/-- The calls that a callback makes at its end. -/
theorem Step.forced_finish {threw : Bool} {f : Frame} {rest : List Frame}
    (h : Step jvm s (.finish t threw) s') (hstack : s.stack t = f :: .activation a :: rest)
    (hcallback : f.owner.map Prod.fst = some c) :
    ∃ cb refs begin, s.callbacks[c]? = some cb ∧ (begin = 0 ∨ begin = 1) ∧
      (s'.threads t).forced = (s.threads t).forced ++
        (forceReturn (charAt (jvm.methodDesc a.method)
          (pastEnd (indexOf (jvm.methodDesc a.method) ')' begin))) cb.returnForce refs).1 := by
  cases h with
  | finishEntry hframes hloop hcb =>
      obtain ⟨rfl, hrest⟩ := List.cons.inj (hstack.symm.trans hframes)
      obtain ⟨hactivation, _⟩ := List.cons.inj hrest
      obtain rfl := Frame.activation.inj hactivation
      obtain rfl := Option.some.inj hcallback
      exact ⟨_, _, 1, hcb, Or.inr rfl, onMethodEntry.forced_finish jvm s t _ _ _ _⟩
  | finishExit hframes hcb =>
      obtain ⟨rfl, hrest⟩ := List.cons.inj (hstack.symm.trans hframes)
      obtain ⟨hactivation, _⟩ := List.cons.inj hrest
      obtain rfl := Frame.activation.inj hactivation
      obtain rfl := Option.some.inj hcallback
      exact ⟨_, _, 0, hcb, Or.inl rfl, onMethodExit.forced_finish jvm s t _ _ _ _⟩
  | finishPrepare hframes =>
      obtain ⟨rfl, _⟩ := List.cons.inj (hstack.symm.trans hframes)
      cases hcallback

end

/-- At the end of a callback, for a method with a legal descriptor, the last operation of
the family of the return type is forced by one JVMTI call of that type, and none is made
when the hooks asked for nothing, exactly when no `returnDouble` stood in the way: for a
`double` method the last one asked for zero, and for a `float` method none with another
value followed the last `returnFloat`. -/
theorem forced_returns_last_iff (jvm : Jvm) (ls : List Label) (t : Tid) (threw : Bool)
    (c : CallbackId) (a : Activation) (s₁ s₂ : State) (d : MethodDescriptor)
    (hends : CallbackEnds jvm ls t threw c a s₁ s₂)
    (hdesc : jvm.methodDesc a.method = d.render) (hplain : d.Plain) :
    ∃ calls, (s₂.threads t).forced = (s₁.threads t).forced ++ calls ∧
      (ForcesLast d.ret s₁.refs (returnsOf (callsOn jvm c ls)) calls ↔
        ReturnsKept d.ret (returnsOf (callsOn jvm c ls))) := by
  obtain ⟨hrun, ⟨f, rest, hstack, hcallback⟩, hfinish⟩ := hends
  obtain ⟨cb, refs, begin, hcb, hbegin, hforced⟩ :=
    (step_cases hfinish).forced_finish hstack hcallback
  have hforce := (callbackOk_of_run hrun).force cb hcb
  rw [hdesc, charAt_pastEnd hplain hbegin] at hforced
  exact ⟨_, hforced, forcesLast_iff hforce⟩

/-! ## A lost `double` -/

/-- A machine whose methods are all `static double m()`. -/
def Jvm.plainDouble : Jvm := { Jvm.plain with methodDesc := fun _ => ['(', ')', 'D'] }

def doubleDescriptor : MethodDescriptor := { params := [], ret := some .double }

/-- A method is hooked and called, and the hook calls `returnDouble`. -/
def returnDoubleRun (value : BitVec 64) : List Label :=
  [.register ⟨1⟩ (some ⟨5⟩), .call 0 ⟨1⟩ fun _ => none, .broadcast 0, .dispatch 0,
    .native 1 (.ret (.returnDouble value))]

theorem returnDoubleRun_ends (value : BitVec 64) :
    ∃ s₁ s₂, CallbackEnds .plainDouble (returnDoubleRun value) 0 false 0
        (entered ⟨1⟩ fun _ => none) s₁ s₂ ∧
      (s₂.threads 0).forced =
        (s₁.threads 0).forced ++ [.ForceEarlyReturnDouble (some 0)] :=
  ⟨_, _, ⟨rfl, ⟨_, _, rfl, rfl⟩, rfl⟩, rfl⟩

/-- Zero is forced when zero was asked for. -/
theorem forced_returns_last_zero :
    ∃ s₁ s₂ calls, CallbackEnds .plainDouble (returnDoubleRun 0) 0 false 0
        (entered ⟨1⟩ fun _ => none) s₁ s₂ ∧
      (s₂.threads 0).forced = (s₁.threads 0).forced ++ calls ∧
      ForcesLast (some .double) s₁.refs [.returnDouble 0] calls := by
  obtain ⟨s₁, s₂, hends, _⟩ := returnDoubleRun_ends 0
  obtain ⟨calls, hforced, hiff⟩ := forced_returns_last_iff .plainDouble (returnDoubleRun 0) 0
    false 0 _ s₁ s₂ doubleDescriptor hends rfl nofun
  refine ⟨s₁, s₂, calls, hends, hforced, hiff.mpr fun v hv => ?_⟩
  exact (Option.some.inj hv).symm

/-- A hook asks for 50.0 and the method returns 0.0. -/
theorem double_lost_in_returnDoubleRun :
    ¬ ∀ jvm ls t threw c a s₁ s₂ (d : MethodDescriptor),
      CallbackEnds jvm ls t threw c a s₁ s₂ → jvm.methodDesc a.method = d.render → d.Plain →
        ∃ calls, (s₂.threads t).forced = (s₁.threads t).forced ++ calls ∧
          ForcesLast d.ret s₁.refs (returnsOf (callsOn jvm c ls)) calls := by
  intro hforces
  obtain ⟨s₁, s₂, hends, hzero⟩ := returnDoubleRun_ends 0x4049000000000000
  obtain ⟨calls, hforced, hlast⟩ := hforces _ _ _ _ _ _ s₁ s₂ doubleDescriptor hends rfl nofun
  obtain rfl := List.append_cancel_left (hforced.symm.trans hzero)
  obtain ⟨call, hcall, hvalue⟩ := hlast.last (some (.double 0x4049000000000000)) rfl
  obtain rfl := List.singleton_injective hcall
  exact absurd hvalue (by simp [ForceCall.value])

end JvmHookFramework
