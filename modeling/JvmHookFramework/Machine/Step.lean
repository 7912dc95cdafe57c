/-
  Machine/Step.lean --- the cases of one step.

  `Step` lists what a step can do: which guards held and which state it leaves.  Every
  invariant of the machine is proved by cases on it; `step_cases` is the only proof that
  looks into `step`, `onMethodEntry`, `onMethodExit` and `onClassPrepare`.
-/
import JvmHookFramework.Native.Lib
import JvmHookFramework.Registry.Slots

set_option autoImplicit false

namespace JvmHookFramework

open Foundation

/-! ## The guards -/

/-- The record of a thread. -/
def State.info (s : State) (t : Tid) : HookInvokingInfo := (s.threads t).getHookInvokingInfo

/-- The activation that a call of `method` pushes. -/
def entered (method : JmethodID) (frame : Locals) : Activation :=
  { method := method, frame := frame }

/-- `onMethodEntry` returns behind `shouldRunHook` and before its block. -/
def EntrySuppressed (jvm : Jvm) (info : HookInvokingInfo) (method : JmethodID) : Prop :=
  info.runningHook = true ∨ info.exitingMethod = true ∨ jvm.skipsEntry method = true

/-- `onMethodEntry` goes on into its block: the method is hooked and no guard stops it. -/
def EntryPasses (jvm : Jvm) (s : State) (t : Tid) (method : JmethodID) : Prop :=
  s.registry.hooksOf jvm method ≠ [] ∧ ¬ EntrySuppressed jvm (s.info t) method

/-- `onMethodExit` goes on into its block with the array `hooks`. -/
def ExitPasses (jvm : Jvm) (info : HookInvokingInfo) (method : JmethodID) (hooks : ArrayId) :
    Prop :=
  info.hooks = some hooks ∧ info.exitingMethod = false ∧
    ∃ target, info.targetMethod = some target ∧ jvm.deref target = jvm.deref method

/-- `onMethodExit` returns early. -/
def ExitSkipped (jvm : Jvm) (info : HookInvokingInfo) (method : JmethodID) : Prop :=
  info.hooks = none ∨ info.exitingMethod = true ∨
    ∃ target, info.targetMethod = some target ∧ jvm.deref target ≠ jvm.deref method

/-- `onClassPrepare` goes on to its broadcast. -/
def PreparePasses (jvm : Jvm) (info : HookInvokingInfo) (klass : Klass) : Prop :=
  info.broadcastingMethodPrepareLoad = false ∧ info.runningHook = false ∧
    jvm.GetClassLoader klass ≠ none ∧ jvm.GetClassLoader klass ≠ jvm.classLoaderX ∧
    jvm.GetClassLoader klass ≠ jvm.extClassLoader

/-- The array that a successful `shouldRunHook` allocates. -/
def State.collected (jvm : Jvm) (s : State) (method : JmethodID) : HookArray :=
  ⟨s.registry.methodHookCount, s.registry.hooksOf jvm method⟩

/-! ## The cases -/

inductive Step (jvm : Jvm) (s : State) : Label → State → Prop where
  | register (method : JmethodID) (hook : Option Obj) :
      Step jvm s (.register method hook)
        { s with registry := registerHook s.registry method hook }
  | unregister {method : JmethodID} {hook : Option Obj} {registry : Registry}
      (hcompletes : unregisterHook jvm s.registry method hook = some registry) :
      Step jvm s (.unregister method hook)
        { s with registry := registry, unregistered := s.unregistered ++ [(method, hook)] }
  | callUnhooked {t : Tid} {method : JmethodID} {frame : Locals}
      (halive : (s.threads t).ended = false)
      (hnone : s.registry.hooksOf jvm method = []) :
      Step jvm s (.call t method frame)
        (s.setThread t ((s.threads t).push (.activation (entered method frame))))
  | callSuppressed {t : Tid} {method : JmethodID} {frame : Locals}
      (halive : (s.threads t).ended = false)
      (hsome : s.registry.hooksOf jvm method ≠ [])
      (hguard : EntrySuppressed jvm (s.info t) method) :
      Step jvm s (.call t method frame)
        ((s.malloc (s.collected jvm method) method).setThread t
          (((s.threads t).push (.activation (entered method frame))).setInfo (s.info t)))
  | callBroadcast {t : Tid} {method : JmethodID} {frame : Locals}
      {parameters : List CallParameter}
      (halive : (s.threads t).ended = false)
      (hpasses : EntryPasses jvm s t method)
      (hread : readParameters frame (jvm.methodDesc method) (jvm.isStatic method) =
        some parameters) :
      Step jvm s (.call t method frame)
        (onMethodEntry.begin jvm (s.malloc (s.collected jvm method) method) t
          ((s.threads t).push (.activation (entered method frame))) method frame
          (s.registry.hooksOf jvm method).length s.arrays.length parameters)
  | leaveSkipped {t : Tid} {popped : Bool} {value : Option Jvalue} {a : Activation}
      {rest : List Frame} (hframes : (s.threads t).frames = .activation a :: rest)
      (hguard : ExitSkipped jvm (s.info t) a.method) :
      Step jvm s (.leave t popped value)
        (s.setThread t { s.threads t with info := some (s.info t), frames := rest })
  | leaveBroadcast {t : Tid} {popped : Bool} {value : Option Jvalue} {a : Activation}
      {rest : List Frame} {hooks : ArrayId}
      (hframes : (s.threads t).frames = .activation a :: rest)
      (hpasses : ExitPasses jvm (s.info t) a.method hooks) :
      Step jvm s (.leave t popped value)
        (onMethodExit.begin jvm s t a rest hooks popped value)
  | prepareSkipped {t : Tid} {klass : Klass} (halive : (s.threads t).ended = false)
      (hguard : ¬ PreparePasses jvm (s.info t) klass) :
      Step jvm s (.prepare t klass) (s.setThread t ((s.threads t).setInfo (s.info t)))
  | prepareBroadcast {t : Tid} {klass : Klass} (halive : (s.threads t).ended = false)
      (hpasses : PreparePasses jvm (s.info t) klass) :
      Step jvm s (.prepare t klass)
        (s.setThread t (((s.threads t).setInfo
          { s.info t with broadcastingMethodPrepareLoad := true }).push .classPrepare))
  | broadcast {t : Tid} {c : EntryCall} {rest : List Frame}
      (hframes : (s.threads t).frames = .methodEntry c :: rest) (hloop : c.loop = none) :
      Step jvm s (.broadcast t)
        (s.setThread t
          { s.threads t with frames := .methodEntry { c with loop := some 0 } :: rest })
  | dispatchEntry {t : Tid} {c : EntryCall} {rest : List Frame} {i : Nat}
      (hframes : (s.threads t).frames = .methodEntry c :: rest) (hloop : c.loop = some i)
      (hlt : i < c.hookCount) :
      Step jvm s (.dispatch t)
        (s.setThread t
          { s.threads t with
            frames := .methodEntry { c with loop := some (i + 1) } :: rest })
  | dispatchExit {t : Tid} {c : ExitCall} {rest : List Frame}
      (hframes : (s.threads t).frames = .methodExit c :: rest) (hlt : c.i < c.size) :
      Step jvm s (.dispatch t)
        (s.setThread t
          { s.threads t with frames := .methodExit { c with i := c.i + 1 } :: rest })
  | finishEntry {t : Tid} {threw : Bool} {c : EntryCall} {cb : Callback} {a : Activation}
      {rest : List Frame} {i : Nat}
      (hframes : (s.threads t).frames = .methodEntry c :: .activation a :: rest)
      (hloop : c.loop = some i) (hcb : s.callbacks[c.callback]? = some cb) :
      Step jvm s (.finish t threw) (onMethodEntry.finish jvm s t c cb a rest)
  | finishExit {t : Tid} {threw : Bool} {c : ExitCall} {cb : Callback} {a : Activation}
      {rest : List Frame}
      (hframes : (s.threads t).frames = .methodExit c :: .activation a :: rest)
      (hcb : s.callbacks[c.callback]? = some cb) :
      Step jvm s (.finish t threw) (onMethodExit.finish jvm s t c cb a rest)
  | finishPrepare {t : Tid} {threw : Bool} {rest : List Frame}
      (hframes : (s.threads t).frames = .classPrepare :: rest) :
      Step jvm s (.finish t threw) (onClassPrepare.finish s t rest)
  | nativeInert {h : HandleId} {op : HandleOp} {handle : Handle}
      (hhandle : s.handles[h]? = some handle) (haddress : handle.address = none) :
      Step jvm s (.native h op) s
  | nativeLive {h : HandleId} {op : HandleOp} {handle : Handle} {callback : CallbackId}
      {cb : Callback} {outcome : CallOutcome}
      (hhandle : s.handles[h]? = some handle) (haddress : handle.address = some callback)
      (hcb : s.callbacks[callback]? = some cb) (hrunning : cb.returned = false)
      (hcall : op.call handle.cls (some cb) s.refs = some outcome) :
      Step jvm s (.native h op)
        { s with
          refs := outcome.2.2
          callbacks := s.callbacks.modify callback fun old => outcome.2.1.getD old }
  | threadEnd {t : Tid} (hframes : (s.threads t).frames = [])
      (halive : (s.threads t).ended = false) :
      Step jvm s (.threadEnd t)
        (s.setThread t { s.threads t with info := none, ended := true })

theorem shouldRunHook_of_empty {jvm : Jvm} {r : Registry} {m : JmethodID}
    (h : r.hooksOf jvm m = []) : shouldRunHook jvm r m = (false, 0, none) := by
  rw [shouldRunHook_eq, if_pos h]

theorem shouldRunHook_of_ne {jvm : Jvm} {r : Registry} {m : JmethodID}
    (h : r.hooksOf jvm m ≠ []) :
    shouldRunHook jvm r m = (true, (r.hooksOf jvm m).length,
      some ⟨r.methodHookCount, r.hooksOf jvm m⟩) := by
  rw [shouldRunHook_eq, if_neg h]

theorem onMethodEntry_cases {jvm : Jvm} {s s' : State} {t : Tid} {method : JmethodID}
    {frame : Locals} (halive : (s.threads t).ended = false)
    (h : onMethodEntry jvm s t method frame = some s') :
    Step jvm s (.call t method frame) s' := by
  by_cases hnone : s.registry.hooksOf jvm method = []
  · rw [onMethodEntry, shouldRunHook_of_empty hnone] at h
    obtain rfl := Option.some.inj h
    exact .callUnhooked halive hnone
  · simp only [onMethodEntry, shouldRunHook_of_ne hnone] at h
    split at h
    · rename_i hguard
      obtain rfl := Option.some.inj h
      rw [Bool.or_eq_true] at hguard
      exact .callSuppressed halive hnone
        (hguard.elim (fun hr => Or.inl hr) (fun he => Or.inr (Or.inl he)))
    · rename_i hguard
      split at h
      · rename_i hskips
        obtain rfl := Option.some.inj h
        exact .callSuppressed halive hnone (Or.inr (Or.inr hskips))
      · rename_i hskips
        split at h
        · cases h
        · rename_i parameters hread
          obtain rfl := Option.some.inj h
          refine .callBroadcast halive ⟨hnone, ?_⟩ hread
          rw [Bool.or_eq_true, not_or] at hguard
          rintro (hr | he | hs)
          · exact hguard.1 hr
          · exact hguard.2 he
          · exact hskips hs

theorem onMethodExit_cases {jvm : Jvm} {s s' : State} {t : Tid} {a : Activation}
    {rest : List Frame} {popped : Bool} {value : Option Jvalue}
    (hframes : (s.threads t).frames = .activation a :: rest)
    (h : onMethodExit jvm s t a rest popped value = some s') :
    Step jvm s (.leave t popped value) s' := by
  rw [onMethodExit] at h
  split at h
  · rename_i hhooks
    obtain rfl := Option.some.inj h
    exact .leaveSkipped hframes (Or.inl hhooks)
  · rename_i hooks hhooks
    split at h
    · cases h
    · rename_i target htarget
      split at h
      · rename_i hkey
        obtain rfl := Option.some.inj h
        exact .leaveSkipped hframes (Or.inr (Or.inr ⟨target, htarget, hkey⟩))
      · rename_i hkey
        split at h
        · rename_i hexiting
          obtain rfl := Option.some.inj h
          exact .leaveSkipped hframes (Or.inr (Or.inl hexiting))
        · rename_i hexiting
          obtain rfl := Option.some.inj h
          exact .leaveBroadcast hframes
            ⟨hhooks, eq_false_of_ne_true hexiting, target, htarget, not_not.mp hkey⟩

theorem onClassPrepare_cases {jvm : Jvm} {s : State} {t : Tid} {klass : Klass}
    (halive : (s.threads t).ended = false) :
    Step jvm s (.prepare t klass) (onClassPrepare jvm s t klass) := by
  simp only [onClassPrepare]
  split
  · rename_i hguard
    refine .prepareSkipped halive fun hpasses => ?_
    obtain ⟨hload, hrunning, _⟩ := hpasses
    have hl : (s.threads t).getHookInvokingInfo.broadcastingMethodPrepareLoad = false := hload
    have hr : (s.threads t).getHookInvokingInfo.runningHook = false := hrunning
    simp [hl, hr] at hguard
  · rename_i hguard
    rw [Bool.or_eq_true, not_or] at hguard
    split
    · rename_i hnull
      exact .prepareSkipped halive fun hpasses => hpasses.2.2.1 hnull
    · rename_i hnull
      split
      · rename_i hx
        exact .prepareSkipped halive fun hpasses => hpasses.2.2.2.1 hx
      · rename_i hx
        split
        · rename_i hext
          exact .prepareSkipped halive fun hpasses => hpasses.2.2.2.2 hext
        · rename_i hext
          exact .prepareBroadcast halive ⟨by simpa [State.info] using hguard.1,
            by simpa [State.info] using hguard.2, hnull, hx, hext⟩

/-- How a native call on an object may end. -/
inductive NativeCall (s : State) (h : HandleId) (op : HandleOp) : Result → State → Prop where
  | inert {handle : Handle} {outcome : CallOutcome} (hhandle : s.handles[h]? = some handle)
      (haddress : handle.address = none)
      (hcall : op.call handle.cls none s.refs = some outcome) :
      NativeCall s h op outcome.1 { s with refs := outcome.2.2 }
  | live {handle : Handle} {callback : CallbackId} {cb : Callback} {outcome : CallOutcome}
      (hhandle : s.handles[h]? = some handle) (haddress : handle.address = some callback)
      (hcb : s.callbacks[callback]? = some cb) (hrunning : cb.returned = false)
      (hcall : op.call handle.cls (some cb) s.refs = some outcome) :
      NativeCall s h op outcome.1
        { s with
          refs := outcome.2.2
          callbacks := s.callbacks.modify callback fun old => outcome.2.1.getD old }

theorem nativeCall_of_eq {s s' : State} {h : HandleId} {op : HandleOp} {result : Result}
    (hnative : s.native h op = some (result, s')) : NativeCall s h op result s' := by
  rw [State.native] at hnative
  split at hnative
  · cases hnative
  · rename_i handle hhandle
    split at hnative
    · rename_i haddress
      split at hnative
      · cases hnative
      · rename_i res cb refs hcall
        obtain ⟨rfl, rfl⟩ := Prod.mk.inj (Option.some.inj hnative)
        exact .inert hhandle haddress hcall
    · rename_i callback haddress
      split at hnative
      · cases hnative
      · rename_i cb hcb
        split at hnative
        · cases hnative
        · rename_i hreturned
          split at hnative
          · cases hnative
          · rename_i res cb' refs hcall
            obtain ⟨rfl, rfl⟩ := Prod.mk.inj (Option.some.inj hnative)
            exact .live hhandle haddress hcb (eq_false_of_ne_true hreturned) hcall

theorem native_cases {jvm : Jvm} {s s' : State} {h : HandleId} {op : HandleOp}
    {result : Result} (hnative : s.native h op = some (result, s')) :
    Step jvm s (.native h op) s' := by
  cases nativeCall_of_eq hnative with
  | inert hhandle haddress hcall =>
      obtain rfl := HandleOp.call_of_null hcall
      exact .nativeInert hhandle haddress
  | live hhandle haddress hcb hrunning hcall =>
      exact .nativeLive hhandle haddress hcb hrunning hcall

/-- Every step is one of the cases. -/
theorem step_cases {jvm : Jvm} {s s' : State} {l : Label} (h : step jvm s l = some s') :
    Step jvm s l s' := by
  cases l with
  | register method hook =>
      obtain rfl := Option.some.inj h
      exact .register method hook
  | unregister method hook =>
      simp only [step] at h
      split at h
      · cases h
      · rename_i registry hcompletes
        obtain rfl := Option.some.inj h
        exact .unregister hcompletes
  | call t method frame =>
      simp only [step] at h
      split at h
      · cases h
      · rename_i halive
        exact onMethodEntry_cases (by simpa using halive) h
  | leave t popped value =>
      simp only [step] at h
      split at h
      · rename_i a rest hframes
        exact onMethodExit_cases hframes h
      · cases h
  | prepare t klass =>
      simp only [step] at h
      split at h
      · cases h
      · rename_i halive
        obtain rfl := Option.some.inj h
        exact onClassPrepare_cases (by simpa using halive)
  | broadcast t =>
      simp only [step] at h
      split at h
      · rename_i c rest hframes
        split at h
        · rename_i hloop
          obtain rfl := Option.some.inj h
          exact .broadcast hframes hloop
        · cases h
      · cases h
  | dispatch t =>
      simp only [step] at h
      split at h
      · rename_i c rest hframes
        split at h
        · cases h
        · rename_i i hloop
          split at h
          · rename_i hlt
            obtain rfl := Option.some.inj h
            exact .dispatchEntry hframes hloop hlt
          · cases h
      · rename_i c rest hframes
        split at h
        · rename_i hlt
          obtain rfl := Option.some.inj h
          exact .dispatchExit hframes hlt
        · cases h
      · cases h
  | finish t threw =>
      simp only [step] at h
      split at h
      · rename_i c a rest hframes
        split at h
        · cases h
        · rename_i i hloop
          split at h
          · obtain ⟨cb, hcb, rfl⟩ := Option.map_eq_some_iff.mp h
            exact .finishEntry hframes hloop hcb
          · cases h
      · rename_i c a rest hframes
        split at h
        · obtain ⟨cb, hcb, rfl⟩ := Option.map_eq_some_iff.mp h
          exact .finishExit hframes hcb
        · cases h
      · rename_i rest hframes
        obtain rfl := Option.some.inj h
        exact .finishPrepare hframes
      · cases h
  | native hid op =>
      simp only [step] at h
      split at h
      · cases h
      · rename_i result s₁ hnative
        obtain rfl := Option.some.inj h
        exact native_cases hnative
  | threadEnd t =>
      simp only [step] at h
      split at h
      · rename_i hframes
        split at h
        · cases h
        · rename_i halive
          obtain rfl := Option.some.inj h
          exact .threadEnd hframes (by simpa using halive)
      · cases h

end JvmHookFramework
