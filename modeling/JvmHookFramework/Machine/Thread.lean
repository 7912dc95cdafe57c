/-
  Machine/Thread.lean --- what a step does to one thread.

  Most guarantees of the agent are about the record and the stack of a single thread.
  `ThreadStep` lists how a step may change these two, whatever the other threads and the
  registry do meanwhile; `Step.thread` derives it from the cases of a step.
-/
import JvmHookFramework.Machine.Step

set_option autoImplicit false

namespace JvmHookFramework

open Foundation

/-- The callbacks and activations of a thread, the top first. -/
def State.stack (s : State) (t : Tid) : List Frame := (s.threads t).frames

/-! ## The components of an updated state -/

@[simp] theorem State.setThread_threads_self (s : State) (t : Tid) (th : Thread) :
    (s.setThread t th).threads t = th := by
  simp [State.setThread]

theorem State.setThread_threads_of_ne (s : State) {t u : Tid} (h : u ≠ t) (th : Thread) :
    (s.setThread t th).threads u = s.threads u := by
  simp [State.setThread, h]

@[simp] theorem State.info_setThread_self (s : State) (t : Tid) (th : Thread) :
    (s.setThread t th).info t = th.getHookInvokingInfo := by
  simp [State.info]

@[simp] theorem State.stack_setThread_self (s : State) (t : Tid) (th : Thread) :
    (s.setThread t th).stack t = th.frames := by
  simp [State.stack]

section Components

variable (s : State) (t : Tid) (th : Thread)

@[simp] theorem State.setThread_registry : (s.setThread t th).registry = s.registry := rfl
@[simp] theorem State.setThread_arrays : (s.setThread t th).arrays = s.arrays := rfl
@[simp] theorem State.setThread_callbacks : (s.setThread t th).callbacks = s.callbacks := rfl
@[simp] theorem State.setThread_handles : (s.setThread t th).handles = s.handles := rfl
@[simp] theorem State.setThread_unregistered :
    (s.setThread t th).unregistered = s.unregistered := rfl

end Components

/-! ## The steps of one thread -/

/-- The record after `onMethodEntry` has filled it in. -/
def HookInvokingInfo.entry (info : HookInvokingInfo) (jvm : Jvm) (callback : CallbackId)
    (method : JmethodID) (hookCount : Nat) (array : ArrayId) : HookInvokingInfo :=
  { info with
    runningHook := true
    targetMethod := some method
    hookCounts := hookCount
    countsFrom := some array
    methodName := some ⟨callback, jvm.methodName method⟩
    methodDesc := some ⟨callback, jvm.methodDesc method⟩ }

/-- How a step with the given label may leave the record and the stack of `t`. -/
inductive ThreadStep (jvm : Jvm) (s : State) (t : Tid) :
    Label → HookInvokingInfo → List Frame → Prop where
  | idle {l : Label} : ThreadStep jvm s t l (s.info t) (s.stack t)
  | ended (hstack : s.stack t = []) : ThreadStep jvm s t (.threadEnd t) {} []
  | called {method : JmethodID} {frame : Locals} (hguard : ¬ EntryPasses jvm s t method) :
      ThreadStep jvm s t (.call t method frame) (s.info t)
        (.activation (entered method frame) :: s.stack t)
  | entryBegins {method : JmethodID} {frame : Locals} {c : EntryCall}
      (hpasses : EntryPasses jvm s t method)
      (hcallback : c.callback = s.callbacks.length)
      (harray : c.hookInstances = s.arrays.length)
      (hcount : c.hookCount = (s.registry.hooksOf jvm method).length)
      (hloop : c.loop = none) :
      ThreadStep jvm s t (.call t method frame)
        ((s.info t).entry jvm s.callbacks.length method
          (s.registry.hooksOf jvm method).length s.arrays.length)
        (.methodEntry c :: .activation (entered method frame) :: s.stack t)
  | left {popped : Bool} {value : Option Jvalue} {a : Activation} {rest : List Frame}
      (hstack : s.stack t = .activation a :: rest)
      (hguard : ExitSkipped jvm (s.info t) a.method) :
      ThreadStep jvm s t (.leave t popped value) (s.info t) rest
  | exitBegins {popped : Bool} {value : Option Jvalue} {a : Activation} {rest : List Frame}
      {c : ExitCall} (hstack : s.stack t = .activation a :: rest)
      (hpasses : ExitPasses jvm (s.info t) a.method c.pointer)
      (hcallback : c.callback = s.callbacks.length)
      (hsize : c.size = (s.info t).hookCounts) :
      ThreadStep jvm s t (.leave t popped value) { s.info t with exitingMethod := true }
        (.methodExit c :: .activation a :: rest)
  | prepareBegins {klass : Klass} (hpasses : PreparePasses jvm (s.info t) klass) :
      ThreadStep jvm s t (.prepare t klass)
        { s.info t with broadcastingMethodPrepareLoad := true } (.classPrepare :: s.stack t)
  | entryLoops {l : Label} {c : EntryCall} {rest : List Frame} {i : Nat}
      (hstack : s.stack t = .methodEntry c :: rest) :
      ThreadStep jvm s t l (s.info t) (.methodEntry { c with loop := some i } :: rest)
  | exitLoops {l : Label} {c : ExitCall} {rest : List Frame} {i : Nat}
      (hstack : s.stack t = .methodExit c :: rest) :
      ThreadStep jvm s t l (s.info t) (.methodExit { c with i := i } :: rest)
  | entryEnds {threw : Bool} {c : EntryCall} {a a' : Activation} {rest : List Frame}
      (hstack : s.stack t = .methodEntry c :: .activation a :: rest)
      (hmethod : a'.method = a.method) (hbroadcast : a'.broadcast = some c.hookInstances) :
      ThreadStep jvm s t (.finish t threw)
        { s.info t with hooks := some c.hookInstances, runningHook := false }
        (.activation a' :: rest)
  | exitEnds {threw : Bool} {c : ExitCall} {a : Activation} {rest : List Frame}
      (hstack : s.stack t = .methodExit c :: .activation a :: rest) :
      ThreadStep jvm s t (.finish t threw)
        { s.info t with hooks := none, exitingMethod := false } rest
  | prepareEnds {threw : Bool} {rest : List Frame} (hstack : s.stack t = .classPrepare :: rest) :
      ThreadStep jvm s t (.finish t threw)
        { s.info t with broadcastingMethodPrepareLoad := false } rest

/-- The thread a label belongs to. -/
def Label.thread : Label → Option Tid
  | .call t _ _ | .leave t _ _ | .prepare t _ | .broadcast t | .dispatch t | .finish t _
  | .threadEnd t => some t
  | .register _ _ | .unregister _ _ | .native _ _ => none

section

variable {jvm : Jvm} {s s' : State} {t u : Tid} {l : Label}

/-- The activation that is left behind by `onMethodEntry`, with its arguments rewritten. -/
theorem onMethodEntry.threads_finish (jvm : Jvm) (s : State) (t : Tid) (c : EntryCall)
    (cb : Callback) (a : Activation) (rest : List Frame) :
    ∃ forced, (onMethodEntry.finish jvm s t c cb a rest).threads =
      Function.update s.threads t
        { s.threads t with
          info := some { s.info t with hooks := some c.hookInstances, runningHook := false }
          frames := .activation
            { a with
              frame := (writeParameters cb.parameters a.frame s.refs).1
              broadcast := some c.hookInstances } :: rest
          forced := forced } :=
  ⟨_, rfl⟩

theorem onMethodExit.threads_finish (jvm : Jvm) (s : State) (t : Tid) (c : ExitCall)
    (cb : Callback) (a : Activation) (rest : List Frame) :
    ∃ forced, (onMethodExit.finish jvm s t c cb a rest).threads =
      Function.update s.threads t
        { s.threads t with
          info := some { s.info t with hooks := none, exitingMethod := false }
          frames := rest
          forced := forced } :=
  ⟨_, rfl⟩

/-- The exit callback is given the `hooks` and the `hookCounts` of the record. -/
theorem onMethodExit.stack_begin (jvm : Jvm) (s : State) (t : Tid) (a : Activation)
    (rest : List Frame) (hooks : ArrayId) (popped : Bool) (value : Option Jvalue) :
    ∃ c, (onMethodExit.begin jvm s t a rest hooks popped value).stack t =
      .methodExit c :: .activation a :: rest ∧ c.pointer = hooks ∧
      c.size = (s.info t).hookCounts := by
  unfold onMethodExit.begin
  rw [State.stack_setThread_self]
  exact ⟨_, rfl, rfl, rfl⟩

/-- A step leaves the other threads alone. -/
theorem Step.threads_of_ne (h : Step jvm s l s') (hne : l.thread ≠ some u) :
    s'.threads u = s.threads u := by
  have hother : ∀ {t : Tid} {f : Tid → Thread} {th : Thread}, some t ≠ some u →
      Function.update f t th u = f u := by
    intro t f th htu
    exact Function.update_of_ne (fun hut => htu (congrArg some hut.symm)) th f
  cases h with
  | register | unregister | nativeInert | nativeLive => rfl
  | finishEntry hframes hloop hcb =>
      obtain ⟨forced, hthreads⟩ := onMethodEntry.threads_finish jvm s _ _ _ _ _
      rw [hthreads]
      exact hother hne
  | finishExit hframes hcb =>
      obtain ⟨forced, hthreads⟩ := onMethodExit.threads_finish jvm s _ _ _ _ _
      rw [hthreads]
      exact hother hne
  | _ => exact hother hne

theorem Step.thread_self (h : Step jvm s l s') (hself : l.thread = some t) :
    ThreadStep jvm s t l (s'.info t) (s'.stack t) := by
  cases h with
  | register | unregister | nativeInert | nativeLive => cases hself
  | callUnhooked halive hnone =>
      obtain rfl := Option.some.inj hself
      rw [State.info_setThread_self, State.stack_setThread_self]
      exact .called fun hpasses => hpasses.1 hnone
  | callSuppressed halive hsome hguard =>
      obtain rfl := Option.some.inj hself
      rw [State.info_setThread_self, State.stack_setThread_self]
      exact .called fun hpasses => hpasses.2 hguard
  | callBroadcast halive hpasses hread =>
      obtain rfl := Option.some.inj hself
      unfold onMethodEntry.begin
      rw [State.info_setThread_self, State.stack_setThread_self]
      exact .entryBegins hpasses rfl rfl rfl rfl
  | leaveSkipped hframes hguard =>
      obtain rfl := Option.some.inj hself
      rw [State.info_setThread_self, State.stack_setThread_self]
      exact .left hframes hguard
  | leaveBroadcast hframes hpasses =>
      obtain rfl := Option.some.inj hself
      unfold onMethodExit.begin
      rw [State.info_setThread_self, State.stack_setThread_self]
      exact .exitBegins hframes hpasses rfl rfl
  | prepareSkipped halive hguard =>
      obtain rfl := Option.some.inj hself
      rw [State.info_setThread_self, State.stack_setThread_self]
      exact .idle
  | prepareBroadcast halive hpasses =>
      obtain rfl := Option.some.inj hself
      rw [State.info_setThread_self, State.stack_setThread_self]
      exact .prepareBegins hpasses
  | broadcast hframes hloop =>
      obtain rfl := Option.some.inj hself
      rw [State.info_setThread_self, State.stack_setThread_self]
      exact .entryLoops hframes
  | dispatchEntry hframes hloop hlt =>
      obtain rfl := Option.some.inj hself
      rw [State.info_setThread_self, State.stack_setThread_self]
      exact .entryLoops hframes
  | dispatchExit hframes hlt =>
      obtain rfl := Option.some.inj hself
      rw [State.info_setThread_self, State.stack_setThread_self]
      exact .exitLoops hframes
  | finishEntry hframes hloop hcb =>
      obtain rfl := Option.some.inj hself
      obtain ⟨forced, hthreads⟩ := onMethodEntry.threads_finish jvm s _ _ _ _ _
      rw [State.info, State.stack, hthreads, Function.update_self]
      exact .entryEnds hframes rfl rfl
  | finishExit hframes hcb =>
      obtain rfl := Option.some.inj hself
      obtain ⟨forced, hthreads⟩ := onMethodExit.threads_finish jvm s _ _ _ _ _
      rw [State.info, State.stack, hthreads, Function.update_self]
      exact .exitEnds hframes
  | finishPrepare hframes =>
      obtain rfl := Option.some.inj hself
      unfold onClassPrepare.finish
      rw [State.info_setThread_self, State.stack_setThread_self]
      exact .prepareEnds hframes
  | threadEnd hframes halive =>
      obtain rfl := Option.some.inj hself
      rw [State.info_setThread_self, State.stack_setThread_self, hframes]
      exact .ended hframes

/-- What a step does to a thread. -/
theorem Step.thread (h : Step jvm s l s') (t : Tid) :
    ThreadStep jvm s t l (s'.info t) (s'.stack t) := by
  by_cases hself : l.thread = some t
  · exact h.thread_self hself
  · rw [State.info, State.stack, h.threads_of_ne hself]
    exact .idle

end

end JvmHookFramework
