/-
  Machine/Callers.lean --- the caller that hooks are told.

  Both callbacks ask the virtual machine for the frame below the one their event is about.
  The callbacks are native code and have no frame of their own, so the answer depends on
  the activations of the thread only.  What an activation stands on stays what it is for as
  long as the activation lasts, whatever is called and announced above it in the meantime:
  its announcements name one caller, the class of the method that called it.
-/
import JvmHookFramework.Foundation.Retention
import JvmHookFramework.Machine.Thread

set_option autoImplicit false

namespace JvmHookFramework

open Foundation

/-! ## Java frames -/

/-- The method of a Java frame. -/
def Frame.javaMethod : Frame → Option JmethodID
  | .activation a => some a.method
  | .methodEntry _ | .methodExit _ | .classPrepare => none

/-- The methods that a thread is in, the top first. -/
def State.javaFrames (s : State) (t : Tid) : List JmethodID :=
  (s.stack t).filterMap Frame.javaMethod

/-- `GetStackTrace`: no frame where it fails because the stack ends above `start_depth`. -/
def State.GetStackTrace (s : State) (t : Tid) (start_depth max_frame_count : Nat) :
    List JmethodID :=
  ((s.javaFrames t).drop start_depth).take max_frame_count

def findCaller (jvm : Jvm) (s : State) (t : Tid) : Option Klass :=
  match s.GetStackTrace t 1 1 with
  | [] => none
  | method :: _ => some (jvm.GetMethodDeclaringClass method)

theorem findCaller_of_cons {jvm : Jvm} {s : State} {t : Tid} {method : JmethodID}
    {below : List JmethodID} (h : s.javaFrames t = method :: below) :
    findCaller jvm s t = below.head?.map jvm.GetMethodDeclaringClass := by
  rw [findCaller, State.GetStackTrace, h]
  cases below <;> rfl

section

variable {jvm : Jvm} {s s' : State} {t : Tid} {l : Label}

/-! ## A step pushes a Java frame or pops one -/

theorem ThreadStep.pushesOrPops {info : HookInvokingInfo} {stack : List Frame}
    (h : ThreadStep jvm s t l info stack) :
    PushesOrPops (s.javaFrames t) (stack.filterMap Frame.javaMethod) := by
  unfold State.javaFrames
  cases h with
  | idle => exact .refl _
  | ended hstack =>
      rw [hstack]
      exact .refl _
  | called | entryBegins => exact .push _ _
  | left hstack =>
      rw [hstack]
      exact .pop _ _
  | exitBegins hstack | entryLoops hstack | exitLoops hstack | prepareEnds hstack =>
      rw [hstack]
      exact .refl _
  | prepareBegins => exact .refl _
  | entryEnds hstack hmethod =>
      rw [hstack]
      -- The activation gets its arguments back; its method is the one it had.
      simp only [List.filterMap_cons, Frame.javaMethod, hmethod]
      exact .refl _
  | exitEnds hstack =>
      rw [hstack]
      exact .pop _ _

theorem javaFrames_call {method : JmethodID} {frame : Locals}
    (h : step jvm s (.call t method frame) = some s') :
    s'.javaFrames t = method :: s.javaFrames t := by
  unfold State.javaFrames
  cases step_cases h with
  | callUnhooked | callSuppressed =>
      rw [State.stack_setThread_self]
      rfl
  | callBroadcast =>
      unfold onMethodEntry.begin
      rw [State.stack_setThread_self]
      rfl

end

/-- From its call to its exit a method has one caller: whenever it is the method that the
thread is in, `findCaller` gives the class of the method that the thread was in when it was
called, and null if there was none. -/
theorem hooks_are_told_the_caller (jvm : Jvm) {s s₁ s' : State} {t : Tid} {method : JmethodID}
    {frame : Locals} {ls : List Label}
    (hcall : step jvm s (.call t method frame) = some s₁)
    (hrun : run (step jvm) s₁ ls = some s')
    (hstays : ∀ u l, Takes (step jvm) s₁ ls u l →
      (s.javaFrames t).length < (u.javaFrames t).length)
    (htop : (s'.javaFrames t).length = (s.javaFrames t).length + 1) :
    findCaller jvm s' t = (s.javaFrames t).head?.map jvm.GetMethodDeclaringClass := by
  have hbase : method :: s.javaFrames t <:+ s₁.javaFrames t := by
    have hpushed := javaFrames_call hcall
    exact hpushed ▸ List.suffix_refl _
  have hkept : method :: s.javaFrames t <:+ s'.javaFrames t :=
    @retained_of_takes _ _ _ _ (fun u : State => u.javaFrames t)
      (fun _ _ _ hu => ((step_cases hu).thread t).pushesOrPops) _ _ _ _ hbase hrun hstays
      (Nat.le_of_eq htop.symm)
  have hsame : method :: s.javaFrames t = s'.javaFrames t := hkept.eq_of_length htop.symm
  exact findCaller_of_cons hsame.symm

/-- Every method `m` is `static void m()` of a class of its own. -/
def Jvm.classPerMethod : Jvm := { Jvm.plain with GetMethodDeclaringClass := fun m => ⟨m.ptr⟩ }

/-- What `⟨2⟩` calls while its call is announced, and its exit up to the announcement. -/
def calleeRun : List Label :=
  [.broadcast 0, .dispatch 0, .call 0 ⟨3⟩ fun _ => none, .leave 0 false none, .finish 0 false]

theorem hooks_are_told_the_caller_calleeRun :
    ∃ s s' : State, s.javaFrames 0 = [⟨1⟩] ∧
      (∃ a, s'.stack 0 = [.activation a, .activation (entered ⟨1⟩ fun _ => none)] ∧
        ExitPasses .classPerMethod (s'.info 0) a.method 0) ∧
      findCaller .classPerMethod s' 0 = some ⟨1⟩ := by
  let s := (run (step .classPerMethod) initialState
    [.register ⟨2⟩ (some ⟨5⟩), .call 0 ⟨1⟩ fun _ => none]).get rfl
  let s₁ := (step .classPerMethod s (.call 0 ⟨2⟩ fun _ => none)).get rfl
  let s' := (run (step .classPerMethod) s₁ calleeRun).get rfl
  have hcall : step .classPerMethod s (.call 0 ⟨2⟩ fun _ => none) = some s₁ := rfl
  have hrun : run (step .classPerMethod) s₁ calleeRun = some s' := rfl
  have hstays : ∀ u l, Takes (step .classPerMethod) s₁ calleeRun u l →
      (s.javaFrames 0).length < (u.javaFrames 0).length := by
    refine forall_takes_cons rfl (by decide) ?_
    refine forall_takes_cons rfl (by decide) ?_
    refine forall_takes_cons rfl (by decide) ?_
    refine forall_takes_cons rfl (by decide) ?_
    refine forall_takes_cons rfl (by decide) ?_
    exact fun _ _ htakes => absurd htakes takes_nil
  refine ⟨s, s', rfl, ⟨_, rfl, rfl, rfl, _, rfl, rfl⟩, ?_⟩
  exact hooks_are_told_the_caller .classPerMethod hcall hrun hstays rfl

end JvmHookFramework
