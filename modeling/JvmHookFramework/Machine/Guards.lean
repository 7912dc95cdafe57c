/-
  Machine/Guards.lean --- the guard flags of the per-thread record.

  Each kind of callback sets one flag of the record while it is in its block and clears
  it before it returns.  A thread therefore is a guard stack: the flags are set exactly
  for the callbacks on the stack, at most one of each kind, and a callback that has
  returned leaves all of them as it found them.
-/
import JvmHookFramework.Foundation.GuardStack
import JvmHookFramework.Foundation.Transition
import JvmHookFramework.Machine.Thread

set_option autoImplicit false

namespace JvmHookFramework

open Foundation Foundation.GuardStack

/-! ## A thread as a guard stack -/

/-- The flags of the record, one for each kind of callback. -/
inductive Guard where
  | runningHook
  | exitingMethod
  | broadcastingMethodPrepareLoad
  deriving DecidableEq, Repr

def HookInvokingInfo.flag (info : HookInvokingInfo) : Guard → Bool
  | .runningHook => info.runningHook
  | .exitingMethod => info.exitingMethod
  | .broadcastingMethodPrepareLoad => info.broadcastingMethodPrepareLoad

/-- Write one flag. -/
def HookInvokingInfo.setFlag (info : HookInvokingInfo) : Guard → Bool → HookInvokingInfo
  | .runningHook, b => { info with runningHook := b }
  | .exitingMethod, b => { info with exitingMethod := b }
  | .broadcastingMethodPrepareLoad, b => { info with broadcastingMethodPrepareLoad := b }

theorem HookInvokingInfo.flag_setFlag (info : HookInvokingInfo) (g : Guard) (b : Bool) :
    (info.setFlag g b).flag = Function.update info.flag g b := by
  funext g'
  cases g <;> cases g' <;> rfl

/-- The flag that a frame holds. -/
def Frame.guard : Frame → Option Guard
  | .activation _ => none
  | .methodEntry _ => some .runningHook
  | .methodExit _ => some .exitingMethod
  | .classPrepare => some .broadcastingMethodPrepareLoad

/-- The callbacks on a stack, by their flags. -/
def guards (frames : List Frame) : List Guard := frames.filterMap Frame.guard

@[simp] theorem guards_nil : guards [] = [] := rfl

@[simp] theorem guards_activation (a : Activation) (rest : List Frame) :
    guards (.activation a :: rest) = guards rest := rfl

@[simp] theorem guards_methodEntry (c : EntryCall) (rest : List Frame) :
    guards (.methodEntry c :: rest) = .runningHook :: guards rest := rfl

@[simp] theorem guards_methodExit (c : ExitCall) (rest : List Frame) :
    guards (.methodExit c :: rest) = .exitingMethod :: guards rest := rfl

@[simp] theorem guards_classPrepare (rest : List Frame) :
    guards (.classPrepare :: rest) = .broadcastingMethodPrepareLoad :: guards rest := rfl

/-- The callbacks that run on a thread, the innermost first. -/
def State.running (s : State) (t : Tid) : List Guard := guards (s.stack t)

theorem mem_guards {frames : List Frame} {g : Guard} :
    g ∈ guards frames ↔ ∃ f ∈ frames, f.guard = some g :=
  List.mem_filterMap

theorem EntryPasses.flags {jvm : Jvm} {s : State} {t : Tid} {method : JmethodID}
    (h : EntryPasses jvm s t method) :
    (s.info t).runningHook = false ∧ (s.info t).exitingMethod = false := by
  obtain ⟨_, hguard⟩ := h
  exact ⟨eq_false_of_ne_true fun hr => hguard (Or.inl hr),
    eq_false_of_ne_true fun he => hguard (Or.inr (Or.inl he))⟩

section

variable {jvm : Jvm} {s s' : State} {t : Tid} {l : Label} {ls : List Label}
  {info : HookInvokingInfo} {stack : List Frame}

theorem moves_starts (info : HookInvokingInfo) (running : List Guard) {g : Guard}
    (hclear : info.flag g = false) :
    Moves info.flag running (info.setFlag g true).flag (g :: running) := by
  rw [HookInvokingInfo.flag_setFlag]
  exact .starts hclear

theorem moves_ends (info : HookInvokingInfo) (outer : List Guard) (g : Guard) :
    Moves info.flag (g :: outer) (info.setFlag g false).flag outer := by
  rw [HookInvokingInfo.flag_setFlag]
  exact .ends rfl

/-- Every step but the end of the thread moves its flags as a guard stack. -/
theorem ThreadStep.moves (h : ThreadStep jvm s t l info stack) :
    (l = .threadEnd t ∧ s.stack t = [] ∧ info = {} ∧ stack = []) ∨
      Moves (s.info t).flag (s.running t) info.flag (guards stack) := by
  unfold State.running
  cases h with
  | idle => exact Or.inr .stays
  | ended hstack => exact Or.inl ⟨rfl, hstack, rfl, rfl⟩
  | called => exact Or.inr .stays
  | entryBegins hpasses =>
      have hclear : (s.info t).flag .runningHook = false := hpasses.flags.1
      exact Or.inr (moves_starts _ _ hclear)
  | left hstack =>
      rw [hstack]
      exact Or.inr .stays
  | exitBegins hstack hpasses =>
      have hclear : (s.info t).flag .exitingMethod = false := hpasses.2.1
      rw [hstack]
      exact Or.inr (moves_starts _ _ hclear)
  | prepareBegins hpasses =>
      have hclear : (s.info t).flag .broadcastingMethodPrepareLoad = false := hpasses.1
      exact Or.inr (moves_starts _ _ hclear)
  | entryLoops hstack =>
      rw [hstack]
      exact Or.inr .stays
  | exitLoops hstack =>
      rw [hstack]
      exact Or.inr .stays
  | entryEnds hstack =>
      rw [hstack]
      exact Or.inr (moves_ends _ _ .runningHook)
  | exitEnds hstack =>
      rw [hstack]
      exact Or.inr (moves_ends _ _ .exitingMethod)
  | prepareEnds hstack =>
      rw [hstack]
      exact Or.inr (moves_ends _ _ .broadcastingMethodPrepareLoad)

/-! ## The flags of reachable states -/

/-- The flags of a thread are set exactly for the callbacks on its stack. -/
def State.Guarded (s : State) : Prop := ∀ t, Exact (s.info t).flag (s.running t)

theorem flag_default : ({} : HookInvokingInfo).flag = fun _ => false := by
  funext g
  cases g <;> rfl

theorem initialState_guarded : initialState.Guarded := by
  intro t
  have hflag : (initialState.info t).flag = fun _ => false := flag_default
  rw [hflag]
  exact exact_nil

theorem State.Guarded.step (h : s.Guarded) (hstep : step jvm s l = some s') : s'.Guarded := by
  intro t
  have hthread := (step_cases hstep).thread t
  rcases hthread.moves with ⟨_, _, hinfo, hstack⟩ | hmoves
  · rw [hinfo, State.running, hstack, flag_default]
    exact exact_nil
  · exact (h t).moves hmoves

theorem guarded_of_reachable (h : Reachable (step jvm) initialState s) : s.Guarded :=
  reachable_invariant initialState_guarded (fun _ _ _ hg hstep => hg.step hstep) h

/-! ## A callback and what nests in it -/

/-- The event of the label raises a callback on `t`. -/
def Label.Raises (t : Tid) : Label → Prop
  | .call u _ _ | .leave u _ _ | .prepare u _ => u = t
  | _ => False

/-- The callback that `l` raises on `t` in `s` has returned in `s'`, after the steps `ls`,
and not before: until then it or a callback nested in it is on the stack. -/
def CallbackReturns (jvm : Jvm) (t : Tid) (s : State) (l : Label) (ls : List Label)
    (s' : State) : Prop :=
  l.Raises t ∧ ∃ s₁, step jvm s l = some s₁ ∧ run (step jvm) s₁ ls = some s' ∧
    (s'.running t).length = (s.running t).length ∧
    ∀ s₂ k, Takes (step jvm) s₁ ls s₂ k → (s.running t).length < (s₂.running t).length

/-- While something runs above `base`, a step keeps what its end restores. -/
theorem restores_step {base : List Guard} {flags₀ : Guard → Bool}
    (h : Restores base flags₀ (s.info t).flag (s.running t))
    (habove : base.length < (s.running t).length) (hstep : step jvm s l = some s') :
    Restores base flags₀ (s'.info t).flag (s'.running t) := by
  rcases ((step_cases hstep).thread t).moves with ⟨_, hnil, _⟩ | hmoves
  · rw [State.running, hnil] at habove
    exact absurd habove (Nat.not_lt_zero _)
  · refine h.moves hmoves ?_
    have hlength : (s.running t).length ≤ (s'.running t).length + 1 := hmoves.length_le
    exact Nat.le_of_lt_succ (Nat.lt_of_lt_of_le habove hlength)

theorem CallbackReturns.flag_eq (h : CallbackReturns jvm t s l ls s') :
    (s'.info t).flag = (s.info t).flag := by
  obtain ⟨hraises, s₁, hfirst, hrun, hreturned, hinside⟩ := h
  have hkeeps : (s.running t).length ≤ (s₁.running t).length := by
    cases ls with
    | nil =>
        obtain rfl := Option.some.inj hrun
        exact hreturned.ge
    | cons k ks => exact (hinside s₁ k (takes_head s₁ k ks)).le
  have hstart : Restores (s.running t) (s.info t).flag (s₁.info t).flag (s₁.running t) := by
    rcases ((step_cases hfirst).thread t).moves with ⟨hend, _⟩ | hmoves
    · rw [hend] at hraises
      cases hraises
    · exact (Restores.refl _ _).moves hmoves hkeeps
  have hdone : Restores (s.running t) (s.info t).flag (s'.info t).flag (s'.running t) :=
    run_invariant_of_takes (fun _ _ _ hinv habove hstep => restores_step hinv habove hstep)
      hstart hrun hinside
  exact hdone.eq hreturned

end

/-- Every callback restores the guard flags, whatever state it starts in and whatever
nests in it; so they are clear whenever no callback runs. -/
theorem callbacks_restore_flags (jvm : Jvm) (t : Tid) :
    (∀ (s : State) (l : Label) (ls : List Label) (s' : State),
      CallbackReturns jvm t s l ls s' →
        (s'.info t).runningHook = (s.info t).runningHook ∧
        (s'.info t).exitingMethod = (s.info t).exitingMethod ∧
        (s'.info t).broadcastingMethodPrepareLoad =
          (s.info t).broadcastingMethodPrepareLoad) ∧
    ∀ s : State, Reachable (step jvm) initialState s → s.running t = [] →
      (s.info t).runningHook = false ∧ (s.info t).exitingMethod = false ∧
        (s.info t).broadcastingMethodPrepareLoad = false := by
  refine ⟨fun s l ls s' hreturns => ?_, fun s hreachable hnone => ?_⟩
  · have hflag := hreturns.flag_eq
    exact ⟨congrFun hflag .runningHook, congrFun hflag .exitingMethod,
      congrFun hflag .broadcastingMethodPrepareLoad⟩
  · have hexact := guarded_of_reachable hreachable t
    rw [hnone] at hexact
    exact ⟨hexact.eq_false_of_nil .runningHook, hexact.eq_false_of_nil .exitingMethod,
      hexact.eq_false_of_nil .broadcastingMethodPrepareLoad⟩

/-- A hooked call whose hook throws. -/
theorem callbacks_restore_flags_throwing :
    ∃ s s', CallbackReturns .plain 0 s (.call 0 ⟨1⟩ fun _ => none) [.broadcast 0, .finish 0 true]
        s' ∧
      (s'.info 0).runningHook = (s.info 0).runningHook ∧
      Reachable (step .plain) initialState s' ∧ s'.running 0 = [] ∧
      (s'.info 0).exitingMethod = false := by
  let s : State := { initialState with registry := registerHook initialRegistry ⟨1⟩ (some ⟨5⟩) }
  let s₁ := (step .plain s (.call 0 ⟨1⟩ fun _ => none)).get rfl
  let s₂ := (step .plain s₁ (.broadcast 0)).get rfl
  let s₃ := (step .plain s₂ (.finish 0 true)).get rfl
  have hreturns : CallbackReturns .plain 0 s (.call 0 ⟨1⟩ fun _ => none)
      [.broadcast 0, .finish 0 true] s₃ := by
    refine ⟨rfl, s₁, rfl, rfl, rfl, ?_⟩
    refine forall_takes_cons rfl (Nat.lt_succ_self 0) ?_
    refine forall_takes_cons rfl (Nat.lt_succ_self 0) ?_
    exact fun _ _ hnone => absurd hnone takes_nil
  have hreachable : Reachable (step .plain) initialState s₃ :=
    ⟨[.register ⟨1⟩ (some ⟨5⟩), .call 0 ⟨1⟩ fun _ => none, .broadcast 0, .finish 0 true], rfl⟩
  exact ⟨s, s₃, hreturns, ((callbacks_restore_flags .plain 0).1 s _ _ s₃ hreturns).1,
    hreachable, rfl, ((callbacks_restore_flags .plain 0).2 s₃ hreachable rfl).2.1⟩

end JvmHookFramework
