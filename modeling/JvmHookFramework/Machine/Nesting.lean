/-
  Machine/Nesting.lean --- broadcasts inside broadcasts.

  `onMethodEntry` stays out of its block while the thread runs a hook or an exit
  callback, so an entry broadcast never starts inside another broadcast.  `onMethodExit`
  looks at `exitingMethod` only: while a hook runs inside `broadcastMethodEnter`, the exit
  of a method that matches what an earlier call left in the record starts a second
  broadcast.  That is the only way.
-/
import JvmHookFramework.Machine.Guards

set_option autoImplicit false

namespace JvmHookFramework

open Foundation Foundation.GuardStack

/-! ## Broadcasts -/

/-- The callback of the frame is inside `broadcastMethodEnter` or `broadcastMethodExit`. -/
def Frame.Broadcasting : Frame → Prop
  | .methodEntry c => c.loop.isSome = true
  | .methodExit _ => True
  | .activation _ | .classPrepare => False

/-- A broadcast on the thread has not returned. -/
def State.Broadcasting (s : State) (t : Tid) : Prop := ∃ f ∈ s.stack t, f.Broadcasting

/-- `broadcastMethodEnter` has started on the thread and has not returned. -/
def State.EntryBroadcasting (s : State) (t : Tid) : Prop :=
  ∃ c : EntryCall, .methodEntry c ∈ s.stack t ∧ c.loop.isSome = true

/-- The step starts a broadcast on `t`: it calls `broadcastMethodEnter`, or it puts an
exit callback, which begins with its call of `broadcastMethodExit`, on the stack. -/
def StartsBroadcast (jvm : Jvm) (t : Tid) (s : State) (l : Label) : Prop :=
  ∃ s', step jvm s l = some s' ∧
    (l = .broadcast t ∨ ∃ c, s'.stack t = .methodExit c :: s.stack t)

/-- The step is an exit event that passes the guards of `onMethodExit`. -/
def ExitEventPasses (jvm : Jvm) (t : Tid) (s : State) (l : Label) : Prop :=
  ∃ popped value a rest hooks, l = .leave t popped value ∧
    s.stack t = .activation a :: rest ∧ ExitPasses jvm (s.info t) a.method hooks

section

variable {jvm : Jvm} {s s' : State} {t : Tid} {l : Label}

theorem State.EntryBroadcasting.broadcasting (h : s.EntryBroadcasting t) :
    s.Broadcasting t := by
  obtain ⟨c, hmem, hloop⟩ := h
  exact ⟨.methodEntry c, hmem, hloop⟩

/-- An exit event that passes the guards starts a broadcast. -/
theorem ExitPasses.step_leave {a : Activation} {rest : List Frame} {hooks : ArrayId}
    (hstack : s.stack t = .activation a :: rest)
    (hpasses : ExitPasses jvm (s.info t) a.method hooks) (popped : Bool)
    (value : Option Jvalue) :
    step jvm s (.leave t popped value) =
      some (onMethodExit.begin jvm s t a rest hooks popped value) := by
  obtain ⟨hhooks, hexiting, target, htarget, hkey⟩ := hpasses
  have hframes : (s.threads t).frames = .activation a :: rest := hstack
  unfold State.info at hhooks hexiting htarget
  simp only [step, hframes, onMethodExit, hhooks, htarget, hkey, hexiting]
  rw [if_neg (not_not.mpr rfl), if_neg Bool.false_ne_true]

theorem ExitEventPasses.starts (h : ExitEventPasses jvm t s l) : StartsBroadcast jvm t s l := by
  obtain ⟨popped, value, a, rest, hooks, rfl, hstack, hpasses⟩ := h
  refine ⟨_, hpasses.step_leave hstack popped value, Or.inr ?_⟩
  obtain ⟨c, hc, _⟩ := onMethodExit.stack_begin jvm s t a rest hooks popped value
  exact ⟨c, hc.trans (congrArg _ hstack.symm)⟩

/-- A step that puts an exit callback on the stack is an exit event that passes; the
callback is given the `hooks` and the `hookCounts` of the record. -/
theorem ThreadStep.exit_begins {info : HookInvokingInfo} {stack : List Frame} {c : ExitCall}
    (h : ThreadStep jvm s t l info stack) (hstack' : stack = .methodExit c :: s.stack t) :
    ∃ popped value a rest, l = .leave t popped value ∧ s.stack t = .activation a :: rest ∧
      ExitPasses jvm (s.info t) a.method c.pointer ∧ c.size = (s.info t).hookCounts := by
  have hlonger : stack.length = (s.stack t).length + 1 := congrArg List.length hstack'
  cases h with
  | idle => simp at hlonger
  | ended hstack => simp at hlonger
  | called hguard => simp at hstack'
  | entryBegins => simp at hlonger
  | left hstack hguard =>
      rw [hstack] at hlonger
      simp at hlonger
      omega
  | exitBegins hstack hpasses hcallback hsize =>
      obtain ⟨heq, _⟩ := List.cons.inj hstack'
      obtain rfl := Frame.methodExit.inj heq
      exact ⟨_, _, _, _, rfl, hstack, hpasses, hsize⟩
  | prepareBegins => simp at hstack'
  | entryLoops hstack => simp at hstack'
  | exitLoops hstack =>
      rw [hstack] at hlonger
      simp at hlonger
  | entryEnds hstack => simp at hstack'
  | exitEnds hstack =>
      rw [hstack] at hlonger
      simp at hlonger
      omega
  | prepareEnds hstack =>
      rw [hstack] at hlonger
      simp at hlonger
      omega

theorem startsBroadcast_cases (h : StartsBroadcast jvm t s l) :
    ExitEventPasses jvm t s l ∨
      ∃ c rest, l = .broadcast t ∧ s.stack t = .methodEntry c :: rest ∧ c.loop = none := by
  obtain ⟨s', hstep, hstarts⟩ := h
  rcases hstarts with rfl | ⟨c, hstack'⟩
  · cases step_cases hstep with
    | broadcast hframes hloop => exact Or.inr ⟨_, _, rfl, hframes, hloop⟩
  · obtain ⟨popped, value, a, rest, hl, hstack, hpasses, _⟩ :=
      ((step_cases hstep).thread t).exit_begins hstack'
    exact Or.inl ⟨popped, value, a, rest, _, hl, hstack, hpasses⟩

/-! ## What nests in what -/

/-- An entry callback is never above an exit callback. -/
def MayNest (upper lower : Guard) : Prop := upper = .runningHook → lower ≠ .exitingMethod

theorem ThreadStep.mayNest {info : HookInvokingInfo} {stack : List Frame}
    (h : ThreadStep jvm s t l info stack) (hexact : Exact (s.info t).flag (s.running t))
    (hnest : (s.running t).Pairwise MayNest) : (guards stack).Pairwise MayNest := by
  have hother : ∀ {g : Guard}, g ≠ .runningHook → ∀ lower ∈ s.running t, MayNest g lower :=
    fun hne _ _ heq => absurd heq hne
  unfold State.running at hnest hexact hother
  cases h with
  | idle => exact hnest
  | ended hstack => exact .nil
  | called => exact hnest
  | entryBegins hpasses =>
      refine .cons (fun lower hlower _ => ?_) hnest
      rintro rfl
      have hset := (hexact.set_iff .exitingMethod).mpr hlower
      rw [HookInvokingInfo.flag, hpasses.flags.2] at hset
      exact Bool.false_ne_true hset
  | left hstack =>
      rw [hstack] at hnest
      exact hnest
  | exitBegins hstack =>
      rw [hstack] at hnest hother
      exact .cons (hother (by decide)) hnest
  | prepareBegins => exact .cons (hother (by decide)) hnest
  | entryLoops hstack =>
      rw [hstack] at hnest
      exact hnest
  | exitLoops hstack =>
      rw [hstack] at hnest
      exact hnest
  | entryEnds hstack =>
      rw [hstack] at hnest
      exact hnest.tail
  | exitEnds hstack =>
      rw [hstack] at hnest
      exact hnest.tail
  | prepareEnds hstack =>
      rw [hstack] at hnest
      exact hnest.tail

theorem mayNest_of_reachable (h : Reachable (step jvm) initialState s) (t : Tid) :
    (s.running t).Pairwise MayNest := by
  let inv : State → Prop := fun s => (s.running t).Pairwise MayNest
  refine @reachable_invariant_with _ _ _ inv _ _ .nil ?_ h
  intro s l s' hreachable hnest hstep
  exact ((step_cases hstep).thread t).mayNest (guarded_of_reachable hreachable t) hnest

/-- What runs below an entry callback is not inside a broadcast. -/
theorem not_broadcasting_below {c : EntryCall} {rest : List Frame}
    (hexact : Exact (s.info t).flag (s.running t)) (hnest : (s.running t).Pairwise MayNest)
    (hstack : s.stack t = .methodEntry c :: rest) {f : Frame} (hf : f ∈ rest) :
    ¬ f.Broadcasting := by
  have hnodup := hexact.nodup
  unfold State.running at hnodup hnest
  rw [hstack, guards_methodEntry] at hnodup hnest
  cases f with
  | activation a => exact id
  | classPrepare => exact id
  | methodEntry d =>
      intro _
      have hmem : Guard.runningHook ∈ guards rest := mem_guards.mpr ⟨_, hf, rfl⟩
      exact (List.nodup_cons.mp hnodup).1 hmem
  | methodExit d =>
      intro _
      have hmem : Guard.exitingMethod ∈ guards rest := mem_guards.mpr ⟨_, hf, rfl⟩
      exact (List.pairwise_cons.mp hnest).1 _ hmem rfl rfl

/-- A broadcast starts inside another one exactly when an exit event passes the guards
during an entry broadcast. -/
theorem starts_nested_iff (hreachable : Reachable (step jvm) initialState s) :
    (StartsBroadcast jvm t s l → ¬ s.Broadcasting t) ↔
      (ExitEventPasses jvm t s l → ¬ s.EntryBroadcasting t) := by
  have hexact := guarded_of_reachable hreachable t
  constructor
  · intro hnever hpasses hentry
    exact hnever hpasses.starts hentry.broadcasting
  · intro hguard hstarts hbroadcasting
    obtain ⟨f, hmem, hf⟩ := hbroadcasting
    rcases startsBroadcast_cases hstarts with hpasses | ⟨c, rest, rfl, hstack, hloop⟩
    · cases f with
      | activation a => exact hf
      | classPrepare => exact hf
      | methodEntry c => exact hguard hpasses ⟨c, hmem, hf⟩
      | methodExit c =>
          obtain ⟨popped, value, a, rest, hooks, _, _, hpasses⟩ := hpasses
          have hset := (hexact.set_iff .exitingMethod).mpr (mem_guards.mpr ⟨_, hmem, rfl⟩)
          rw [HookInvokingInfo.flag, hpasses.2.1] at hset
          exact Bool.false_ne_true hset
    · rw [hstack, List.mem_cons] at hmem
      rcases hmem with rfl | hbelow
      · rw [Frame.Broadcasting, hloop] at hf
        exact Bool.false_ne_true hf
      · exact not_broadcasting_below hexact (mayNest_of_reachable hreachable t) hstack hbelow hf

end

/-- In a run no broadcast of `t` starts inside another one if and only if no exit event
passes the guards of `onMethodExit` during an entry broadcast of `t`. -/
theorem broadcasts_never_nest_iff (jvm : Jvm) (t : Tid) (ls : List Label) :
    (∀ s l, Takes (step jvm) initialState ls s l →
      StartsBroadcast jvm t s l → ¬ s.Broadcasting t) ↔
    ∀ s l, Takes (step jvm) initialState ls s l →
      ExitEventPasses jvm t s l → ¬ s.EntryBroadcasting t :=
  forall_takes_congr fun _ _ hreachable => starts_nested_iff hreachable

/-- A hooked method calls itself; the hook of the inner call calls the method once more,
and the exit of that call matches what the outer call left in the record. -/
def recursiveHookRun : List Label :=
  [.register ⟨1⟩ (some ⟨5⟩), .call 0 ⟨1⟩ fun _ => none, .broadcast 0, .dispatch 0,
    .finish 0 false, .call 0 ⟨1⟩ fun _ => none, .broadcast 0, .dispatch 0,
    .call 0 ⟨1⟩ fun _ => none, .leave 0 false none]

theorem broadcast_nests_in_recursiveHookRun :
    ¬ ∀ ls s l, Takes (step .plain) initialState ls s l →
      StartsBroadcast .plain 0 s l → ¬ s.Broadcasting 0 := by
  intro hnever
  let s := (run (step .plain) initialState (recursiveHookRun.take 9)).get rfl
  have htakes : Takes (step .plain) initialState recursiveHookRun s (.leave 0 false none) :=
    ⟨recursiveHookRun.take 9, [], rfl, rfl⟩
  refine hnever _ s _ htakes ⟨_, rfl, Or.inr ⟨_, rfl⟩⟩ ?_
  exact ⟨_, List.mem_cons_of_mem _ List.mem_cons_self, rfl⟩

end JvmHookFramework
