/-
  Machine/Owner.lean --- the activation that the record belongs to.

  `hooks` is written when an entry broadcast returns, and from then on it is the array of
  the topmost activation that was broadcast.  No callback of a method runs below such an
  activation, so its exit event finds the flags clear and the record as its entry left it:
  it passes the guards unless `hooks` is null.  This holds in every run, however calls nest.
-/
import JvmHookFramework.Machine.Pairing

set_option autoImplicit false

namespace JvmHookFramework

open Foundation Foundation.GuardStack

/-! ## Activations that were broadcast -/

/-- No entry and no exit callback is on the stack. -/
def Unguarded (frames : List Frame) : Prop :=
  .runningHook ∉ guards frames ∧ .exitingMethod ∉ guards frames

/-- An activation that was broadcast stands on no entry and no exit callback. -/
def BroadcastsOutside : List Frame → Prop
  | [] => True
  | .activation a :: rest => (a.broadcast ≠ none → Unguarded rest) ∧ BroadcastsOutside rest
  | .methodEntry _ :: rest | .methodExit _ :: rest | .classPrepare :: rest =>
      BroadcastsOutside rest

/-- There is an activation that was broadcast, and the topmost one has the property. -/
def Topmost (P : Activation → Prop) : List Frame → Prop
  | [] => False
  | .activation a :: rest => if a.broadcast = none then Topmost P rest else P a
  | .methodEntry _ :: rest | .methodExit _ :: rest | .classPrepare :: rest => Topmost P rest

section Topmost

variable {P Q : Activation → Prop} {a : Activation} {frames : List Frame}

theorem topmost_of_none (h : a.broadcast = none) :
    Topmost P (.activation a :: frames) ↔ Topmost P frames := by
  rw [Topmost, if_pos h]

theorem topmost_of_ne_none (h : a.broadcast ≠ none) :
    Topmost P (.activation a :: frames) ↔ P a := by
  rw [Topmost, if_neg h]

theorem Topmost.imp (himp : ∀ a, P a → Q a) (h : Topmost P frames) : Topmost Q frames := by
  induction frames with
  | nil => exact h
  | cons f rest ih =>
      cases f with
      | activation a =>
          by_cases hnone : a.broadcast = none
          · rw [topmost_of_none hnone] at h ⊢
            exact ih h
          · rw [topmost_of_ne_none hnone] at h ⊢
            exact himp a h
      | methodEntry c => exact ih h
      | methodExit c => exact ih h
      | classPrepare => exact ih h

theorem Topmost.exists_mem (h : Topmost P frames) : ∃ a, .activation a ∈ frames ∧ P a := by
  induction frames with
  | nil => exact absurd h id
  | cons f rest ih =>
      have hrest : Topmost P rest → ∃ a, .activation a ∈ f :: rest ∧ P a := by
        intro hbelow
        obtain ⟨a, hmem, hP⟩ := ih hbelow
        exact ⟨a, List.mem_cons_of_mem f hmem, hP⟩
      cases f with
      | activation a =>
          by_cases hnone : a.broadcast = none
          · rw [topmost_of_none hnone] at h
            exact hrest h
          · rw [topmost_of_ne_none hnone] at h
            exact ⟨a, List.mem_cons_self, h⟩
      | methodEntry c => exact hrest h
      | methodExit c => exact hrest h
      | classPrepare => exact hrest h

end Topmost

theorem below_methodExit {P : Activation → Prop} {c : ExitCall} {frames : List Frame} :
    Below .runningHook P (.methodExit c :: frames) ↔ Below .runningHook P frames := by
  apply below_cons_of_ne
  simp [Frame.guard]

/-! ## The invariant -/

structure Owned (info : HookInvokingInfo) (stack : List Frame) : Prop where
  outside : BroadcastsOutside stack
  /-- An entry callback is for the activation below it. -/
  entering : info.runningHook = true →
    Below .runningHook (fun a => info.targetMethod = some a.method) stack
  /-- The array in the record is that of the topmost broadcast activation; so is the target,
  unless an entry callback has written its own one already. -/
  owner : ∀ array, info.hooks = some array →
    Topmost (fun a => a.broadcast = some array ∧
      (info.runningHook = false → info.targetMethod = some a.method)) stack

theorem owned_empty : Owned {} [] where
  outside := trivial
  entering := fun h => absurd h Bool.false_ne_true
  owner := by
    intro array harray
    cases harray

section

variable {jvm : Jvm} {s : State} {t : Tid} {l : Label} {info : HookInvokingInfo}
  {stack : List Frame} {a : Activation} {rest : List Frame}

theorem Owned.withFlags (h : Owned info stack) (exitingMethod load : Bool) :
    Owned { info with exitingMethod := exitingMethod, broadcastingMethodPrepareLoad := load }
      stack :=
  ⟨h.outside, h.entering, h.owner⟩

theorem flag_withoutHooks (info : HookInvokingInfo) :
    { info with hooks := none }.flag = info.flag := by
  funext g
  cases g <;> rfl

theorem Owned.withoutHooks (h : Owned info stack) : Owned { info with hooks := none } stack where
  outside := h.outside
  entering := h.entering
  owner := by
    intro array harray
    cases harray

theorem Owned.called (h : Owned info stack) (method : JmethodID) (frame : Locals) :
    Owned info (.activation (entered method frame) :: stack) where
  outside := ⟨fun hne => absurd rfl hne, h.outside⟩
  entering := fun hset => below_activation.mpr (h.entering hset)
  owner := fun array harray => (topmost_of_none rfl).mpr (h.owner array harray)

/-- Nothing is running below an activation that was broadcast. -/
theorem Owned.flags_of_broadcast (h : Owned info (.activation a :: rest))
    (hexact : Exact info.flag (guards (.activation a :: rest))) (hne : a.broadcast ≠ none) :
    info.runningHook = false ∧ info.exitingMethod = false := by
  obtain ⟨hrunning, hexiting⟩ := h.outside.1 hne
  rw [guards_activation] at hexact
  rw [← hexact.set_iff] at hrunning hexiting
  exact ⟨eq_false_of_ne_true hrunning, eq_false_of_ne_true hexiting⟩

/-- The record of an activation that was broadcast and is on top is its own, if it has an
array at all. -/
theorem Owned.of_hooks {array : ArrayId} (h : Owned info (.activation a :: rest))
    (hexact : Exact info.flag (guards (.activation a :: rest))) (hne : a.broadcast ≠ none)
    (hhooks : info.hooks = some array) :
    a.broadcast = some array ∧ info.targetMethod = some a.method := by
  obtain ⟨harray, htarget⟩ := (topmost_of_ne_none hne).mp (h.owner array hhooks)
  exact ⟨harray, htarget (h.flags_of_broadcast hexact hne).1⟩

/-- The exit of an activation that was broadcast is skipped only without an array. -/
theorem Owned.hooks_of_skipped (h : Owned info (.activation a :: rest))
    (hexact : Exact info.flag (guards (.activation a :: rest))) (hne : a.broadcast ≠ none)
    (hguard : ExitSkipped jvm info a.method) : info.hooks = none := by
  by_contra hsome
  obtain ⟨array, harray⟩ := Option.ne_none_iff_exists'.mp hsome
  obtain ⟨_, htarget⟩ := h.of_hooks hexact hne harray
  have hexiting := (h.flags_of_broadcast hexact hne).2
  rcases hguard with hnone | hset | ⟨target, htarget', hkey⟩
  · exact hsome hnone
  · exact Bool.false_ne_true (hexiting.symm.trans hset)
  · obtain rfl := Option.some.inj (htarget.symm.trans htarget')
    exact hkey rfl

theorem Owned.left (h : Owned info (.activation a :: rest))
    (hexact : Exact info.flag (guards (.activation a :: rest)))
    (hguard : ExitSkipped jvm info a.method) : Owned info rest where
  outside := h.outside.2
  entering := fun hset => below_activation.mp (h.entering hset)
  owner := by
    intro array harray
    by_cases hnone : a.broadcast = none
    · exact (topmost_of_none hnone).mp (h.owner array harray)
    · rw [h.hooks_of_skipped hexact hnone hguard] at harray
      cases harray

/-- With an empty record every exit is skipped. -/
theorem Owned.left_withoutHooks (h : Owned { info with hooks := none } (.activation a :: rest))
    (hexact : Exact info.flag (guards (.activation a :: rest))) :
    Owned { info with hooks := none } rest := by
  have hskipped : ExitSkipped .plain { info with hooks := none } a.method := Or.inl rfl
  rw [← flag_withoutHooks] at hexact
  exact h.left hexact hskipped

theorem Owned.entryBegins {c : EntryCall} {method : JmethodID} {frame : Locals}
    {callback : CallbackId} {hookCount : Nat} {array : ArrayId} (h : Owned info stack) :
    Owned (info.entry jvm callback method hookCount array)
      (.methodEntry c :: .activation (entered method frame) :: stack) where
  outside := ⟨fun hne => absurd rfl hne, h.outside⟩
  entering := fun _ => (below_cons_self rfl).mpr rfl
  owner := by
    intro x hx
    refine (topmost_of_none rfl).mpr ((h.owner x hx).imp fun a ha => ⟨ha.1, ?_⟩)
    exact fun hclear => absurd hclear.symm Bool.false_ne_true

theorem Owned.entryEnds {c : EntryCall} {a' : Activation}
    (h : Owned info (.methodEntry c :: .activation a :: rest))
    (hexact : Exact info.flag (guards (.methodEntry c :: .activation a :: rest)))
    (hnest : (guards (.methodEntry c :: .activation a :: rest)).Pairwise MayNest)
    (hmethod : a'.method = a.method) (hbroadcast : a'.broadcast = some c.hookInstances) :
    Owned { info with hooks := some c.hookInstances, runningHook := false }
      (.activation a' :: rest) where
  outside := by
    have hnodup := hexact.nodup
    rw [guards_methodEntry, guards_activation] at hnest hnodup
    refine ⟨fun _ => ⟨(List.nodup_cons.mp hnodup).1, fun hmem => ?_⟩, h.outside.2⟩
    exact (List.pairwise_cons.mp hnest).1 _ hmem rfl rfl
  entering := fun hset => absurd hset Bool.false_ne_true
  owner := by
    intro array harray
    have hne : a'.broadcast ≠ none := by
      rw [hbroadcast]
      exact Option.some_ne_none c.hookInstances
    have hrunning : info.runningHook = true :=
      (hexact.set_iff .runningHook).mpr List.mem_cons_self
    have htarget := (below_cons_self rfl).mp (h.entering hrunning)
    refine (topmost_of_ne_none hne).mpr ⟨hbroadcast.trans harray, fun _ => ?_⟩
    rw [hmethod]
    exact htarget

theorem Owned.exitEnds {c : ExitCall} (h : Owned info (.methodExit c :: .activation a :: rest)) :
    Owned { info with hooks := none, exitingMethod := false } rest where
  outside := h.outside.2
  entering := by
    intro hset
    have hbelow := below_methodExit.mp (h.entering hset)
    exact below_activation.mp hbelow
  owner := by
    intro array harray
    cases harray

theorem Owned.thread (h : Owned (s.info t) (s.stack t))
    (hexact : Exact (s.info t).flag (s.running t)) (hnest : (s.running t).Pairwise MayNest)
    (hthread : ThreadStep jvm s t l info stack) : Owned info stack := by
  unfold State.running at hexact hnest
  have hload : Guard.runningHook ≠ .broadcastingMethodPrepareLoad := by decide
  cases hthread with
  | idle => exact h
  | ended => exact owned_empty
  | called =>
      refine ⟨⟨fun hne => absurd rfl hne, h.outside⟩, fun hset => ?_, fun array harray => ?_⟩
      · exact below_activation.mpr (h.entering hset)
      · exact (topmost_of_none rfl).mpr (h.owner array harray)
  | entryBegins => exact h.entryBegins
  | left hstack hguard =>
      rw [hstack] at h hexact
      exact h.left hexact hguard
  | @exitBegins popped value a rest c hstack =>
      rw [hstack] at h
      have hpushed : Owned (s.info t) (.methodExit c :: .activation a :: rest) :=
        ⟨h.outside, fun hset => below_methodExit.mpr (h.entering hset), h.owner⟩
      exact hpushed.withFlags true _
  | prepareBegins =>
      have hpushed : Owned (s.info t) (.classPrepare :: s.stack t) :=
        ⟨h.outside, fun hset => (below_classPrepare hload).mpr (h.entering hset), h.owner⟩
      exact hpushed.withFlags _ true
  | entryLoops hstack =>
      rw [hstack] at h
      exact ⟨h.outside, h.entering, h.owner⟩
  | exitLoops hstack =>
      rw [hstack] at h
      exact ⟨h.outside, h.entering, h.owner⟩
  | entryEnds hstack hmethod hbroadcast =>
      rw [hstack] at h hexact hnest
      exact h.entryEnds hexact hnest hmethod hbroadcast
  | exitEnds hstack =>
      rw [hstack] at h
      exact h.exitEnds
  | prepareEnds hstack =>
      rw [hstack] at h
      have hpopped : Owned (s.info t) stack :=
        ⟨h.outside, fun hset => (below_classPrepare hload).mp (h.entering hset), h.owner⟩
      exact hpopped.withFlags _ false

theorem owned_of_reachable (h : Reachable (step jvm) initialState s) (t : Tid) :
    Owned (s.info t) (s.stack t) := by
  let inv : State → Prop := fun s => Owned (s.info t) (s.stack t)
  have hinit : inv initialState := owned_empty
  refine @reachable_invariant_with _ _ _ inv _ _ hinit ?_ h
  intro s l s' hreachable hinv hstep
  exact Owned.thread hinv (guarded_of_reachable hreachable t)
    (mayNest_of_reachable hreachable t) ((step_cases hstep).thread t)

end

end JvmHookFramework
