/-
  Machine/ExitSnapshot.lean --- which array and which count an exit broadcast is given.

  `onMethodEntry` writes `targetMethod` and `hookCounts` before it runs hooks and `hooks`
  only after them.  Outside hook code the three therefore belong to one call of
  `shouldRunHook`; while an entry callback runs, `hooks` is still what an earlier one
  left.  An exit event that passes the guards then broadcasts the old array with the new
  count.
-/
import JvmHookFramework.Machine.Arrays
import JvmHookFramework.Machine.Nesting

set_option autoImplicit false

namespace JvmHookFramework

open Foundation Foundation.GuardStack

/-! ## The record and the arrays -/

/-- The method and the count in the record are those of the array `array`. -/
def HookInvokingInfo.Records (info : HookInvokingInfo) (s : State) (array : ArrayId) : Prop :=
  info.countsFrom = some array ∧ ∃ m, s.snapshot array = some m ∧
    info.targetMethod = some m.metid ∧ info.hookCounts = m.array.cells.length

/-- What the record of a thread says, with no entry callback running and with one. -/
structure RecordOk (s : State) (info : HookInvokingInfo) (stack : List Frame) : Prop where
  outside : info.runningHook = false → ∀ array, info.hooks = some array → info.Records s array
  inside : ∀ array ∈ entryArrays stack, info.Records s array ∧ info.hooks ≠ some array
  allocated : ∀ array, info.hooks = some array → ∃ m, s.snapshot array = some m

theorem recordOk_empty (s : State) : RecordOk s {} [] where
  outside := by
    intro _ array h
    cases h
  inside := by
    intro array h
    cases h
  allocated := by
    intro array h
    cases h

section

variable {jvm : Jvm} {s s' : State} {t : Tid} {l : Label} {info : HookInvokingInfo}
  {stack stack' : List Frame}

theorem HookInvokingInfo.Records.step {array : ArrayId} (h : info.Records s array)
    (hstep : Step jvm s l s') : info.Records s' array := by
  obtain ⟨hfrom, m, hm, htarget, hcount⟩ := h
  exact ⟨hfrom, m, hstep.snapshot hm, htarget, hcount⟩

/-- A step that neither writes these fields nor starts or ends an entry callback. -/
theorem RecordOk.step (h : RecordOk s info stack) (hstep : Step jvm s l s')
    (hsame : entryArrays stack' = entryArrays stack) : RecordOk s' info stack' where
  outside := fun hquiet array harray => (h.outside hquiet array harray).step hstep
  inside := by
    intro array harray
    rw [hsame] at harray
    exact ⟨(h.inside array harray).1.step hstep, (h.inside array harray).2⟩
  allocated := by
    intro array harray
    obtain ⟨m, hm⟩ := h.allocated array harray
    exact ⟨m, hstep.snapshot hm⟩

/-- The flags of the other two kinds of callback do not matter. -/
theorem RecordOk.withFlags (h : RecordOk s info stack) (exitingMethod load : Bool) :
    RecordOk s { info with exitingMethod := exitingMethod, broadcastingMethodPrepareLoad := load }
      stack :=
  ⟨h.outside, h.inside, h.allocated⟩

/-- The entry callback of the call has the record for itself. -/
theorem RecordOk.entryBegins {method : JmethodID} {frame : Locals}
    (h : RecordOk s info stack)
    (hstep : Step jvm s (.call t method frame) s')
    (hsome : s.registry.hooksOf jvm method ≠ [])
    (hnew : entryArrays stack' = [s.arrays.length]) :
    RecordOk s' (info.entry jvm s.callbacks.length method
      (s.registry.hooksOf jvm method).length s.arrays.length) stack' where
  outside := fun hquiet => absurd hquiet Bool.true_eq_false.mp
  inside := by
    intro array harray
    rw [hnew, List.mem_singleton] at harray
    subst harray
    refine ⟨⟨rfl, _, hstep.snapshot_call hsome, rfl, rfl⟩, fun hold => ?_⟩
    obtain ⟨m, hm⟩ := h.allocated _ hold
    exact Nat.lt_irrefl _ (State.lt_of_snapshot hm)
  allocated := (h.step hstep rfl).allocated

/-- When the entry callback ends, the array in the record is its own. -/
theorem RecordOk.entryEnds {array : ArrayId} (h : RecordOk s info stack)
    (hstep : Step jvm s l s') (harray : array ∈ entryArrays stack)
    (hnone : entryArrays stack' = []) :
    RecordOk s' { info with hooks := some array, runningHook := false } stack' where
  outside := by
    intro _ array' hsame
    obtain rfl := Option.some.inj hsame
    exact (h.inside _ harray).1.step hstep
  inside := by
    intro array' hmem
    rw [hnone] at hmem
    exact absurd hmem List.not_mem_nil
  allocated := by
    intro array' hsame
    obtain rfl := Option.some.inj hsame
    obtain ⟨_, m, hm, _⟩ := (h.inside _ harray).1
    exact ⟨m, hstep.snapshot hm⟩

theorem RecordOk.exitEnds (h : RecordOk s info stack) (hstep : Step jvm s l s')
    (hsame : entryArrays stack' = entryArrays stack) :
    RecordOk s' { info with hooks := none, exitingMethod := false } stack' where
  outside := by
    intro _ array hnone
    cases hnone
  inside := by
    intro array harray
    refine ⟨((h.step hstep hsame).inside array harray).1, fun hnone => ?_⟩
    cases hnone
  allocated := by
    intro array hnone
    cases hnone

theorem RecordOk.thread (h : RecordOk s (s.info t) (s.stack t))
    (hexact : Exact (s.info t).flag (s.running t)) (hstep : Step jvm s l s')
    (hthread : ThreadStep jvm s t l info stack) : RecordOk s' info stack := by
  cases hthread with
  | idle => exact h.step hstep rfl
  | ended => exact recordOk_empty s'
  | called => exact h.step hstep rfl
  | entryBegins hpasses hcallback harray =>
      have hnone : entryArrays (s.stack t) = [] := entryArrays_eq_nil hexact hpasses.flags.1
      refine h.entryBegins hstep hpasses.1 ?_
      rw [entryArrays_methodEntry, entryArrays_activation, hnone, harray]
  | left hstack =>
      rw [hstack] at h
      exact h.step hstep rfl
  | exitBegins hstack =>
      rw [hstack] at h
      refine RecordOk.withFlags (h.step hstep ?_) true _
      rfl
  | prepareBegins =>
      refine RecordOk.withFlags (h.step hstep ?_) _ true
      rfl
  | entryLoops hstack =>
      rw [hstack] at h
      exact h.step hstep rfl
  | exitLoops hstack =>
      rw [hstack] at h
      exact h.step hstep rfl
  | @entryEnds threw c a a' rest hstack =>
      have hnone : entryArrays (.activation a :: rest) = [] := entryArrays_below hexact hstack
      refine h.entryEnds hstep ?_ hnone
      rw [hstack]
      exact List.mem_cons_self
  | exitEnds hstack =>
      rw [hstack] at h
      exact h.exitEnds hstep rfl
  | prepareEnds hstack =>
      rw [hstack] at h
      refine RecordOk.withFlags (h.step hstep ?_) _ false
      rfl

theorem recordOk_of_reachable (h : Reachable (step jvm) initialState s) (t : Tid) :
    RecordOk s (s.info t) (s.stack t) := by
  let inv : State → Prop := fun s => RecordOk s (s.info t) (s.stack t)
  refine @reachable_invariant_with _ _ _ inv _ _ (recordOk_empty _) ?_ h
  intro s l s' hreachable hok hstep
  have hcases := step_cases hstep
  exact RecordOk.thread hok (guarded_of_reachable hreachable t) hcases (hcases.thread t)

/-! ## The exit broadcast -/

/-- The exit broadcast that the step starts on `t`, if it starts one, is given an array
and a count that come from one call of `shouldRunHook`, made for the exiting method; so
every index below the count is below the number of hooks in the array. -/
def ExitBroadcastConsistent (jvm : Jvm) (t : Tid) (s : State) (l : Label) : Prop :=
  ∀ s' a rest c, step jvm s l = some s' → s.stack t = .activation a :: rest →
    s'.stack t = .methodExit c :: s.stack t →
      (s.info t).countsFrom = some c.pointer ∧
      ∃ m, s.snapshot c.pointer = some m ∧ jvm.deref m.metid = jvm.deref a.method ∧
        ∀ i, i < c.size → i < m.array.cells.length

theorem exitBroadcastConsistent_iff (hreachable : Reachable (step jvm) initialState s) :
    ExitBroadcastConsistent jvm t s l ↔
      (ExitEventPasses jvm t s l → (s.info t).runningHook = false) := by
  have hok := recordOk_of_reachable hreachable t
  constructor
  · rintro hconsistent ⟨popped, value, a, rest, hooks, rfl, hstack, hpasses⟩
    by_contra hrunning
    have hmem := ((guarded_of_reachable hreachable t).set_iff .runningHook).mp
      (Bool.eq_true_of_not_eq_false hrunning)
    obtain ⟨f, hf, hguard⟩ := mem_guards.mp hmem
    cases f with
    | activation a => cases hguard
    | methodExit c => cases hguard
    | classPrepare => cases hguard
    | methodEntry c =>
        -- the count is that of the entry callback, the array is not
        have hc : c.hookInstances ∈ entryArrays (s.stack t) :=
          List.mem_filterMap.mpr ⟨_, hf, rfl⟩
        obtain ⟨⟨hfrom, _⟩, hother⟩ := hok.inside _ hc
        have hstep := hpasses.step_leave hstack popped value
        obtain ⟨d, hd, hpointer, _⟩ := onMethodExit.stack_begin jvm s t a rest hooks popped value
        have hsame := (hconsistent _ a rest d hstep hstack (hd.trans (by rw [hstack]))).1
        rw [hfrom, hpointer] at hsame
        exact hother (hpasses.1.trans hsame.symm)
  · intro hquiet s' a rest c hstep hstack hstack'
    obtain ⟨popped, value, a', rest', rfl, hstack₂, hpasses, hsize⟩ :=
      ((step_cases hstep).thread t).exit_begins hstack'
    have ha : a' = a := by
      have heq := (List.cons.inj (hstack₂.symm.trans hstack)).1
      exact Frame.activation.inj heq
    subst ha
    have hrunning := hquiet ⟨popped, value, a', rest', _, rfl, hstack₂, hpasses⟩
    obtain ⟨hhooks, _, target, htarget, hkey⟩ := hpasses
    obtain ⟨hfrom, m, hm, hmetid, hcount⟩ := hok.outside hrunning _ hhooks
    refine ⟨hfrom, m, hm, ?_, ?_⟩
    · obtain rfl := Option.some.inj (hmetid.symm.trans htarget)
      exact hkey
    · rw [hsize, hcount]
      exact fun i hi => hi

end

/-- In a run every exit broadcast of `t` uses one consistent snapshot if and only if no
exit event passes the guards of `onMethodExit` while `runningHook` is set. -/
theorem exit_broadcasts_consistent_iff (jvm : Jvm) (t : Tid) (ls : List Label) :
    (∀ s l, Takes (step jvm) initialState ls s l → ExitBroadcastConsistent jvm t s l) ↔
    ∀ s l, Takes (step jvm) initialState ls s l →
      ExitEventPasses jvm t s l → (s.info t).runningHook = false :=
  forall_takes_congr fun _ _ hreachable => exitBroadcastConsistent_iff hreachable

/-- A method with one hook calls a method with two; a hook of the second calls it again,
and its exit is broadcast with the array of the first method and the count of the second. -/
def threeActivationsRun : List Label :=
  [.register ⟨1⟩ (some ⟨5⟩), .register ⟨2⟩ (some ⟨6⟩), .register ⟨2⟩ (some ⟨7⟩),
    .call 0 ⟨1⟩ fun _ => none, .broadcast 0, .dispatch 0, .finish 0 false,
    .call 0 ⟨2⟩ fun _ => none, .broadcast 0, .dispatch 0,
    .call 0 ⟨2⟩ fun _ => none, .leave 0 false none]

theorem exit_broadcast_inconsistent_in_threeActivationsRun :
    ¬ ∀ ls s l, Takes (step .plain) initialState ls s l →
      ExitBroadcastConsistent .plain 0 s l := by
  intro hconsistent
  let s := (run (step .plain) initialState (threeActivationsRun.take 11)).get rfl
  let s' := (step .plain s (.leave 0 false none)).get rfl
  have htakes : Takes (step .plain) initialState threeActivationsRun s (.leave 0 false none) :=
    ⟨threeActivationsRun.take 11, [], rfl, rfl⟩
  obtain ⟨_, m, hm, _, hbound⟩ := hconsistent _ s _ htakes s' _ _ _ rfl rfl rfl
  obtain rfl := Option.some.inj hm
  exact absurd (hbound 1 (by decide)) (by decide)

end JvmHookFramework
