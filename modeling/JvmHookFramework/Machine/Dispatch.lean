/-
  Machine/Dispatch.lean --- the references that the broadcast loops are handed.

  `valueOfPointer` reads a cell of an allocated array.  The array is allocated and not
  freed for as long as a loop runs over it: the entry callback, later the record of its
  thread, is its only holder.  The reference in the cell is the one `shouldRunHook`
  copied out of the registry, and it is live unless an `unregisterHook` that matches it
  has completed since.
-/
import JvmHookFramework.Machine.Arrays
import JvmHookFramework.Machine.Nesting
import JvmHookFramework.Registry.Lifetime

set_option autoImplicit false

namespace JvmHookFramework

open Foundation Foundation.GuardStack

/-! ## The holders of the arrays -/

/-- The arrays that a thread will still use or free. -/
def heldBy (info : HookInvokingInfo) (stack : List Frame) : List ArrayId :=
  entryArrays stack ++ info.hooks.toList

def State.held (s : State) (t : Tid) : List ArrayId :=
  heldBy (s.info t) (s.stack t)

/-- An exit callback runs over the array in the record. -/
def ExitPointers (info : HookInvokingInfo) (stack : List Frame) : Prop :=
  ∀ c, .methodExit c ∈ stack → info.hooks = some c.pointer

/-- Every array has one holder, and none that is held was freed. -/
structure HeldOk (s : State) : Prop where
  exclusive : Exclusive s.held
  unfreed : ∀ t, ∀ a ∈ s.held t, ∃ m, s.arrays[a]? = some m ∧ m.frees = 0

section

variable {jvm : Jvm} {s s' : State} {t : Tid} {l : Label} {info : HookInvokingInfo}
  {stack : List Frame}

theorem notMem_methodExit {frames : List Frame} (h : Guard.exitingMethod ∉ guards frames)
    (c : ExitCall) : Frame.methodExit c ∉ frames :=
  fun hc => h (mem_guards.mpr ⟨_, hc, rfl⟩)

theorem ExitPointers.thread (h : ExitPointers (s.info t) (s.stack t))
    (hexact : Exact (s.info t).flag (s.running t)) (hnest : (s.running t).Pairwise MayNest)
    (hthread : ThreadStep jvm s t l info stack) : ExitPointers info stack := by
  have hnodup := hexact.nodup
  unfold State.running at hnodup hnest
  intro c hc
  cases hthread with
  | idle => exact h c hc
  | ended => cases hc
  | called => exact h c (by simpa using hc)
  | entryBegins => exact h c (by simpa using hc)
  | left hstack =>
      refine h c ?_
      rw [hstack]
      exact List.mem_cons_of_mem _ hc
  | @exitBegins popped value a rest d hstack hpasses =>
      rcases List.mem_cons.mp hc with heq | hc
      · obtain rfl := Frame.methodExit.inj heq
        exact hpasses.1
      · exact h c (hstack ▸ hc)
  | prepareBegins => exact h c (by simpa using hc)
  | entryLoops hstack =>
      refine h c ?_
      rw [hstack]
      simpa using hc
  | @exitLoops l d rest i hstack =>
      rcases List.mem_cons.mp hc with heq | hc
      · obtain rfl := Frame.methodExit.inj heq
        exact h d (hstack ▸ List.mem_cons_self)
      · exact h c (hstack ▸ List.mem_cons_of_mem _ hc)
  | @entryEnds threw d a a' rest hstack =>
      -- no exit callback runs below an entry callback
      rw [hstack, guards_methodEntry, guards_activation] at hnest
      have hnone : Guard.exitingMethod ∉ guards rest :=
        fun hmem => (List.pairwise_cons.mp hnest).1 _ hmem rfl rfl
      exact absurd (by simpa using hc) (notMem_methodExit hnone c)
  | exitEnds hstack =>
      rw [hstack, guards_methodExit, guards_activation] at hnodup
      exact absurd hc (notMem_methodExit (List.nodup_cons.mp hnodup).1 c)
  | prepareEnds hstack =>
      refine h c ?_
      rw [hstack]
      exact List.mem_cons_of_mem _ hc

theorem exitPointers_of_reachable (h : Reachable (step jvm) initialState s) (t : Tid) :
    ExitPointers (s.info t) (s.stack t) := by
  let inv : State → Prop := fun s => ExitPointers (s.info t) (s.stack t)
  have hinit : inv initialState := fun c hc => absurd hc List.not_mem_nil
  refine @reachable_invariant_with _ _ _ inv _ _ hinit ?_ h
  intro s l s' hreachable hinv hstep
  exact ExitPointers.thread hinv (guarded_of_reachable hreachable t)
    (mayNest_of_reachable hreachable t) ((step_cases hstep).thread t)

/-- No one holds an array that is not allocated yet. -/
theorem HeldOk.fresh (h : HeldOk s) (t : Tid) : s.arrays.length ∉ s.held t := by
  intro hmem
  obtain ⟨m, hm, _⟩ := h.unfreed t _ hmem
  exact Nat.lt_irrefl _ (List.getElem?_eq_some_iff.mp hm).1

/-- One thread changes what it holds: it keeps some of it, or takes the array that the
step allocates; nothing it holds is freed. -/
theorem HeldOk.change (h : HeldOk s) (hothers : ∀ u, u ≠ t → s'.held u = s.held u)
    (hnodup : (s'.held t).Nodup)
    (hmem : ∀ a ∈ s'.held t, a ∈ s.held t ∨ a = s.arrays.length ∧
      ∃ m, s'.arrays[a]? = some m ∧ m.frees = 0)
    (hkept : ∀ u, ∀ a ∈ s'.held u, a ∈ s.held u → s'.arrays[a]? = s.arrays[a]?) :
    HeldOk s' := by
  refine ⟨h.exclusive.change hothers hnodup fun a ha => ?_, fun u a ha => ?_⟩
  · rcases hmem a ha with hold | ⟨rfl, _⟩
    · exact Or.inl hold
    · exact Or.inr h.fresh
  · have hold : a ∈ s.held u → ∃ m, s'.arrays[a]? = some m ∧ m.frees = 0 := by
      intro hu
      rw [hkept u a ha hu]
      exact h.unfreed u a hu
    by_cases hut : u = t
    · subst hut
      rcases hmem a ha with hu | ⟨_, hnew⟩
      · exact hold hu
      · exact hnew
    · exact hold (hothers u hut ▸ ha)

/-- A thread keeps what it holds, loses some of it, or takes the array that the step
allocates. -/
theorem ThreadStep.heldBy_cases (h : ThreadStep jvm s t l info stack) (hnodup : (s.held t).Nodup) :
    ((heldBy info stack).Nodup ∧ heldBy info stack ⊆ s.held t) ∨
      ∃ method frame, l = .call t method frame ∧ s.registry.hooksOf jvm method ≠ [] ∧
        heldBy info stack = s.arrays.length :: s.held t := by
  have hsame : heldBy info stack = s.held t →
      (heldBy info stack).Nodup ∧ heldBy info stack ⊆ s.held t := by
    intro heq
    rw [heq]
    exact ⟨hnodup, fun _ ha => ha⟩
  unfold State.held at hsame hnodup ⊢
  cases h with
  | idle => exact Or.inl (hsame rfl)
  | ended => exact Or.inl ⟨List.nodup_nil, List.nil_subset _⟩
  | called => exact Or.inl (hsame rfl)
  | entryBegins hpasses hcallback harray =>
      refine Or.inr ⟨_, _, rfl, hpasses.1, ?_⟩
      rw [← harray]
      rfl
  | left hstack => exact Or.inl (hsame (by rw [hstack]; rfl))
  | exitBegins hstack => exact Or.inl (hsame (by rw [hstack]; rfl))
  | prepareBegins => exact Or.inl (hsame rfl)
  | entryLoops hstack => exact Or.inl (hsame (by rw [hstack]; rfl))
  | exitLoops hstack => exact Or.inl (hsame (by rw [hstack]; rfl))
  | @entryEnds threw c a a' rest hstack =>
      -- the array moves from the callback to the record, over what the record held
      rw [hstack] at hnodup
      have hmoved : heldBy { s.info t with
          hooks := some c.hookInstances, runningHook := false } (.activation a' :: rest) =
          entryArrays rest ++ [c.hookInstances] := rfl
      have hbefore : heldBy (s.info t) (.methodEntry c :: .activation a :: rest) =
          c.hookInstances :: (entryArrays rest ++ (s.info t).hooks.toList) := rfl
      rw [hbefore, List.nodup_cons, List.mem_append, not_or] at hnodup
      rw [hmoved, hstack, hbefore]
      refine Or.inl ⟨?_, ?_⟩
      · refine List.nodup_append.mpr ⟨hnodup.2.of_append_left, List.nodup_singleton _, ?_⟩
        intro x hx y hy hxy
        rw [List.mem_singleton.mp hy] at hxy
        exact hnodup.1.1 (hxy ▸ hx)
      · intro x hx
        rcases List.mem_append.mp hx with hx | hx
        · exact List.mem_cons_of_mem _ (List.mem_append_left _ hx)
        · rw [List.mem_singleton.mp hx]
          exact List.mem_cons_self
  | @exitEnds threw c a rest hstack =>
      have hbefore : heldBy (s.info t) (.methodExit c :: .activation a :: stack) =
          entryArrays stack ++ (s.info t).hooks.toList := rfl
      have hafter : heldBy { s.info t with hooks := none, exitingMethod := false }
          stack = entryArrays stack := List.append_nil _
      rw [hstack, hbefore] at hnodup
      rw [hstack, hbefore, hafter]
      exact Or.inl ⟨hnodup.of_append_left, List.subset_append_left _ _⟩
  | prepareEnds hstack => exact Or.inl (hsame (by rw [hstack]; rfl))

theorem held_of_stack {frames : List Frame} (hstack : (s.threads t).frames = frames) :
    s.held t = heldBy (s.info t) frames := by
  rw [State.held, State.stack, hstack]

theorem onMethodEntry.held_finish (jvm : Jvm) (s : State) (t : Tid) (c : EntryCall)
    (cb : Callback) (a : Activation) (rest : List Frame) :
    (onMethodEntry.finish jvm s t c cb a rest).held t = entryArrays rest ++ [c.hookInstances] := by
  obtain ⟨forced, hthreads⟩ := onMethodEntry.threads_finish jvm s t c cb a rest
  unfold State.held State.info State.stack
  rw [hthreads, Function.update_self]
  rfl

theorem onMethodExit.held_finish (jvm : Jvm) (s : State) (t : Tid) (c : ExitCall)
    (cb : Callback) (a : Activation) (rest : List Frame) :
    (onMethodExit.finish jvm s t c cb a rest).held t = entryArrays rest := by
  obtain ⟨forced, hthreads⟩ := onMethodExit.threads_finish jvm s t c cb a rest
  unfold State.held State.info State.stack
  rw [hthreads, Function.update_self]
  exact List.append_nil _

theorem Step.held_of_ne (h : Step jvm s l s') {u : Tid} (hne : l.thread ≠ some u) :
    s'.held u = s.held u := by
  unfold State.held State.info State.stack
  rw [h.threads_of_ne hne]

theorem Step.held_others (h : Step jvm s l s') (hself : l.thread = some t) :
    ∀ u, u ≠ t → s'.held u = s.held u := by
  intro u hut
  refine h.held_of_ne fun heq => hut ?_
  rw [hself] at heq
  exact (Option.some.inj heq).symm

/-- A step that frees nothing. -/
theorem HeldOk.step_of_kept (h : HeldOk s) (hstep : Step jvm s l s')
    (hkept : ∀ a, a < s.arrays.length → s'.arrays[a]? = s.arrays[a]?) : HeldOk s' := by
  have hheld : ∀ u, ∀ a ∈ s.held u, a < s.arrays.length := by
    intro u a ha
    obtain ⟨m, hm, _⟩ := h.unfreed u a ha
    exact (List.getElem?_eq_some_iff.mp hm).1
  have hkept' : ∀ u, ∀ a ∈ s'.held u, a ∈ s.held u → s'.arrays[a]? = s.arrays[a]? :=
    fun u a _ ha => hkept a (hheld u a ha)
  cases hthread : l.thread with
  | none =>
      have hsame : ∀ u, s'.held u = s.held u :=
        fun u => hstep.held_of_ne (by rw [hthread]; exact (Option.some_ne_none u).symm)
      refine h.change (t := 0) (fun u _ => hsame u) ?_ (fun a ha => Or.inl (hsame 0 ▸ ha)) hkept'
      rw [hsame 0]
      exact h.exclusive.nodup 0
  | some t =>
      have hothers : ∀ u, u ≠ t → s'.held u = s.held u := hstep.held_others hthread
      rcases (hstep.thread t).heldBy_cases (h.exclusive.nodup t) with ⟨hnodup, hsub⟩ |
        ⟨method, frame, rfl, hsome, htaken⟩
      · exact h.change hothers hnodup (fun a ha => Or.inl (hsub ha)) hkept'
      · have htaken' : s'.held t = s.arrays.length :: s.held t := htaken
        refine h.change hothers ?_ (fun a ha => ?_) hkept'
        · rw [htaken', List.nodup_cons]
          exact ⟨h.fresh t, h.exclusive.nodup t⟩
        · rw [htaken', List.mem_cons] at ha
          refine ha.symm.imp id fun heq => ⟨heq, ?_⟩
          rw [heq, hstep.arrays_call hsome, State.malloc]
          exact ⟨_, List.getElem?_concat_length, rfl⟩

theorem HeldOk.step (h : HeldOk s) (hstep : Step jvm s l s') : HeldOk s' := by
  cases hcases : hstep with
  | callSuppressed | callBroadcast =>
      exact h.step_of_kept hstep fun a ha => State.getElem?_malloc s _ _ ha
  | @finishExit t threw c cb a rest hframes hcb =>
      -- the array of the exit callback is freed, and no one holds it any more
      have harrays : (onMethodExit.finish jvm s t c cb a rest).arrays =
          (s.free (s.info t).hooks).arrays := rfl
      have hself := onMethodExit.held_finish jvm s t c cb a rest
      have hbefore : s.held t = entryArrays rest ++ (s.info t).hooks.toList := by
        rw [held_of_stack hframes]
        rfl
      have hothers : ∀ u, u ≠ t → (onMethodExit.finish jvm s t c cb a rest).held u = s.held u :=
        hstep.held_others rfl
      have hnodup := h.exclusive.nodup t
      rw [hbefore] at hnodup
      refine h.change hothers ?_ (fun x hx => Or.inl ?_) fun u x hx hold => ?_
      · rw [hself]
        exact hnodup.of_append_left
      · rw [hbefore]
        exact List.mem_append_left _ (hself ▸ hx)
      · rw [harrays]
        refine State.getElem?_free s _ fun hfreed => ?_
        have hx' : x ∈ (s.info t).hooks.toList := by
          rw [hfreed]
          exact List.mem_singleton_self x
        by_cases hut : u = t
        · subst hut
          rw [hself] at hx
          exact (List.nodup_append.mp hnodup).2.2 x hx x hx' rfl
        · have hx'' : x ∈ s.held t := hbefore ▸ List.mem_append_right _ hx'
          exact hut (h.exclusive.one_owner hold hx'')
  | _ => exact h.step_of_kept hstep fun _ _ => rfl

theorem heldOk_of_reachable (h : Reachable (step jvm) initialState s) : HeldOk s := by
  refine reachable_invariant ⟨exclusive_nil, ?_⟩ (fun _ _ _ hok hstep => ?_) h
  · intro t a ha
    cases ha
  · exact HeldOk.step hok (step_cases hstep)

/-! ## The references in the arrays -/

/-- The registry agrees with itself, and every reference in an array is tracked from the
moment it was collected. -/
structure CellsOk (jvm : Jvm) (s : State) : Prop where
  registry : s.registry.Ok
  stamp_le : ∀ a m, s.snapshot a = some m → m.stamp ≤ s.unregistered.length
  tracked : ∀ a m, s.snapshot a = some m → ∀ ref, some ref ∈ m.array.cells →
    s.registry.Tracks jvm m.metid ref (s.unregistered.drop m.stamp)

theorem cellsOk_initial (jvm : Jvm) : CellsOk jvm initialState where
  registry := Registry.ok_initial
  stamp_le := by
    intro a m h
    cases h
  tracked := by
    intro a m h
    cases h

/-- A step that leaves the registry alone. -/
theorem CellsOk.step_of_registry (h : CellsOk jvm s) (hstep : Step jvm s l s')
    (hregistry : s'.registry = s.registry) (hunregistered : s'.unregistered = s.unregistered) :
    CellsOk jvm s' where
  registry := hregistry ▸ h.registry
  stamp_le := by
    intro a m ha
    rw [hunregistered]
    rcases hstep.snapshot_cases ha with hold | ⟨_, method, _, _, rfl⟩
    · exact h.stamp_le a m hold
    · exact Nat.le_refl _
  tracked := by
    intro a m ha ref href
    rw [hregistry, hunregistered]
    rcases hstep.snapshot_cases ha with hold | ⟨_, method, _, _, rfl⟩
    · exact h.tracked a m hold ref href
    · rw [List.drop_length]
      exact h.registry.tracks_hooksOf href

theorem CellsOk.step (h : CellsOk jvm s) (hstep : Step jvm s l s') : CellsOk jvm s' := by
  cases hcases : hstep with
  | register method hook =>
      exact ⟨h.registry.registerHook method hook, h.stamp_le,
        fun a m ha ref href => (h.tracked a m ha ref href).registerHook h.registry⟩
  | @unregister method hook registry hcompletes =>
      refine ⟨h.registry.unregisterHook hcompletes, fun a m ha => ?_, fun a m ha ref href => ?_⟩
      · rw [List.length_append]
        exact Nat.le_add_right_of_le (h.stamp_le a m ha)
      · rw [List.drop_append_of_le_length (h.stamp_le a m ha)]
        exact (h.tracked a m ha ref href).unregisterHook h.registry hcompletes
  | _ => exact h.step_of_registry hstep rfl rfl

theorem cellsOk_of_reachable (h : Reachable (step jvm) initialState s) : CellsOk jvm s :=
  reachable_invariant (cellsOk_initial jvm)
    (fun _ _ _ hok hstep => CellsOk.step hok (step_cases hstep)) h

/-! ## Dispatch -/

/-- The arguments of the next `valueOfPointer` of the broadcast loop of a callback. -/
def Frame.valueOfPointer : Frame → Option (ArrayId × Nat)
  | .methodEntry c => c.loop.map fun i => (c.hookInstances, i)
  | .methodExit c => some (c.pointer, c.i)
  | .activation _ | .classPrepare => none

/-- If the step dispatches to a hook on `t`, the array is allocated and not freed, the
index is that of a cell `shouldRunHook` has written, and the reference in the cell, if it
is not null, is one that `registerHook` created and `unregisterHook` has not deleted. -/
def DispatchLive (jvm : Jvm) (t : Tid) (s : State) (l : Label) : Prop :=
  ∀ f rest pointer i, l = .dispatch t → (step jvm s l).isSome = true →
    s.stack t = f :: rest → f.valueOfPointer = some (pointer, i) →
      ∃ m, s.arrays[pointer]? = some m ∧ m.frees = 0 ∧
        ∃ hook, m.array.cells[i]? = some hook ∧
          ∀ ref, hook = some ref → s.registry.hookRefs.Live ref

/-- If the step dispatches to a hook on `t`, the index is below the number of hooks that
were collected, and no `unregisterHook` that matches the reference in the cell has
completed since they were. -/
def DispatchUndisturbed (jvm : Jvm) (t : Tid) (s : State) (l : Label) : Prop :=
  ∀ f rest pointer i m, l = .dispatch t → (step jvm s l).isSome = true →
    s.stack t = f :: rest → f.valueOfPointer = some (pointer, i) →
    s.snapshot pointer = some m →
      i < m.array.cells.length ∧
        ∀ ref, m.array.cells[i]? = some (some ref) →
          ∀ op ∈ s.unregistered.drop m.stamp,
            ¬ Matches jvm s.registry.hookRefs m.metid ref op

theorem mem_held_of_valueOfPointer {f : Frame} {rest : List Frame} {pointer : ArrayId} {i : Nat}
    (hpointers : ExitPointers (s.info t) (s.stack t)) (hstack : s.stack t = f :: rest)
    (hf : f.valueOfPointer = some (pointer, i)) : pointer ∈ s.held t := by
  unfold State.held heldBy
  cases f with
  | activation a => cases hf
  | classPrepare => cases hf
  | methodEntry c =>
      obtain ⟨i', _, heq⟩ := Option.map_eq_some_iff.mp hf
      obtain ⟨rfl, _⟩ := Prod.mk.inj heq
      rw [hstack]
      exact List.mem_append_left _ List.mem_cons_self
  | methodExit c =>
      obtain ⟨rfl, _⟩ := Prod.mk.inj (Option.some.inj hf)
      have hhooks := hpointers c (hstack ▸ List.mem_cons_self)
      rw [hhooks]
      exact List.mem_append_right _ (List.mem_singleton_self _)

theorem dispatchLive_iff (hreachable : Reachable (step jvm) initialState s) :
    DispatchLive jvm t s l ↔ DispatchUndisturbed jvm t s l := by
  have hcells := cellsOk_of_reachable hreachable
  have htracked : ∀ {pointer : ArrayId} {m : Snapshot} {i ref : Nat},
      s.snapshot pointer = some m → m.array.cells[i]? = some (some ref) →
      (s.registry.hookRefs.Live ref ↔ ∀ op ∈ s.unregistered.drop m.stamp,
        ¬ Matches jvm s.registry.hookRefs m.metid ref op) :=
    fun hm href => (hcells.tracked _ _ hm _ (List.mem_of_getElem? href)).live_iff
  constructor
  · intro hlive f rest pointer i m hl hsome hstack hf hm
    obtain ⟨block, hblock, _, hook, hhook, href⟩ := hlive f rest pointer i hl hsome hstack hf
    have hsnapshot : block.snapshot = m := by
      unfold State.snapshot at hm
      rw [hblock] at hm
      exact Option.some.inj hm
    subst hsnapshot
    refine ⟨(List.getElem?_eq_some_iff.mp hhook).1, fun ref hcell => ?_⟩
    exact (htracked hm hcell).mp (href ref (Option.some.inj (hhook.symm.trans hcell)))
  · intro hquiet f rest pointer i hl hsome hstack hf
    have hheld := mem_held_of_valueOfPointer (exitPointers_of_reachable hreachable t) hstack hf
    obtain ⟨block, hblock, hfrees⟩ := (heldOk_of_reachable hreachable).unfreed t pointer hheld
    have hm : s.snapshot pointer = some block.snapshot := by
      unfold State.snapshot
      rw [hblock]
      rfl
    obtain ⟨hlt, hmatch⟩ := hquiet f rest pointer i _ hl hsome hstack hf hm
    have hcell := List.getElem?_eq_getElem hlt
    refine ⟨block, hblock, hfrees, _, hcell, fun ref href => ?_⟩
    rw [href] at hcell
    exact (htracked hm hcell).mpr (hmatch ref hcell)

end

/-- In a run every reference that a broadcast loop of `t` is handed is live if and only
if, at each of these moments, the index is below the number of hooks in the array and no
`unregisterHook` that matches the reference has completed since it was collected. -/
theorem dispatches_live_iff (jvm : Jvm) (t : Tid) (ls : List Label) :
    (∀ s l, Takes (step jvm) initialState ls s l → DispatchLive jvm t s l) ↔
    ∀ s l, Takes (step jvm) initialState ls s l → DispatchUndisturbed jvm t s l :=
  forall_takes_congr fun _ _ hreachable => dispatchLive_iff hreachable

/-- The first hook of a method unregisters the second one, which is dispatched to next. -/
def unregisterInHookRun : List Label :=
  [.register ⟨1⟩ (some ⟨5⟩), .register ⟨1⟩ (some ⟨6⟩), .call 0 ⟨1⟩ fun _ => none,
    .broadcast 0, .dispatch 0, .unregister ⟨1⟩ (some ⟨6⟩), .dispatch 0]

theorem deleted_dispatched_in_unregisterInHookRun :
    ¬ ∀ ls s l, Takes (step .plain) initialState ls s l → DispatchLive .plain 0 s l := by
  intro hlive
  let s := (run (step .plain) initialState (unregisterInHookRun.take 6)).get rfl
  have htakes : Takes (step .plain) initialState unregisterInHookRun s (.dispatch 0) :=
    ⟨unregisterInHookRun.take 6, [], rfl, rfl⟩
  obtain ⟨m, hm, _, hook, hhook, href⟩ := hlive _ s _ htakes _ _ 0 1 rfl rfl rfl rfl
  obtain rfl := Option.some.inj hm
  obtain rfl := Option.some.inj hhook
  exact absurd (href 1 rfl) (by decide)

end JvmHookFramework
