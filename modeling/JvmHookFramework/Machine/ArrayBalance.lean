/-
  Machine/ArrayBalance.lean --- which hook arrays are lost.

  An array that was allocated and not freed is lost when no one holds it any more: neither
  an entry callback nor a record.  A lost array stays lost.  A step loses one in three ways
  only: `onMethodEntry` returns behind `shouldRunHook`, an entry callback writes its array
  over another one, or a thread ends while its record has one.  At a point where no callback
  runs, the unfreed arrays are those in the records exactly when none was lost before.
-/
import JvmHookFramework.Machine.Dispatch
import JvmHookFramework.Machine.Owner

set_option autoImplicit false

namespace JvmHookFramework

open Foundation Foundation.GuardStack

/-! ## Balance -/

/-- No callback is in progress. -/
def State.Quiet (s : State) : Prop := ∀ t, s.running t = []

/-- The array was allocated and not freed. -/
def State.Unfreed (s : State) (a : ArrayId) : Prop := ∃ m, s.arrays[a]? = some m ∧ m.frees = 0

/-- The unfreed arrays are those in the records of live threads, and a thread has one only
for a hooked activation in progress. -/
structure State.ArraysBalanced (s : State) : Prop where
  stored : ∀ a, s.Unfreed a ↔ ∃ t, (s.threads t).ended = false ∧ (s.info t).hooks = some a
  hooked : ∀ t, (s.info t).hooks ≠ none →
    ∃ a, .activation a ∈ s.stack t ∧ a.broadcast = (s.info t).hooks

/-- If the step reads an array in a broadcast loop of `t`, the array has not been freed. -/
def ReadsUnfreed (jvm : Jvm) (t : Tid) (s : State) (l : Label) : Prop :=
  ∀ f rest pointer i, l = .dispatch t → (step jvm s l).isSome = true →
    s.stack t = f :: rest → f.valueOfPointer = some (pointer, i) → s.Unfreed pointer

/-- The step loses the array. -/
inductive Loses (jvm : Jvm) (s : State) : Label → ArrayId → Prop where
  /-- `onMethodEntry` returns without its block, and without `free`. -/
  | suppressed {t : Tid} {method : JmethodID} {frame : Locals}
      (hsome : s.registry.hooksOf jvm method ≠ [])
      (hguard : EntrySuppressed jvm (s.info t) method) :
      Loses jvm s (.call t method frame) s.arrays.length
  /-- An entry callback ends while the record has an array. -/
  | overwritten {t : Tid} {threw : Bool} {c : EntryCall} {rest : List Frame} {a : ArrayId}
      (hstack : s.stack t = .methodEntry c :: rest) (hhooks : (s.info t).hooks = some a) :
      Loses jvm s (.finish t threw) a
  /-- A thread ends while its record has an array. -/
  | ended {t : Tid} {a : ArrayId} (hhooks : (s.info t).hooks = some a) :
      Loses jvm s (.threadEnd t) a

/-- The array is unfreed, and no one will use or free it. -/
def State.Lost (s : State) (a : ArrayId) : Prop := s.Unfreed a ∧ ∀ t, a ∉ s.held t

section

variable {jvm : Jvm} {s s' : State} {t : Tid} {l : Label} {a : ArrayId}

/-! ## What a step loses -/

theorem HeldOk.unfreed_of_held (h : HeldOk s) (ha : a ∈ s.held t) : s.Unfreed a :=
  h.unfreed t a ha

/-- A step on `t` that frees nothing loses what `t` drops. -/
theorem HeldOk.lost_of_dropped (h : HeldOk s) {dropped : Option ArrayId}
    (harrays : s'.arrays = s.arrays) (hothers : ∀ u, u ≠ t → s'.held u = s.held u)
    (hheld : ∀ a, a ∈ s.held t ↔ a ∈ s'.held t ∨ dropped = some a)
    (hgone : ∀ a, dropped = some a → a ∉ s'.held t) (a : ArrayId) :
    s'.Lost a ↔ s.Lost a ∨ dropped = some a := by
  have hunfreed : s'.Unfreed a ↔ s.Unfreed a := by
    unfold State.Unfreed
    rw [harrays]
  unfold State.Lost
  rw [hunfreed]
  constructor
  · rintro ⟨hfrees, hnone⟩
    by_cases hdropped : dropped = some a
    · exact Or.inr hdropped
    · refine Or.inl ⟨hfrees, fun u hu => hnone u ?_⟩
      exact mem_of_others hothers (fun ht => ((hheld a).mp ht).resolve_right hdropped) hu
  · rintro (⟨hfrees, hnone⟩ | hdropped)
    · refine ⟨hfrees, fun u hu => hnone u ?_⟩
      exact mem_of_others' hothers (fun ht => (hheld a).mpr (Or.inl ht)) hu
    · have hold : a ∈ s.held t := (hheld a).mpr (Or.inr hdropped)
      refine ⟨h.unfreed_of_held hold, fun u hu => ?_⟩
      by_cases hut : u = t
      · subst hut
        exact hgone a hdropped hu
      · rw [hothers u hut] at hu
        exact hut (h.exclusive.one_owner hu hold)

theorem lost_of_same (harrays : s'.arrays = s.arrays) (hheld : ∀ u, s'.held u = s.held u)
    (a : ArrayId) : s'.Lost a ↔ s.Lost a := by
  unfold State.Lost State.Unfreed
  rw [harrays, forall_congr' fun u => by rw [hheld u]]

theorem State.Unfreed.lt (h : s.Unfreed a) : a < s.arrays.length := by
  obtain ⟨m, hm, _⟩ := h
  exact (List.getElem?_eq_some_iff.mp hm).1

theorem unfreed_of_malloc {array : HookArray} {metid : JmethodID}
    (harrays : s'.arrays = (s.malloc array metid).arrays) (a : ArrayId) :
    s'.Unfreed a ↔ s.Unfreed a ∨ a = s.arrays.length := by
  have hlast : s'.arrays[s.arrays.length]? =
      some { array := array, metid := metid, stamp := s.unregistered.length } := by
    rw [harrays, State.malloc, List.getElem?_concat_length]
  have hbefore : a < s.arrays.length → (s'.Unfreed a ↔ s.Unfreed a) := by
    intro hlt
    unfold State.Unfreed
    rw [harrays, State.getElem?_malloc s _ _ hlt]
  constructor
  · intro hunfreed
    have hlt := hunfreed.lt
    rw [harrays, State.malloc, List.length_append] at hlt
    rcases Nat.lt_or_eq_of_le (Nat.le_of_lt_succ hlt) with hold | hnew
    · exact Or.inl ((hbefore hold).mp hunfreed)
    · exact Or.inr hnew
  · rintro (hunfreed | rfl)
    · exact (hbefore hunfreed.lt).mpr hunfreed
    · exact ⟨_, hlast, rfl⟩

/-- A step on `t` that allocates an array loses it, and nothing else, unless `t` takes it. -/
theorem HeldOk.lost_of_malloc (h : HeldOk s) {array : HookArray} {metid : JmethodID}
    (harrays : s'.arrays = (s.malloc array metid).arrays)
    (hothers : ∀ u, u ≠ t → s'.held u = s.held u)
    (hheld : s'.held t = s.held t ∨ s'.held t = s.arrays.length :: s.held t) (a : ArrayId) :
    s'.Lost a ↔ s.Lost a ∨ (a = s.arrays.length ∧ s'.held t = s.held t) := by
  have hkept : ∀ u, a ∈ s.held u → a ∈ s'.held u := by
    intro u hu
    refine mem_of_others hothers (fun ht => ?_) hu
    rcases hheld with hsame | htaken
    · exact hsame ▸ ht
    · exact htaken ▸ List.mem_cons_of_mem _ ht
  have hback : ∀ u, a ∈ s'.held u → a ∈ s.held u ∨ a = s.arrays.length ∧ s'.held t ≠ s.held t := by
    intro u hu
    by_cases hut : u = t
    · subst hut
      rcases hheld with hsame | htaken
      · exact Or.inl (hsame ▸ hu)
      · have hne : s'.held u ≠ s.held u := by
          rw [htaken]
          exact List.cons_ne_self _ _
        rw [htaken, List.mem_cons] at hu
        exact hu.symm.imp id fun heq => ⟨heq, hne⟩
    · exact Or.inl (hothers u hut ▸ hu)
  unfold State.Lost
  rw [unfreed_of_malloc harrays]
  constructor
  · rintro ⟨hunfreed | hnew, hnone⟩
    · exact Or.inl ⟨hunfreed, fun u hu => hnone u (hkept u hu)⟩
    · refine Or.inr ⟨hnew, hheld.resolve_right fun htaken => hnone t ?_⟩
      rw [htaken, hnew]
      exact List.mem_cons_self
  · rintro (⟨hunfreed, hnone⟩ | ⟨hnew, hsame⟩)
    · refine ⟨Or.inl hunfreed, fun u hu => ?_⟩
      rcases hback u hu with hold | ⟨heq, _⟩
      · exact hnone u hold
      · exact Nat.ne_of_lt hunfreed.lt heq
    · refine ⟨Or.inr hnew, fun u hu => ?_⟩
      rcases hback u hu with hold | ⟨_, hne⟩
      · exact h.fresh u (hnew ▸ hold)
      · exact hne hsame

theorem State.held_setThread_self (s : State) (t : Tid) (th : Thread) :
    (s.setThread t th).held t = heldBy th.getHookInvokingInfo th.frames := by
  rw [State.held, State.info_setThread_self, State.stack_setThread_self]

theorem HeldOk.lost_finishEntry {c : EntryCall} {cb : Callback} {b : Activation}
    {rest : List Frame} (h : HeldOk s)
    (hframes : (s.threads t).frames = .methodEntry c :: .activation b :: rest)
    (hothers : ∀ u, u ≠ t → (onMethodEntry.finish jvm s t c cb b rest).held u = s.held u)
    (a : ArrayId) :
    (onMethodEntry.finish jvm s t c cb b rest).Lost a ↔ s.Lost a ∨ (s.info t).hooks = some a := by
  have harrays : (onMethodEntry.finish jvm s t c cb b rest).arrays = s.arrays := rfl
  have hafter := onMethodEntry.held_finish jvm s t c cb b rest
  have hbefore : s.held t = c.hookInstances :: (entryArrays rest ++ (s.info t).hooks.toList) := by
    rw [held_of_stack hframes]
    rfl
  have hnodup := h.exclusive.nodup t
  rw [hbefore, List.nodup_cons] at hnodup
  refine h.lost_of_dropped harrays hothers (fun x => ?_) (fun x hx hmem => ?_) a
  · rw [hbefore, hafter]
    simp only [List.mem_cons, List.mem_append, Option.mem_toList, List.not_mem_nil, or_false]
    tauto
  · have hx' : x ∈ (s.info t).hooks.toList := Option.mem_toList.mpr hx
    rw [hafter, List.mem_append, List.mem_singleton] at hmem
    rcases hmem with hrest | rfl
    · exact (List.nodup_append.mp hnodup.2).2.2 x hrest x hx' rfl
    · exact hnodup.1 (List.mem_append_right _ hx')

theorem State.unfreed_free (s : State) (p : Option ArrayId) (a : ArrayId) :
    (s.free p).Unfreed a ↔ s.Unfreed a ∧ p ≠ some a := by
  unfold State.Unfreed
  by_cases hp : p = some a
  · subst hp
    simp [State.free]
  · rw [s.getElem?_free p hp, and_iff_left hp]

/-- The exit callback frees what the record has. -/
theorem lost_finishExit {c : ExitCall} {cb : Callback} {b : Activation}
    {rest : List Frame}
    (hframes : (s.threads t).frames = .methodExit c :: .activation b :: rest)
    (hothers : ∀ u, u ≠ t → (onMethodExit.finish jvm s t c cb b rest).held u = s.held u)
    (a : ArrayId) : (onMethodExit.finish jvm s t c cb b rest).Lost a ↔ s.Lost a := by
  have hunfreed : (onMethodExit.finish jvm s t c cb b rest).Unfreed a ↔
      s.Unfreed a ∧ (s.info t).hooks ≠ some a := s.unfreed_free (s.info t).hooks a
  have hafter := onMethodExit.held_finish jvm s t c cb b rest
  have hbefore : s.held t = entryArrays rest ++ (s.info t).hooks.toList := by
    rw [held_of_stack hframes]
    rfl
  unfold State.Lost
  rw [hunfreed]
  constructor
  · rintro ⟨⟨hfrees, hne⟩, hnone⟩
    refine ⟨hfrees, fun u hu => hnone u (mem_of_others hothers (fun ht => ?_) hu)⟩
    rw [hbefore, List.mem_append, Option.mem_toList] at ht
    rw [hafter]
    exact ht.resolve_right hne
  · rintro ⟨hfrees, hnone⟩
    refine ⟨⟨hfrees, fun hhooks => hnone t ?_⟩,
      fun u hu => hnone u (mem_of_others' hothers (fun ht => ?_) hu)⟩
    · rw [hbefore]
      exact List.mem_append_right _ (Option.mem_toList.mpr hhooks)
    · rw [hafter] at ht
      rw [hbefore]
      exact List.mem_append_left _ ht

theorem HeldOk.lost_threadEnd (h : HeldOk s) (hframes : (s.threads t).frames = [])
    (hothers : ∀ u, u ≠ t →
      (s.setThread t { s.threads t with info := none, ended := true }).held u = s.held u)
    (a : ArrayId) :
    (s.setThread t { s.threads t with info := none, ended := true }).Lost a ↔
      s.Lost a ∨ (s.info t).hooks = some a := by
  have hbefore : s.held t = (s.info t).hooks.toList := by
    rw [held_of_stack hframes]
    rfl
  have hafter : (s.setThread t { s.threads t with info := none, ended := true }).held t = [] := by
    rw [State.held_setThread_self, hframes]
    rfl
  refine h.lost_of_dropped (s.setThread_arrays t _) hothers (fun x => ?_) (fun x _ => ?_) a
  · rw [hbefore, hafter, Option.mem_toList, or_iff_right List.not_mem_nil]
  · rw [hafter]
    exact List.not_mem_nil

/-- An entry callback takes the array that was allocated for it. -/
theorem onMethodEntry.held_begin (jvm : Jvm) (s : State) (t : Tid) (method : JmethodID)
    (frame : Locals) (array : HookArray) (hookCount : Nat) (parameters : List CallParameter) :
    (onMethodEntry.begin jvm (s.malloc array method) t
      ((s.threads t).push (.activation (entered method frame))) method frame hookCount
      s.arrays.length parameters).held t = s.arrays.length :: s.held t := by
  unfold onMethodEntry.begin
  rw [State.held_setThread_self]
  rfl

theorem held_suppressed (s : State) (t : Tid) (method : JmethodID) (frame : Locals)
    (array : HookArray) :
    ((s.malloc array method).setThread t
      (((s.threads t).push (.activation (entered method frame))).setInfo (s.info t))).held t =
        s.held t := by
  rw [State.held_setThread_self]
  rfl

/-- What a step loses: the array of a suppressed entry, or what the record of its thread has
when an entry callback or the thread ends. -/
theorem HeldOk.lost_iff (h : HeldOk s) (hstep : Step jvm s l s') (a : ArrayId) :
    s'.Lost a ↔ s.Lost a ∨ Loses jvm s l a := by
  have hkeeps : ∀ {t : Tid}, l.thread = some t → s'.arrays = s.arrays → s'.held t = s.held t →
      ¬ Loses jvm s l a → (s'.Lost a ↔ s.Lost a ∨ Loses jvm s l a) := by
    intro t hself harrays hheld hnot
    have hsame := eq_of_others (hstep.held_others hself) hheld
    rw [lost_of_same harrays hsame, or_iff_left hnot]
  have hallocates : ∀ {t : Tid} {method : JmethodID}, l.thread = some t →
      s'.arrays = (s.malloc (s.collected jvm method) method).arrays →
      (s'.held t = s.held t ∨ s'.held t = s.arrays.length :: s.held t) →
      ((a = s.arrays.length ∧ s'.held t = s.held t) ↔ Loses jvm s l a) →
      (s'.Lost a ↔ s.Lost a ∨ Loses jvm s l a) := by
    intro t method hself harrays hheld hloses
    rw [h.lost_of_malloc harrays (hstep.held_others hself) hheld, hloses]
  cases hcases : hstep with
  | register | unregister | nativeInert | nativeLive =>
      have hnot : ∀ l, l.thread = none → ¬ Loses jvm s l a := by
        rintro l hl (_ | _ | _) <;> cases hl
      exact (or_iff_left (hnot _ rfl)).symm
  | callUnhooked halive hnone =>
      apply hkeeps rfl rfl
      · rw [State.held_setThread_self]
        rfl
      · rintro (⟨hsome, _⟩)
        exact hsome hnone
  | @callSuppressed t method frame halive hsome hguard =>
      have hsame := held_suppressed s t method frame (s.collected jvm method)
      refine hallocates rfl rfl (Or.inl hsame) ⟨?_, fun hloses => ?_⟩
      · rintro ⟨rfl, _⟩
        exact .suppressed hsome hguard
      · cases hloses with
        | suppressed hsome hguard => exact ⟨rfl, hsame⟩
  | @callBroadcast t method frame parameters halive hpasses hread =>
      have htaken := onMethodEntry.held_begin jvm s t method frame (s.collected jvm method)
        (s.registry.hooksOf jvm method).length parameters
      refine hallocates rfl rfl (Or.inr htaken) ⟨?_, fun hloses => ?_⟩
      · rintro ⟨_, hsame⟩
        exact absurd (htaken.symm.trans hsame) (List.cons_ne_self _ _)
      · cases hloses with
        | suppressed hsome hguard => exact absurd hguard hpasses.2
  | leaveSkipped hframes hguard =>
      refine hkeeps rfl rfl ?_ nofun
      rw [State.held_setThread_self, held_of_stack hframes]
      rfl
  | leaveBroadcast hframes hpasses =>
      refine hkeeps rfl rfl ?_ nofun
      unfold onMethodExit.begin
      rw [State.held_setThread_self, held_of_stack hframes]
      rfl
  | prepareSkipped halive hguard =>
      refine hkeeps rfl rfl ?_ nofun
      rw [State.held_setThread_self]
      rfl
  | prepareBroadcast halive hpasses =>
      refine hkeeps rfl rfl ?_ nofun
      rw [State.held_setThread_self]
      rfl
  | broadcast hframes hloop =>
      refine hkeeps rfl rfl ?_ nofun
      rw [State.held_setThread_self, held_of_stack hframes]
      rfl
  | dispatchEntry hframes hloop hlt =>
      refine hkeeps rfl rfl ?_ nofun
      rw [State.held_setThread_self, held_of_stack hframes]
      rfl
  | dispatchExit hframes hlt =>
      refine hkeeps rfl rfl ?_ nofun
      rw [State.held_setThread_self, held_of_stack hframes]
      rfl
  | finishEntry hframes hloop hcb =>
      rw [h.lost_finishEntry hframes (hstep.held_others rfl)]
      refine or_congr_right ⟨.overwritten hframes, fun hloses => ?_⟩
      cases hloses with
      | overwritten hstack hhooks => exact hhooks
  | @finishExit t threw c cb b rest hframes hcb =>
      have hnot : ¬ Loses jvm s (.finish t threw) a := by
        rintro (_ | ⟨hstack, _⟩)
        have hclash := hframes.symm.trans hstack
        cases hclash
      rw [lost_finishExit hframes (hstep.held_others rfl), or_iff_left hnot]
  | finishPrepare hframes =>
      apply hkeeps rfl rfl
      · unfold onClassPrepare.finish
        rw [State.held_setThread_self, held_of_stack hframes]
        rfl
      · rintro (_ | ⟨hstack, _⟩)
        have hclash := hframes.symm.trans hstack
        cases hclash
  | threadEnd hframes halive =>
      rw [h.lost_threadEnd hframes (hstep.held_others rfl)]
      refine or_congr_right ⟨.ended, fun hloses => ?_⟩
      cases hloses with
      | ended hhooks => exact hhooks

/-- The lost arrays of a run are those that its steps have lost. -/
theorem lost_iff_of_run {ls : List Label} (hrun : run (step jvm) initialState ls = some s)
    (a : ArrayId) :
    s.Lost a ↔ ∃ s₁ l, Takes (step jvm) initialState ls s₁ l ∧ Loses jvm s₁ l a := by
  have hstep : ∀ s l s' a, Reachable (step jvm) initialState s → step jvm s l = some s' →
      (s'.Lost a ↔ s.Lost a ∨ Loses jvm s l a) :=
    fun _ _ _ a hreachable hstep => (heldOk_of_reachable hreachable).lost_iff (step_cases hstep) a
  rw [run_gains_iff hstep a (.refl initialState) hrun, or_iff_right]
  rintro ⟨⟨m, hm, _⟩, _⟩
  cases hm

/-! ## What is freed and what is read -/

theorem frees_le_one_step (h : HeldOk s) (hfrees : ∀ m ∈ s.arrays, m.frees ≤ 1)
    (hstep : Step jvm s l s') : ∀ m ∈ s'.arrays, m.frees ≤ 1 := by
  have harrays := hstep.arrays
  generalize s'.arrays = arrays at harrays
  intro m hm
  cases harrays with
  | same => exact hfrees m hm
  | malloc hsome =>
      rcases List.mem_append.mp hm with hold | hnew
      · exact hfrees m hold
      · rw [List.mem_singleton.mp hnew]
        exact Nat.zero_le 1
  | @free t threw c b rest hstack =>
      obtain ⟨a, ha⟩ := List.mem_iff_getElem?.mp hm
      by_cases hhooks : (s.info t).hooks = some a
      · -- the one that is freed was not freed before
        have hheld : a ∈ s.held t := by
          unfold State.held heldBy
          rw [hhooks]
          exact List.mem_append_right _ (List.mem_singleton_self a)
        obtain ⟨m', hm', hzero⟩ := h.unfreed t a hheld
        rw [hhooks, State.free, List.getElem?_modify_eq, hm'] at ha
        obtain rfl := Option.some.inj ha
        exact (congrArg (· + 1) hzero).le
      · rw [s.getElem?_free _ hhooks] at ha
        exact hfrees m (List.mem_of_getElem? ha)

theorem frees_le_one_of_reachable (h : Reachable (step jvm) initialState s) :
    ∀ m ∈ s.arrays, m.frees ≤ 1 := by
  let inv : State → Prop := fun s => ∀ m ∈ s.arrays, m.frees ≤ 1
  have hinit : inv initialState := fun m hm => absurd hm List.not_mem_nil
  refine @reachable_invariant_with _ _ _ inv _ _ hinit ?_ h
  intro s l s' hreachable hfrees hstep
  exact frees_le_one_step (heldOk_of_reachable hreachable) hfrees (step_cases hstep)

theorem readsUnfreed_of_reachable (h : Reachable (step jvm) initialState s) :
    ReadsUnfreed jvm t s l := by
  intro f rest pointer i _ _ hstack hf
  have hpointers := exitPointers_of_reachable h t
  exact (heldOk_of_reachable h).unfreed_of_held (mem_held_of_valueOfPointer hpointers hstack hf)

/-! ## Threads that have ended -/

/-- An ended thread has nothing. -/
def Thread.EndedOk (th : Thread) : Prop :=
  th.ended = true → th.frames = [] ∧ th.getHookInvokingInfo.hooks = none

/-- A thread that has ended and has no frames takes no step. -/
theorem Step.frames_of_ended (h : Step jvm s l s') (hself : l.thread = some t)
    (hended : (s.threads t).ended = true) : (s.threads t).frames ≠ [] := by
  have hdead : ∀ {u : Tid}, some u = some t → (s.threads u).ended ≠ false := by
    intro u hut
    rw [Option.some.inj hut, hended]
    exact Bool.true_eq_false.mp
  have hbusy : ∀ {u : Tid} {f : Frame} {rest : List Frame}, some u = some t →
      (s.threads u).frames = f :: rest → (s.threads t).frames ≠ [] := by
    intro u f rest hut hframes
    rw [← Option.some.inj hut, hframes]
    exact List.cons_ne_nil f rest
  cases h with
  | register | unregister | nativeInert | nativeLive => cases hself
  | callUnhooked halive => exact absurd halive (hdead hself)
  | callSuppressed halive => exact absurd halive (hdead hself)
  | callBroadcast halive => exact absurd halive (hdead hself)
  | prepareSkipped halive => exact absurd halive (hdead hself)
  | prepareBroadcast halive => exact absurd halive (hdead hself)
  | threadEnd hframes halive => exact absurd halive (hdead hself)
  | leaveSkipped hframes => exact hbusy hself hframes
  | leaveBroadcast hframes => exact hbusy hself hframes
  | broadcast hframes => exact hbusy hself hframes
  | dispatchEntry hframes => exact hbusy hself hframes
  | dispatchExit hframes => exact hbusy hself hframes
  | finishEntry hframes => exact hbusy hself hframes
  | finishExit hframes => exact hbusy hself hframes
  | finishPrepare hframes => exact hbusy hself hframes

/-- A thread ends by `threadEnd` only, which leaves it nothing. -/
theorem Step.ended_cases (h : Step jvm s l s') :
    (s'.threads t).ended = (s.threads t).ended ∨ (s'.threads t).EndedOk := by
  by_cases hself : l.thread = some t
  · cases h with
    | register | unregister | nativeInert | nativeLive => cases hself
    | threadEnd hframes halive =>
        obtain rfl := Option.some.inj hself
        rw [State.setThread_threads_self]
        exact Or.inr fun _ => ⟨hframes, rfl⟩
    | finishEntry =>
        obtain rfl := Option.some.inj hself
        obtain ⟨forced, hthreads⟩ := onMethodEntry.threads_finish jvm s _ _ _ _ _
        rw [hthreads, Function.update_self]
        exact Or.inl rfl
    | finishExit =>
        obtain rfl := Option.some.inj hself
        obtain ⟨forced, hthreads⟩ := onMethodExit.threads_finish jvm s _ _ _ _ _
        rw [hthreads, Function.update_self]
        exact Or.inl rfl
    | callBroadcast =>
        obtain rfl := Option.some.inj hself
        unfold onMethodEntry.begin
        rw [State.setThread_threads_self]
        exact Or.inl rfl
    | leaveBroadcast =>
        obtain rfl := Option.some.inj hself
        unfold onMethodExit.begin
        rw [State.setThread_threads_self]
        exact Or.inl rfl
    | finishPrepare =>
        obtain rfl := Option.some.inj hself
        unfold onClassPrepare.finish
        rw [State.setThread_threads_self]
        exact Or.inl rfl
    | _ =>
        obtain rfl := Option.some.inj hself
        rw [State.setThread_threads_self]
        exact Or.inl rfl
  · rw [h.threads_of_ne hself]
    exact Or.inl rfl

theorem Step.endedOk (h : Step jvm s l s') (hok : (s.threads t).EndedOk) :
    (s'.threads t).EndedOk := by
  rcases h.ended_cases (t := t) with hsame | hdone
  · intro hended
    rw [hsame] at hended
    have hframes := (hok hended).1
    have hother : l.thread ≠ some t := fun hself => h.frames_of_ended hself hended hframes
    rw [h.threads_of_ne hother]
    exact hok hended
  · exact hdone

theorem endedOk_of_reachable (h : Reachable (step jvm) initialState s) (t : Tid) :
    (s.threads t).EndedOk := by
  let inv : State → Prop := fun s => (s.threads t).EndedOk
  have hinit : inv initialState := fun hended => absurd hended Bool.false_ne_true
  refine @reachable_invariant _ _ _ inv _ _ hinit ?_ h
  intro s l s' hok hstep
  exact (step_cases hstep).endedOk hok

/-! ## Points where no callback runs -/

theorem State.Quiet.held (h : s.Quiet) (t : Tid) : s.held t = (s.info t).hooks.toList := by
  have hnone : entryArrays (s.stack t) = [] := by
    rw [← List.length_eq_zero_iff, length_entryArrays]
    have hguards : guards (s.stack t) = [] := h t
    rw [hguards, List.count_nil]
  unfold State.held heldBy
  rw [hnone, List.nil_append]

theorem State.Quiet.mem_held (h : s.Quiet) (t : Tid) :
    a ∈ s.held t ↔ (s.info t).hooks = some a := by
  rw [h.held t, Option.mem_toList]

/-- The unfreed arrays are those in the records exactly when no array is lost. -/
theorem State.Quiet.balanced_iff (hquiet : s.Quiet)
    (hreachable : Reachable (step jvm) initialState s) :
    s.ArraysBalanced ↔ ∀ a, ¬ s.Lost a := by
  constructor
  · rintro hbalanced a ⟨hunfreed, hnone⟩
    obtain ⟨t, _, hhooks⟩ := (hbalanced.stored a).mp hunfreed
    exact hnone t ((hquiet.mem_held t).mpr hhooks)
  · intro hnone
    refine ⟨fun a => ⟨fun hunfreed => ?_, ?_⟩, fun t hsome => ?_⟩
    · by_contra hstored
      refine hnone a ⟨hunfreed, fun t ht => hstored ⟨t, ?_, (hquiet.mem_held t).mp ht⟩⟩
      rw [hquiet.mem_held t] at ht
      refine eq_false_of_ne_true fun hended => ?_
      have hempty := (endedOk_of_reachable hreachable t hended).2
      exact absurd (ht.symm.trans hempty) (Option.some_ne_none a)
    · rintro ⟨t, _, hhooks⟩
      exact (heldOk_of_reachable hreachable).unfreed_of_held ((hquiet.mem_held t).mpr hhooks)
    · obtain ⟨array, harray⟩ := Option.ne_none_iff_exists'.mp hsome
      obtain ⟨a, hmem, hbroadcast, _⟩ :=
        ((owned_of_reachable hreachable t).owner array harray).exists_mem
      exact ⟨a, hmem, hbroadcast.trans harray.symm⟩

end

/-- In every run no array is freed twice and none is read after it was freed; and when the
run ends at a point where no callback is in progress, the unfreed arrays are those in the
records of live threads if and only if no step of the run has lost one. -/
theorem arrays_balanced_iff (jvm : Jvm) (ls : List Label) (s : State)
    (hrun : run (step jvm) initialState ls = some s) :
    (∀ m ∈ s.arrays, m.frees ≤ 1) ∧ (∀ t l, ReadsUnfreed jvm t s l) ∧
      (s.Quiet → (s.ArraysBalanced ↔
        ∀ s₁ l a, Takes (step jvm) initialState ls s₁ l → ¬ Loses jvm s₁ l a)) := by
  have hreachable : Reachable (step jvm) initialState s := ⟨ls, hrun⟩
  refine ⟨frees_le_one_of_reachable hreachable,
    fun t l => readsUnfreed_of_reachable hreachable, fun hquiet => ?_⟩
  rw [hquiet.balanced_iff hreachable]
  constructor
  · intro hnone s₁ l a htakes hloses
    exact hnone a ((lost_iff_of_run hrun a).mpr ⟨s₁, l, htakes, hloses⟩)
  · intro hkept a hlost
    obtain ⟨s₁, l, htakes, hloses⟩ := (lost_iff_of_run hrun a).mp hlost
    exact hkept s₁ l a htakes hloses

/-! ## Two runs -/

/-- A run leaves the threads that none of its labels names alone. -/
theorem threads_eq_of_run {jvm : Jvm} {u : Tid} {ls : List Label}
    (hls : ∀ l ∈ ls, l.thread ≠ some u) :
    ∀ {s s' : State}, run (step jvm) s ls = some s' → s'.threads u = s.threads u := by
  induction ls with
  | nil =>
      intro s s' hrun
      obtain rfl := Option.some.inj hrun
      rfl
  | cons l ls ih =>
      intro s s' hrun
      obtain ⟨mid, hmid, hrest⟩ := run_cons_eq_some_iff.mp hrun
      have hmoved := (step_cases hmid).threads_of_ne (hls l List.mem_cons_self)
      rw [ih (fun k hk => hls k (List.mem_cons_of_mem l hk)) hrest, hmoved]

/-- A run that names one thread only leaves the others as they were at first. -/
theorem threads_of_run {jvm : Jvm} {ls : List Label} {s : State}
    (hrun : run (step jvm) initialState ls = some s)
    (hls : ∀ l ∈ ls, l.thread = none ∨ l.thread = some 0) {t : Tid} (ht : t ≠ 0) :
    s.threads t = {} := by
  refine threads_eq_of_run (fun l hl hthread => ?_) hrun
  rcases hls l hl with hnone | hzero
  · rw [hnone] at hthread
    cases hthread
  · exact ht (Option.some.inj (hthread.symm.trans hzero))

theorem quiet_of_run {jvm : Jvm} {ls : List Label} {s : State}
    (hrun : run (step jvm) initialState ls = some s)
    (hls : ∀ l ∈ ls, l.thread = none ∨ l.thread = some 0) (hself : s.running 0 = []) :
    s.Quiet := by
  intro t
  by_cases ht : t = 0
  · exact ht ▸ hself
  · rw [State.running, State.stack, threads_of_run hrun hls ht]
    rfl

/-- A hooked method is called and returns. -/
def hookedCallRun : List Label :=
  [.register ⟨1⟩ (some ⟨5⟩), .call 0 ⟨1⟩ fun _ => none, .broadcast 0, .finish 0 true,
    .leave 0 false none, .finish 0 true]

theorem arrays_balanced_in_hookedCallRun :
    ∃ s, run (step .plain) initialState hookedCallRun = some s ∧ s.Quiet ∧ s.ArraysBalanced := by
  let s := (run (step .plain) initialState hookedCallRun).get rfl
  have hrun : run (step .plain) initialState hookedCallRun = some s := rfl
  have hquiet : s.Quiet := quiet_of_run hrun (by decide) rfl
  have hkept : ∀ s₁ l, Takes (step .plain) initialState hookedCallRun s₁ l →
      ∀ a, ¬ Loses .plain s₁ l a := by
    refine forall_takes_cons rfl nofun ?_
    refine forall_takes_cons rfl ?_ ?_
    · rintro a (⟨hsome, hset | hset | hset⟩) <;> cases hset
    refine forall_takes_cons rfl nofun ?_
    refine forall_takes_cons rfl ?_ ?_
    · rintro a (_ | ⟨hstack, hhooks⟩)
      cases hhooks
    refine forall_takes_cons rfl nofun ?_
    refine forall_takes_cons rfl ?_ ?_
    · rintro a (_ | ⟨hstack, hhooks⟩)
      cases hstack
    exact fun _ _ hnone => absurd hnone takes_nil
  exact ⟨s, hrun, hquiet, ((arrays_balanced_iff .plain hookedCallRun s hrun).2.2 hquiet).mpr
    fun s₁ l a htakes => hkept s₁ l htakes a⟩

/-- A hooked method is called, and its hook calls it again. -/
def suppressedCallRun : List Label :=
  [.register ⟨1⟩ (some ⟨5⟩), .call 0 ⟨1⟩ fun _ => none, .broadcast 0, .dispatch 0,
    .call 0 ⟨1⟩ fun _ => none, .leave 0 false none, .finish 0 false,
    .leave 0 false none, .finish 0 true]

/-- The array of the second call is neither freed nor in a record. -/
theorem array_lost_in_suppressedCallRun :
    ¬ ∀ ls s, run (step .plain) initialState ls = some s → s.Quiet → s.ArraysBalanced := by
  intro hbalanced
  let s := (run (step .plain) initialState suppressedCallRun).get rfl
  have hrun : run (step .plain) initialState suppressedCallRun = some s := rfl
  have hls : ∀ l ∈ suppressedCallRun, l.thread = none ∨ l.thread = some 0 := by decide
  have hquiet : s.Quiet := quiet_of_run hrun hls rfl
  obtain ⟨t, _, hhooks⟩ := ((hbalanced _ s hrun hquiet).stored 1).mp ⟨_, rfl, rfl⟩
  have hempty : (s.info t).hooks = none := by
    by_cases ht : t = 0
    · subst ht
      rfl
    · rw [State.info, threads_of_run hrun hls ht]
      rfl
  exact Option.some_ne_none 1 (hhooks.symm.trans hempty)

end JvmHookFramework
