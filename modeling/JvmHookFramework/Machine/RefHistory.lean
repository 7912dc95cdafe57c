/-
  Machine/RefHistory.lean --- the references of one holder over a run.

  The references that `putObject` or `returnObject` calls on the objects of a callback
  create and replace are its history.  As long as the callback runs it holds what was
  created and not replaced, and nothing else.
-/
import JvmHookFramework.Machine.References

set_option autoImplicit false

namespace JvmHookFramework

open Foundation

inductive RefEvent where
  /-- The reference was deleted because another one takes its place. -/
  | replaced (r : Nat)
  | created (r : Nat)
  deriving DecidableEq, Repr

/-- The references that a step deletes and creates by a native call on an object of the
holder's callback, for the holder's purpose. -/
def refEvents (jvm : Jvm) (holder : CallbackId × Purpose) (s : State) : Label → List RefEvent
  | .native h op =>
      if s.address h = some holder.1 ∧ op.purpose? = some holder.2 then
        match step jvm s (.native h op) with
        | none => []
        | some s' =>
            (s'.refs.table.deletes.drop s.refs.table.deletes.length).map .replaced ++
              (List.range' s.refs.table.next
                (s'.refs.table.next - s.refs.table.next)).map .created
      else []
  | _ => []

/-- What a run creates and replaces for a holder, in order. -/
def refHistory (jvm : Jvm) (holder : CallbackId × Purpose) (ls : List Label) : List RefEvent :=
  emitted (step jvm) (refEvents jvm holder) initialState ls

section

variable {jvm : Jvm} {s s' : State} {l : Label} {holder : CallbackId × Purpose}
  {log : List RefEvent}

/-! ## The events of one step -/

/-- The step is a call on an object of the holder's callback, for its purpose. -/
def Acts (holder : CallbackId × Purpose) (s : State) (l : Label) : Prop :=
  ∃ h op, l = .native h op ∧ s.address h = some holder.1 ∧ op.purpose? = some holder.2

theorem refEvents_of_acts (hstep : step jvm s l = some s') (hacts : Acts holder s l) :
    refEvents jvm holder s l =
      (s'.refs.table.deletes.drop s.refs.table.deletes.length).map .replaced ++
        (List.range' s.refs.table.next (s'.refs.table.next - s.refs.table.next)).map .created := by
  obtain ⟨h, op, rfl, haddress, hpurpose⟩ := hacts
  simp only [refEvents, if_pos (And.intro haddress hpurpose), hstep]

theorem refEvents_of_not_acts (hacts : ¬ Acts holder s l) : refEvents jvm holder s l = [] := by
  cases l with
  | native h op =>
      have hguard : ¬ (s.address h = some holder.1 ∧ op.purpose? = some holder.2) :=
        fun hboth => hacts ⟨h, op, rfl, hboth.1, hboth.2⟩
      simp only [refEvents, if_neg hguard]
  | _ => rfl

theorem mem_refEvents_created (hstep : step jvm s l = some s') {r : Nat} :
    .created r ∈ refEvents jvm holder s l ↔
      Acts holder s l ∧ s.refs.table.next ≤ r ∧ r < s'.refs.table.next := by
  by_cases hacts : Acts holder s l
  · rw [refEvents_of_acts hstep hacts]
    simp only [List.mem_append, List.mem_map, reduceCtorEq, and_false, exists_false, false_or,
      RefEvent.created.injEq, exists_eq_right, List.mem_range'_1, hacts, true_and]
    omega
  · rw [refEvents_of_not_acts hacts]
    simp [hacts]

theorem mem_refEvents_replaced (hstep : step jvm s l = some s') {r : Nat} :
    .replaced r ∈ refEvents jvm holder s l ↔ Acts holder s l ∧
      r ∈ s'.refs.table.deletes.drop s.refs.table.deletes.length := by
  by_cases hacts : Acts holder s l
  · rw [refEvents_of_acts hstep hacts]
    simp only [List.mem_append, List.mem_map, reduceCtorEq, and_false, exists_false, or_false,
      RefEvent.replaced.injEq, exists_eq_right, hacts, true_and]
  · rw [refEvents_of_not_acts hacts]
    simp [hacts]

/-! ## The invariant -/

/-- What the history of a holder says about it. -/
structure Tracked (holder : CallbackId × Purpose) (log : List RefEvent) (s : State) : Prop where
  kept : ∀ r, .created r ∈ log → r ∈ s.holds holder ∨ .replaced r ∈ log ∨ s.Returned holder.1
  made : ∀ r ∈ s.holds holder, .created r ∈ log
  replaced : ∀ r, .replaced r ∈ log → r ∈ s.refs.table.deletes ∧ .created r ∈ log

theorem tracked_initial (holder : CallbackId × Purpose) : Tracked holder [] initialState where
  kept := nofun
  made := by
    intro r hr
    cases hr
  replaced := nofun

/-- A step that does not act for the holder, and after which it holds what it held or has
returned with nothing. -/
theorem Tracked.idle (h : Tracked holder log s)
    (hholds : s'.holds holder = s.holds holder ∨ s'.holds holder = [] ∧ s'.Returned holder.1)
    (hreturned : s.Returned holder.1 → s'.Returned holder.1)
    (hdeletes : ∀ r ∈ s.refs.table.deletes, r ∈ s'.refs.table.deletes) : Tracked holder log s' where
  kept := by
    intro r hr
    rcases hholds with hsame | ⟨_, hgone⟩
    · rw [hsame]
      exact (h.kept r hr).imp_right (Or.imp_right hreturned)
    · exact Or.inr (Or.inr hgone)
  made := by
    intro r hr
    rcases hholds with hsame | ⟨hnone, _⟩
    · exact h.made r (hsame ▸ hr)
    · rw [hnone] at hr
      cases hr
  replaced := fun r hr => (h.replaced r hr).imp_left (hdeletes r)

/-- A step that acts for the holder. -/
theorem Tracked.acts (h : Tracked holder log s) (hstep : step jvm s l = some s')
    (hacts : Acts holder s l)
    (hswap : Swap s.refs (s.holds holder) s'.refs (s'.holds holder))
    (hreturned : s.Returned holder.1 → s'.Returned holder.1) :
    Tracked holder (log ++ refEvents jvm holder s l) s' := by
  obtain ⟨gone, hdeletes, hheld, hlet⟩ := hswap.deletes
  have hgone : ∀ r, .replaced r ∈ refEvents jvm holder s l ↔ r ∈ gone := by
    intro r
    rw [mem_refEvents_replaced hstep, hdeletes, List.drop_left]
    exact and_iff_right hacts
  refine ⟨fun r hr => ?_, fun r hr => ?_, fun r hr => ?_⟩
  · rcases List.mem_append.mp hr with hold | hnew
    · rcases h.kept r hold with hholds | hreplaced | hdone
      · rcases hlet r hholds with hkeeps | hgoes
        · exact Or.inl hkeeps
        · exact Or.inr (Or.inl (List.mem_append_right log ((hgone r).mpr hgoes)))
      · exact Or.inr (Or.inl (List.mem_append_left _ hreplaced))
      · exact Or.inr (Or.inr (hreturned hdone))
    · obtain ⟨_, hle, hlt⟩ := (mem_refEvents_created hstep).mp hnew
      exact Or.inl (hswap.created hle hlt)
  · rcases hswap.mem_held hr with hold | ⟨hle, hlt⟩
    · exact List.mem_append_left _ (h.made r hold)
    · exact List.mem_append_right log ((mem_refEvents_created hstep).mpr ⟨hacts, hle, hlt⟩)
  · rw [hdeletes]
    rcases List.mem_append.mp hr with hold | hnew
    · obtain ⟨hdeleted, hcreated⟩ := h.replaced r hold
      exact ⟨List.mem_append_left gone hdeleted, List.mem_append_left _ hcreated⟩
    · have hmem := (hgone r).mp hnew
      exact ⟨List.mem_append_right _ hmem, List.mem_append_left _ (h.made r (hheld r hmem))⟩

theorem Step.returned {c : CallbackId} (h : Step jvm s l s') (hreturned : s.Returned c) :
    s'.Returned c := by
  obtain ⟨cb, hcb, hdone⟩ := hreturned
  rcases h.callbacks with hcontinues | ⟨t, hbegins⟩ | ⟨t, d, hs, hreturns⟩
  · have hsame := hcontinues.callbacks c
    rw [hcb, Option.map_some, hdone] at hsame
    exact Option.map_eq_some_iff.mp hsame
  · obtain ⟨cb', _, hcallbacks⟩ := hbegins.callbacks
    refine ⟨cb, ?_, hdone⟩
    rw [hcallbacks, List.getElem?_append_left (List.getElem?_eq_some_iff.mp hcb).1, hcb]
  · unfold State.Returned
    rw [hreturns.callbacks, List.getElem?_modify, hcb]
    by_cases hd : d = c
    · exact ⟨{ cb with returned := true }, by simp [hd], rfl⟩
    · exact ⟨cb, by simp [hd], hdone⟩

/-- What a step does to the deletions: it only adds to them. -/
theorem RefStep.deletes (h : RefStep jvm s s' l) :
    ∃ gone, s'.refs.table.deletes = s.refs.table.deletes ++ gone := by
  cases h with
  | kept hrefs => exact ⟨[], by rw [hrefs, List.append_nil]⟩
  | called haddress hpurpose hswap =>
      obtain ⟨gone, hdeletes, _⟩ := hswap.deletes
      exact ⟨gone, hdeletes⟩
  | ended hends =>
      rw [hends.deletes, List.append_assoc]
      exact ⟨_, rfl⟩

theorem Tracked.step (h : Tracked holder log s) (hok : ReferencesOk s) (hhandles : HandlesOk s)
    (hstep : step jvm s l = some s') : Tracked holder (log ++ refEvents jvm holder s l) s' := by
  have hcases := step_cases hstep
  have hrefs := hcases.refStep hok hhandles
  have hreturned : s.Returned holder.1 → s'.Returned holder.1 := hcases.returned
  obtain ⟨more, hmore⟩ := hrefs.deletes
  have hdeletes : ∀ r ∈ s.refs.table.deletes, r ∈ s'.refs.table.deletes :=
    fun r hr => hmore ▸ List.mem_append_left more hr
  cases hrefs with
  | kept hsame hholds =>
      by_cases hacts : Acts holder s l
      · exact h.acts hstep hacts (.kept hsame (congrFun hholds holder)) hreturned
      · rw [refEvents_of_not_acts hacts, List.append_nil]
        exact h.idle (Or.inl (congrFun hholds holder)) hreturned hdeletes
  | @called x op c k haddress hpurpose hswap hothers =>
      by_cases hholder : holder = (c, k)
      · subst hholder
        exact h.acts hstep ⟨x, op, rfl, haddress, hpurpose⟩ hswap hreturned
      · have hacts : ¬ Acts holder s (.native x op) := by
          rintro ⟨x', op', hl, haddress', hpurpose'⟩
          obtain ⟨rfl, rfl⟩ := Label.native.inj hl
          refine hholder (Prod.ext ?_ ?_)
          · exact Option.some.inj (haddress'.symm.trans haddress)
          · exact Option.some.inj (hpurpose'.symm.trans hpurpose)
        rw [refEvents_of_not_acts hacts, List.append_nil]
        exact h.idle (Or.inl (hothers holder hholder)) hreturned hdeletes
  | @ended t threw f a c hends =>
      have hacts : ¬ Acts holder s (.finish t threw) := by
        rintro ⟨x, op, hl, _⟩
        cases hl
      rw [refEvents_of_not_acts hacts, List.append_nil]
      refine h.idle ?_ hreturned hdeletes
      by_cases hholder : holder.1 = c
      · refine Or.inr ⟨?_, hholder ▸ hends.returned⟩
        have hsplit : holder = (c, holder.2) := Prod.ext hholder rfl
        rw [hsplit]
        exact hends.self holder.2
      · exact Or.inl (hends.others holder.1 holder.2 hholder)

/-- What a holder has at the end of a run, given its history. -/
theorem tracked_of_run {ls : List Label}
    (hrun : run (JvmHookFramework.step jvm) initialState ls = some s) :
    Tracked holder (refHistory jvm holder ls) s := by
  refine run_history_with ?_ (tracked_initial holder) hrun
  intro log s l s' hreachable hinv hstep
  exact hinv.step (referencesOk_of_reachable hreachable) (handlesOk_of_reachable hreachable) hstep

/-- As long as its callback runs, a holder has what was created for it and not replaced. -/
theorem created_of_run {ls : List Label} {r : Nat}
    (hrun : run (JvmHookFramework.step jvm) initialState ls = some s)
    (hrunning : ¬ s.Returned holder.1) (hr : .created r ∈ refHistory jvm holder ls) :
    r ∈ s.holds holder ∨ .replaced r ∈ refHistory jvm holder ls := by
  rcases (tracked_of_run hrun).kept r hr with hheld | hreplaced | hdone
  · exact Or.inl hheld
  · exact Or.inr hreplaced
  · exact absurd hdone hrunning

end

end JvmHookFramework
