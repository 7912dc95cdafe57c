/-
  Foundation/Transition.lean --- runs of a deterministic labelled machine.

  A machine is a partial step function `step : σ → ℓ → Option σ`; a label carries
  every choice of the environment, and `none` means that the label is not possible
  in the state (or that taking it never completes).  The file fixes what a run is,
  which steps a run takes, and the induction rules every later invariant uses.
-/
import Mathlib.Data.List.Basic

set_option autoImplicit false

namespace JvmHookFramework.Foundation

section Runs

variable {σ ℓ : Type}

/-- Take the labels one after the other. -/
def run (step : σ → ℓ → Option σ) : σ → List ℓ → Option σ
  | s, [] => some s
  | s, l :: ls =>
      match step s l with
      | none => none
      | some s' => run step s' ls

variable {step : σ → ℓ → Option σ}

@[simp] theorem run_nil (s : σ) : run step s [] = some s := rfl

theorem run_cons_eq_some_iff {s s' : σ} {l : ℓ} {ls : List ℓ} :
    run step s (l :: ls) = some s' ↔
      ∃ mid, step s l = some mid ∧ run step mid ls = some s' := by
  rw [run]
  cases step s l with
  | none => simp
  | some mid => simp

theorem run_append {s s' : σ} {xs ys : List ℓ} :
    run step s (xs ++ ys) = some s' ↔
      ∃ mid, run step s xs = some mid ∧ run step mid ys = some s' := by
  induction xs generalizing s with
  | nil => simp
  | cons l ls ih =>
      simp only [List.cons_append, run_cons_eq_some_iff, ih]
      constructor
      · rintro ⟨first, hfirst, mid, hmid, hrest⟩
        exact ⟨mid, ⟨first, hfirst, hmid⟩, hrest⟩
      · rintro ⟨mid, ⟨first, hfirst, hmid⟩, hrest⟩
        exact ⟨first, hfirst, mid, hmid, hrest⟩

/-- `s` is reached from `initial` by some sequence of labels. -/
def Reachable (step : σ → ℓ → Option σ) (initial s : σ) : Prop :=
  ∃ ls, run step initial ls = some s

theorem Reachable.refl (s : σ) : Reachable step s s := ⟨[], rfl⟩

theorem Reachable.tail {initial s s' : σ} {l : ℓ} (h : Reachable step initial s)
    (hstep : step s l = some s') : Reachable step initial s' := by
  obtain ⟨ls, hls⟩ := h
  exact ⟨ls ++ [l], run_append.mpr ⟨s, hls, run_cons_eq_some_iff.mpr ⟨s', hstep, rfl⟩⟩⟩

/-! ## The induction rules -/

/-- What every step preserves, every run preserves. -/
theorem run_invariant {inv : σ → Prop}
    (hstep : ∀ s l s', inv s → step s l = some s' → inv s') :
    ∀ {ls : List ℓ} {s s' : σ}, inv s → run step s ls = some s' → inv s' := by
  intro ls
  induction ls with
  | nil =>
      intro s s' hinv hrun
      exact Option.some.inj hrun ▸ hinv
  | cons l ls ih =>
      intro s s' hinv hrun
      obtain ⟨mid, hmid, hrest⟩ := run_cons_eq_some_iff.mp hrun
      exact ih (hstep s l mid hinv hmid) hrest

theorem reachable_invariant {inv : σ → Prop} {initial s : σ} (hinit : inv initial)
    (hstep : ∀ s l s', inv s → step s l = some s' → inv s')
    (h : Reachable step initial s) : inv s := by
  obtain ⟨ls, hls⟩ := h
  exact run_invariant hstep hinit hls

/-- An invariant may be preserved only in states that are reachable anyway. -/
theorem reachable_invariant_with {inv : σ → Prop} {initial s : σ} (hinit : inv initial)
    (hstep : ∀ s l s', Reachable step initial s → inv s → step s l = some s' → inv s')
    (h : Reachable step initial s) : inv s := by
  let both : σ → Prop := fun t => Reachable step initial t ∧ inv t
  have hboth : both s := by
    refine reachable_invariant ⟨.refl initial, hinit⟩ ?_ h
    intro t l t' ht htl
    exact ⟨ht.1.tail htl, hstep t l t' ht.1 ht.2 htl⟩
  exact hboth.2

/-! ## The steps of one run -/

/-- The run over `ls` from `s` takes label `l` in state `s₁`. -/
def Takes (step : σ → ℓ → Option σ) (s : σ) (ls : List ℓ) (s₁ : σ) (l : ℓ) : Prop :=
  ∃ before after, ls = before ++ l :: after ∧ run step s before = some s₁

theorem Takes.reachable {s s₁ : σ} {ls : List ℓ} {l : ℓ} (h : Takes step s ls s₁ l) :
    Reachable step s s₁ := by
  obtain ⟨before, _, _, hrun⟩ := h
  exact ⟨before, hrun⟩

theorem takes_nil {s s₁ : σ} {l : ℓ} : ¬ Takes step s [] s₁ l := by
  rintro ⟨before, after, heq, _⟩
  simp at heq

theorem takes_cons {s s₁ mid : σ} {l k : ℓ} {ls : List ℓ} (hmid : step s k = some mid) :
    Takes step s (k :: ls) s₁ l ↔ (s₁ = s ∧ l = k) ∨ Takes step mid ls s₁ l := by
  constructor
  · rintro ⟨before, after, heq, hrun⟩
    cases before with
    | nil =>
        simp only [List.nil_append, List.cons.injEq] at heq
        simp only [run_nil, Option.some.injEq] at hrun
        exact Or.inl ⟨hrun.symm, heq.1.symm⟩
    | cons b bs =>
        simp only [List.cons_append, List.cons.injEq] at heq
        obtain ⟨rfl, rfl⟩ := heq
        obtain ⟨mid', hmid', hrest⟩ := run_cons_eq_some_iff.mp hrun
        have hsame : mid' = mid := Option.some.inj (hmid'.symm.trans hmid)
        exact Or.inr ⟨bs, after, rfl, hsame ▸ hrest⟩
  · rintro (⟨rfl, rfl⟩ | ⟨before, after, rfl, hrun⟩)
    · exact ⟨[], ls, rfl, rfl⟩
    · exact ⟨k :: before, after, rfl, run_cons_eq_some_iff.mpr ⟨mid, hmid, hrun⟩⟩

/-- A run that cannot take its first label takes no other one. -/
theorem takes_of_stuck {s s₁ : σ} {l k : ℓ} {ls : List ℓ} (hstuck : step s k = none)
    (h : Takes step s (k :: ls) s₁ l) : s₁ = s ∧ l = k := by
  obtain ⟨before, after, heq, hrun⟩ := h
  cases before with
  | nil => exact ⟨(Option.some.inj hrun).symm, (List.cons.inj heq).1.symm⟩
  | cons b bs =>
      obtain ⟨rfl, _⟩ := List.cons.inj heq
      obtain ⟨mid, hmid, _⟩ := run_cons_eq_some_iff.mp hrun
      rw [hstuck] at hmid
      cases hmid

theorem forall_takes_cons {p : σ → ℓ → Prop} {s mid : σ} {k : ℓ} {ls : List ℓ}
    (hmid : step s k = some mid) (hfirst : p s k)
    (hrest : ∀ s₁ l, Takes step mid ls s₁ l → p s₁ l) :
    ∀ s₁ l, Takes step s (k :: ls) s₁ l → p s₁ l := by
  intro s₁ l htakes
  rcases (takes_cons hmid).mp htakes with ⟨rfl, rfl⟩ | hlater
  · exact hfirst
  · exact hrest s₁ l hlater

theorem takes_head (s : σ) (l : ℓ) (ls : List ℓ) : Takes step s (l :: ls) s l :=
  ⟨[], ls, rfl, rfl⟩

/-- An invariant that a step preserves whenever the step meets `ok` holds at the
end of every run all of whose steps meet it. -/
theorem run_invariant_of_takes {inv : σ → Prop} {ok : σ → ℓ → Prop}
    (hstep : ∀ s l s', inv s → ok s l → step s l = some s' → inv s') :
    ∀ {ls : List ℓ} {s s' : σ}, inv s → run step s ls = some s' →
      (∀ s₁ l, Takes step s ls s₁ l → ok s₁ l) → inv s' := by
  intro ls
  induction ls with
  | nil =>
      intro s s' hinv hrun _
      exact Option.some.inj hrun ▸ hinv
  | cons l ls ih =>
      intro s s' hinv hrun hok
      obtain ⟨mid, hmid, hrest⟩ := run_cons_eq_some_iff.mp hrun
      have hfirst : ok s l := hok s l (takes_head s l ls)
      exact ih (hstep s l mid hinv hfirst hmid) hrest
        (fun s₁ l₁ htakes => hok s₁ l₁ ((takes_cons hmid).mpr (Or.inr htakes)))

/-- When every step adds exactly what it gains, a run has at its end what it had at its
start and what its steps gained. -/
theorem run_gains_iff {α : Type} {has : σ → α → Prop} {gains : σ → ℓ → α → Prop} {initial : σ}
    (hstep : ∀ s l s' x, Reachable step initial s → step s l = some s' →
      (has s' x ↔ has s x ∨ gains s l x)) (x : α) :
    ∀ {ls : List ℓ} {s s' : σ}, Reachable step initial s → run step s ls = some s' →
      (has s' x ↔ has s x ∨ ∃ s₁ l, Takes step s ls s₁ l ∧ gains s₁ l x) := by
  intro ls
  induction ls with
  | nil =>
      intro s s' _ hrun
      obtain rfl := Option.some.inj hrun
      constructor
      · exact Or.inl
      · rintro (hhas | ⟨s₁, l, htakes, _⟩)
        · exact hhas
        · exact absurd htakes takes_nil
  | cons l ls ih =>
      intro s s' hreachable hrun
      obtain ⟨mid, hmid, hrest⟩ := run_cons_eq_some_iff.mp hrun
      rw [ih (hreachable.tail hmid) hrest, hstep s l mid x hreachable hmid]
      constructor
      · rintro ((hhas | hgains) | ⟨s₁, k, htakes, hgains⟩)
        · exact Or.inl hhas
        · exact Or.inr ⟨s, l, takes_head s l ls, hgains⟩
        · exact Or.inr ⟨s₁, k, (takes_cons hmid).mpr (Or.inr htakes), hgains⟩
      · rintro (hhas | ⟨s₁, k, htakes, hgains⟩)
        · exact Or.inl (Or.inl hhas)
        · rcases (takes_cons hmid).mp htakes with ⟨rfl, rfl⟩ | hlater
          · exact Or.inl (Or.inr hgains)
          · exact Or.inr ⟨s₁, k, hlater, hgains⟩

/-! ## What a run emits -/

variable {ε : Type}

/-- What the steps of a run emit, in order. -/
def emitted (step : σ → ℓ → Option σ) (emit : σ → ℓ → List ε) : σ → List ℓ → List ε
  | _, [] => []
  | s, l :: ls =>
      match step s l with
      | none => []
      | some s' => emit s l ++ emitted step emit s' ls

/-- Everything that a run emits is emitted by one of its steps. -/
theorem forall_emitted_iff {emit : σ → ℓ → List ε} {p : ε → Prop} {s : σ} {ls : List ℓ} :
    (∀ e ∈ emitted step emit s ls, p e) ↔
      ∀ s₁ l, Takes step s ls s₁ l → (step s₁ l).isSome = true → ∀ e ∈ emit s₁ l, p e := by
  induction ls generalizing s with
  | nil =>
      refine ⟨fun _ _ _ htakes => absurd htakes takes_nil, ?_⟩
      exact fun _ _ he => absurd he List.not_mem_nil
  | cons l ls ih =>
      cases hmid : step s l with
      | none =>
          simp only [emitted, hmid, List.not_mem_nil, false_implies, implies_true, true_iff]
          intro s₁ k htakes hsome
          obtain ⟨rfl, rfl⟩ := takes_of_stuck hmid htakes
          rw [hmid] at hsome
          cases hsome
      | some mid =>
          simp only [emitted, hmid, List.forall_mem_append, ih]
          constructor
          · rintro ⟨hfirst, hrest⟩ s₁ k htakes hsome
            rcases (takes_cons hmid).mp htakes with ⟨rfl, rfl⟩ | hlater
            · exact hfirst
            · exact hrest s₁ k hlater hsome
          · intro hall
            refine ⟨hall s l (takes_head s l ls) (by rw [hmid]; rfl), fun s₁ k hlater => ?_⟩
            exact hall s₁ k ((takes_cons hmid).mpr (Or.inr hlater))

/-- An invariant of the state and of what was emitted so far holds, at the end of a
run, of all that the run emitted. -/
theorem run_history {emit : σ → ℓ → List ε} {inv : List ε → σ → Prop}
    (hstep : ∀ log s l s', inv log s → step s l = some s' → inv (log ++ emit s l) s') :
    ∀ {ls : List ℓ} {log : List ε} {s s' : σ}, inv log s → run step s ls = some s' →
      inv (log ++ emitted step emit s ls) s' := by
  intro ls
  induction ls with
  | nil =>
      intro log s s' hinv hrun
      rw [emitted, List.append_nil]
      exact Option.some.inj hrun ▸ hinv
  | cons l ls ih =>
      intro log s s' hinv hrun
      obtain ⟨mid, hmid, hrest⟩ := run_cons_eq_some_iff.mp hrun
      have hlog : log ++ emitted step emit s (l :: ls) =
          (log ++ emit s l) ++ emitted step emit mid ls := by
        rw [emitted, hmid, List.append_assoc]
      rw [hlog]
      exact ih (hstep log s l mid hinv hmid) hrest

/-- The same for an invariant that is preserved only in states that are reachable anyway. -/
theorem run_history_with {emit : σ → ℓ → List ε} {inv : List ε → σ → Prop} {initial s : σ}
    {ls : List ℓ}
    (hstep : ∀ log s l s', Reachable step initial s → inv log s → step s l = some s' →
      inv (log ++ emit s l) s')
    (hinit : inv [] initial) (hrun : run step initial ls = some s) :
    inv (emitted step emit initial ls) s := by
  let both : List ε → σ → Prop := fun log t => Reachable step initial t ∧ inv log t
  have hboth : both ([] ++ emitted step emit initial ls) s := by
    refine run_history ?_ ⟨.refl initial, hinit⟩ hrun
    intro log t l t' ht htl
    exact ⟨ht.1.tail htl, hstep log t l t' ht.1 ht.2 htl⟩
  exact hboth.2

/-- Two step properties that agree in every reachable state hold of the same runs. -/
theorem forall_takes_congr {p q : σ → ℓ → Prop} {initial : σ} {ls : List ℓ}
    (h : ∀ s l, Reachable step initial s → (p s l ↔ q s l)) :
    (∀ s l, Takes step initial ls s l → p s l) ↔
      ∀ s l, Takes step initial ls s l → q s l :=
  ⟨fun hp s l htakes => (h s l htakes.reachable).mp (hp s l htakes),
    fun hq s l htakes => (h s l htakes.reachable).mpr (hq s l htakes)⟩

end Runs

end JvmHookFramework.Foundation
