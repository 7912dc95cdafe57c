/-
  Foundation/Simulation.lean --- one machine simulated by another.

  Both machines take the same labels and emit events of the same kind.  What the first can
  do from a related state the second can do too, with the same events; so whole runs emit
  the same.  The second may be able to do more: `lift` says what it takes for a run of the
  second machine to be one of the first.  `Projects` is the case of a machine with labels of
  its own, of which some are steps of the other machine and some are not.
-/
import Mathlib.Data.List.Forall2
import JvmHookFramework.Foundation.Transition

set_option autoImplicit false

namespace JvmHookFramework.Foundation

section

variable {σ τ ℓ ε : Type}

/-- The machine `step'` can do what `step` does, and emits the same. -/
structure Simulates (step : σ → ℓ → Option σ) (emit : σ → ℓ → List ε)
    (step' : τ → ℓ → Option τ) (emit' : τ → ℓ → List ε) (related : σ → τ → Prop) : Prop where
  steps : ∀ {s s' : σ} {a : τ} {l : ℓ}, related s a → step s l = some s' →
    ∃ a', step' a l = some a' ∧ related s' a'
  emits : ∀ {s s' : σ} {a : τ} {l : ℓ}, related s a → step s l = some s' → emit s l = emit' a l

variable {step : σ → ℓ → Option σ} {emit : σ → ℓ → List ε} {step' : τ → ℓ → Option τ}
  {emit' : τ → ℓ → List ε} {related : σ → τ → Prop} {p : ℓ → Prop}

/-- Every run of the first machine is one of the second, with the same events. -/
theorem Simulates.run (h : Simulates step emit step' emit' related) :
    ∀ {ls : List ℓ} {s s' : σ} {a : τ}, related s a → Foundation.run step s ls = some s' →
      ∃ a', Foundation.run step' a ls = some a' ∧ related s' a' ∧
        emitted step emit s ls = emitted step' emit' a ls := by
  intro ls
  induction ls with
  | nil =>
      intro s s' a hrel hrun
      obtain rfl := Option.some.inj hrun
      exact ⟨a, rfl, hrel, rfl⟩
  | cons l ls ih =>
      intro s s' a hrel hrun
      obtain ⟨mid, hmid, hrest⟩ := run_cons_eq_some_iff.mp hrun
      obtain ⟨b, hb, hrel'⟩ := h.steps hrel hmid
      obtain ⟨a', hrun', hlast, hevents⟩ := ih hrel' hrest
      refine ⟨a', run_cons_eq_some_iff.mpr ⟨b, hb, hrun'⟩, hlast, ?_⟩
      simp only [emitted, hmid, hb, h.emits hrel hmid, hevents]

/-- A run of the second machine is one of the first when the first can match its labels. -/
theorem Simulates.lift (h : Simulates step emit step' emit' related)
    (hmatch : ∀ {s : σ} {a a' : τ} {l : ℓ}, related s a → p l → step' a l = some a' →
      ∃ s', step s l = some s') :
    ∀ {ls : List ℓ} {s : σ} {a a' : τ}, related s a → (∀ l ∈ ls, p l) →
      Foundation.run step' a ls = some a' →
        ∃ s', Foundation.run step s ls = some s' ∧ related s' a' := by
  intro ls
  induction ls with
  | nil =>
      intro s a a' hrel _ hrun
      obtain rfl := Option.some.inj hrun
      exact ⟨s, rfl, hrel⟩
  | cons l ls ih =>
      intro s a a' hrel hp hrun
      obtain ⟨b, hb, hrest⟩ := run_cons_eq_some_iff.mp hrun
      obtain ⟨hl, hls⟩ := List.forall_mem_cons.mp hp
      obtain ⟨mid, hmid⟩ := hmatch hrel hl hb
      obtain ⟨b', hb', hrel'⟩ := h.steps hrel hmid
      obtain rfl := Option.some.inj (hb.symm.trans hb')
      obtain ⟨s', hrun', hlast⟩ := ih hrel' hls hrest
      exact ⟨s', run_cons_eq_some_iff.mpr ⟨mid, hmid, hrun'⟩, hlast⟩

/-- Two logs of one run say the same when they do so of every step. -/
theorem emitted_congr {ε' δ : Type} {log : σ → ℓ → List ε} {log' : σ → ℓ → List ε'}
    {f : List ε → List δ} {g : List ε' → List δ} (hnil : f [] = g [])
    (happend : ∀ xs ys xs' ys', f xs = g xs' → f ys = g ys' → f (xs ++ ys) = g (xs' ++ ys'))
    (hstep : ∀ s l, f (log s l) = g (log' s l)) (s : σ) (ls : List ℓ) :
    f (emitted step log s ls) = g (emitted step log' s ls) := by
  induction ls generalizing s with
  | nil => exact hnil
  | cons l ls ih =>
      simp only [emitted]
      cases step s l with
      | none => exact hnil
      | some mid => exact happend _ _ _ _ (hstep s l) (ih mid)

/-- Two logs of one run are related entry by entry when they are at every step. -/
theorem emitted_forall₂ {δ : Type} {log : σ → ℓ → List ε} {log' : σ → ℓ → List δ}
    {related : ε → δ → Prop} {initial : σ} (hstep : ∀ s l s', Reachable step initial s →
      step s l = some s' → List.Forall₂ related (log s l) (log' s l)) :
    ∀ {ls : List ℓ} {s : σ}, Reachable step initial s →
      List.Forall₂ related (emitted step log s ls) (emitted step log' s ls) := by
  intro ls
  induction ls with
  | nil =>
      intro s _
      exact .nil
  | cons l ls ih =>
      intro s hreachable
      simp only [emitted]
      cases hmid : step s l with
      | none => exact .nil
      | some mid =>
          exact List.rel_append (hstep s l mid hreachable hmid) (ih (hreachable.tail hmid))

/-- To read a log is to read what each step logs. -/
theorem emitted_filterMap {δ : Type} (f : ε → Option δ) (s : σ) (ls : List ℓ) :
    emitted step (fun s l => (emit s l).filterMap f) s ls =
      (emitted step emit s ls).filterMap f := by
  induction ls generalizing s with
  | nil => rfl
  | cons l ls ih =>
      simp only [emitted]
      cases step s l with
      | none => rfl
      | some mid => simp only [ih, List.filterMap_append]

end

/-! ## Projections -/

section

variable {σ τ ℓ ℓ' ε : Type}

/-- Each label of the first machine is a step of the second, on what the state of the first
shows of it, or leaves that as it is. -/
structure Projects (step : σ → ℓ → Option σ) (step' : τ → ℓ' → Option τ) (view : σ → τ)
    (project : ℓ → Option ℓ') : Prop where
  stays : ∀ {s s' : σ} {l : ℓ}, step s l = some s' → project l = none → view s' = view s
  moves : ∀ {s s' : σ} {l : ℓ} {k : ℓ'}, step s l = some s' → project l = some k →
    step' (view s) k = some (view s')

variable {step : σ → ℓ → Option σ} {step' : τ → ℓ' → Option τ} {view : σ → τ}
  {project : ℓ → Option ℓ'} {emit : σ → ℓ → List ε} {emit' : τ → ℓ' → List ε}

theorem Projects.run (h : Projects step step' view project) :
    ∀ {ls : List ℓ} {s s' : σ}, Foundation.run step s ls = some s' →
      Foundation.run step' (view s) (ls.filterMap project) = some (view s') := by
  intro ls
  induction ls with
  | nil =>
      intro s s' hrun
      obtain rfl := Option.some.inj hrun
      rfl
  | cons l ls ih =>
      intro s s' hrun
      obtain ⟨mid, hmid, hrest⟩ := run_cons_eq_some_iff.mp hrun
      cases hl : project l with
      | none => rw [List.filterMap_cons_none hl, ← h.stays hmid hl, ih hrest]
      | some k =>
          rw [List.filterMap_cons_some hl]
          exact run_cons_eq_some_iff.mpr ⟨view mid, h.moves hmid hl, ih hrest⟩

theorem Projects.reachable {initial s : σ} (h : Projects step step' view project)
    (hreachable : Reachable step initial s) : Reachable step' (view initial) (view s) := by
  obtain ⟨ls, hrun⟩ := hreachable
  exact ⟨ls.filterMap project, h.run hrun⟩

/-- Both machines emit the same when a step of the second does and the other labels emit
nothing. -/
theorem Projects.emitted (h : Projects step step' view project)
    (hemit : ∀ {s s' : σ} {l : ℓ}, step s l = some s' →
      emit s l = (project l).elim [] (emit' (view s))) :
    ∀ {ls : List ℓ} {s s' : σ}, Foundation.run step s ls = some s' →
      Foundation.emitted step emit s ls =
        Foundation.emitted step' emit' (view s) (ls.filterMap project) := by
  intro ls
  induction ls with
  | nil =>
      intro _ _ _
      rfl
  | cons l ls ih =>
      intro s s' hrun
      obtain ⟨mid, hmid, hrest⟩ := run_cons_eq_some_iff.mp hrun
      simp only [Foundation.emitted, hmid, hemit hmid, ih hrest]
      cases hl : project l with
      | none =>
          rw [List.filterMap_cons_none hl, ← h.stays hmid hl, Option.elim_none, List.nil_append]
      | some k =>
          rw [List.filterMap_cons_some hl]
          simp only [Foundation.emitted, h.moves hmid hl, Option.elim_some]

end

end JvmHookFramework.Foundation
