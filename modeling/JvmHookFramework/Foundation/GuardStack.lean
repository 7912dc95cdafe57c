/-
  Foundation/GuardStack.lean --- flags that are set while something runs.

  A thread of activities, each guarded by a flag: an activity of kind `k` may start only
  while the flag of `k` is clear, sets it, and clears it when it ends.  Activities nest,
  the innermost ends first.  Whatever happens in between, the activities that have ended
  leave the flags as they found them, and a kind never runs inside itself.
-/
import Mathlib.Data.List.Basic
import Mathlib.Logic.Function.Basic

set_option autoImplicit false

namespace JvmHookFramework.Foundation

namespace GuardStack

variable {κ : Type} [DecidableEq κ]

/-- What one step may do to the flags and to the kinds of the running activities, the
innermost first. -/
inductive Moves (flags : κ → Bool) (running : List κ) : (κ → Bool) → List κ → Prop where
  | stays : Moves flags running flags running
  | starts {k : κ} (hclear : flags k = false) :
      Moves flags running (Function.update flags k true) (k :: running)
  | ends {k : κ} {outer : List κ} (hrunning : running = k :: outer) :
      Moves flags running (Function.update flags k false) outer

/-- The flags once the activities `ks` have ended, the first of them first. -/
def unwind : List κ → (κ → Bool) → κ → Bool
  | [], flags => flags
  | k :: ks, flags => unwind ks (Function.update flags k false)

@[simp] theorem unwind_nil (flags : κ → Bool) : unwind [] flags = flags := rfl

@[simp] theorem unwind_cons (k : κ) (ks : List κ) (flags : κ → Bool) :
    unwind (k :: ks) flags = unwind ks (Function.update flags k false) := rfl

/-- Ending what has just started restores its flag. -/
theorem unwind_starts {flags : κ → Bool} {k : κ} (hclear : flags k = false) (ks : List κ) :
    unwind (k :: ks) (Function.update flags k true) = unwind ks flags := by
  rw [unwind_cons, Function.update_idem, ← hclear, Function.update_eq_self]

/-- The activities above `base` would restore the flags `flags₀`. -/
def Restores (base : List κ) (flags₀ flags : κ → Bool) (running : List κ) : Prop :=
  ∃ above, running = above ++ base ∧ unwind above flags = flags₀

theorem Restores.refl (flags : κ → Bool) (running : List κ) :
    Restores running flags flags running :=
  ⟨[], rfl, rfl⟩

/-- At most one activity ends at a time. -/
theorem Moves.length_le {flags flags' : κ → Bool} {running running' : List κ}
    (h : Moves flags running flags' running') : running.length ≤ running'.length + 1 := by
  cases h with
  | stays => omega
  | starts hclear =>
      rw [List.length_cons]
      omega
  | ends hrunning => exact Nat.le_of_eq (congrArg List.length hrunning)

/-- A move keeps that, as long as it ends nothing of `base`. -/
theorem Restores.moves {base running running' : List κ} {flags₀ flags flags' : κ → Bool}
    (h : Restores base flags₀ flags running) (hmoves : Moves flags running flags' running')
    (hkeeps : base.length ≤ running'.length) : Restores base flags₀ flags' running' := by
  obtain ⟨above, rfl, hunwind⟩ := h
  cases hmoves with
  | stays => exact ⟨above, rfl, hunwind⟩
  | starts hclear => exact ⟨_ :: above, rfl, (unwind_starts hclear above).trans hunwind⟩
  | ends hrunning =>
      cases above with
      | nil =>
          rw [List.nil_append] at hrunning
          rw [hrunning, List.length_cons] at hkeeps
          omega
      | cons k above =>
          obtain ⟨rfl, rfl⟩ := List.cons.inj hrunning
          exact ⟨above, rfl, hunwind⟩

/-- Once all that ran above `base` has ended, the flags are as they were. -/
theorem Restores.eq {base running : List κ} {flags₀ flags : κ → Bool}
    (h : Restores base flags₀ flags running) (hlength : running.length = base.length) :
    flags = flags₀ := by
  obtain ⟨above, rfl, hunwind⟩ := h
  have hnil : above = [] := by
    rw [List.length_append] at hlength
    exact List.eq_nil_of_length_eq_zero (by omega)
  rwa [hnil, unwind_nil] at hunwind

/-- A flag is set exactly while an activity of its kind runs, and at most one does. -/
structure Exact (flags : κ → Bool) (running : List κ) : Prop where
  nodup : running.Nodup
  set_iff : ∀ k, flags k = true ↔ k ∈ running

omit [DecidableEq κ] in
theorem exact_nil : Exact (fun _ : κ => false) [] where
  nodup := List.nodup_nil
  set_iff := by simp

theorem Exact.moves {flags flags' : κ → Bool} {running running' : List κ}
    (h : Exact flags running) (hmoves : Moves flags running flags' running') :
    Exact flags' running' := by
  cases hmoves with
  | stays => exact h
  | @starts k hclear =>
      have hnew : k ∉ running := by
        rw [← h.set_iff, hclear]
        exact Bool.false_ne_true
      refine ⟨List.nodup_cons.mpr ⟨hnew, h.nodup⟩, fun k' => ?_⟩
      rw [Function.update_apply, List.mem_cons]
      by_cases hk : k' = k
      · simp [hk]
      · simp [hk, h.set_iff]
  | @ends k outer hrunning =>
      subst hrunning
      obtain ⟨hnew, houter⟩ := List.nodup_cons.mp h.nodup
      refine ⟨houter, fun k' => ?_⟩
      rw [Function.update_apply]
      by_cases hk : k' = k
      · simp [hk, hnew]
      · rw [if_neg hk, h.set_iff, List.mem_cons]
        simp [hk]

omit [DecidableEq κ] in
/-- Nothing runs: every flag is clear. -/
theorem Exact.eq_false_of_nil {flags : κ → Bool} (h : Exact flags []) (k : κ) :
    flags k = false := by
  have hunset : ¬ flags k = true := by
    rw [h.set_iff]
    exact List.not_mem_nil
  exact eq_false_of_ne_true hunset

end GuardStack

end JvmHookFramework.Foundation
