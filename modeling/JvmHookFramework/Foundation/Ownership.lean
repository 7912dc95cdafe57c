/-
  Foundation/Ownership.lean --- resources with one owner.

  `own t` lists what `t` owns.  Nothing is listed twice, neither with one owner nor with
  two; a step that changes what one owner has keeps that as long as the new things were
  nobody's.
-/
import Mathlib.Data.List.Basic
import Mathlib.Data.List.Nodup

set_option autoImplicit false

namespace JvmHookFramework.Foundation

variable {τ ι : Type}

structure Exclusive (own : τ → List ι) : Prop where
  nodup : ∀ t, (own t).Nodup
  one_owner : ∀ {t u x}, x ∈ own t → x ∈ own u → t = u

/-! ## One owner's list changes -/

theorem eq_of_others {own own' : τ → List ι} {t : τ} (hothers : ∀ u, u ≠ t → own' u = own u)
    (hself : own' t = own t) (u : τ) : own' u = own u := by
  by_cases hut : u = t
  · exact hut ▸ hself
  · exact hothers u hut

theorem mem_of_others {own own' : τ → List ι} {t : τ} {x : ι}
    (hothers : ∀ u, u ≠ t → own' u = own u) (hself : x ∈ own t → x ∈ own' t) {u : τ}
    (hu : x ∈ own u) : x ∈ own' u := by
  by_cases hut : u = t
  · subst hut
    exact hself hu
  · rwa [hothers u hut]

/-- The same, read backwards. -/
theorem mem_of_others' {own own' : τ → List ι} {t : τ} {x : ι}
    (hothers : ∀ u, u ≠ t → own' u = own u) (hself : x ∈ own' t → x ∈ own t) {u : τ}
    (hu : x ∈ own' u) : x ∈ own u :=
  mem_of_others (fun u hut => (hothers u hut).symm) hself hu

/-! ## Exclusive ownership -/

theorem exclusive_nil : Exclusive (fun _ : τ => ([] : List ι)) where
  nodup := fun _ => List.nodup_nil
  one_owner := by simp

namespace Exclusive

variable {own own' : τ → List ι} {t : τ}

/-- One owner's list changes. -/
theorem change (h : Exclusive own) (hothers : ∀ u, u ≠ t → own' u = own u)
    (hnodup : (own' t).Nodup) (hmem : ∀ x ∈ own' t, x ∈ own t ∨ ∀ u, x ∉ own u) :
    Exclusive own' := by
  have hback : ∀ u x, u ≠ t → x ∈ own' t → x ∉ own' u := by
    intro u x hne hx hu
    rw [hothers u hne] at hu
    rcases hmem x hx with hold | hnew
    · exact hne (h.one_owner hu hold)
    · exact hnew u hu
  refine ⟨fun u => ?_, fun {u v x} hu hv => ?_⟩
  · by_cases hut : u = t
    · exact hut ▸ hnodup
    · rw [hothers u hut]
      exact h.nodup u
  · by_cases hut : u = t
    · subst hut
      by_contra hne
      exact hback v x (Ne.symm hne) hu hv
    · by_cases hvt : v = t
      · subst hvt
        exact absurd hu (hback u x hut hv)
      · rw [hothers u hut] at hu
        rw [hothers v hvt] at hv
        exact h.one_owner hu hv

/-- One owner takes something that was nobody's. -/
theorem acquire (h : Exclusive own) {x : ι} (hothers : ∀ u, u ≠ t → own' u = own u)
    (htake : own' t = x :: own t) (hnew : ∀ u, x ∉ own u) : Exclusive own' := by
  refine h.change hothers ?_ ?_
  · rw [htake]
    exact List.nodup_cons.mpr ⟨hnew t, h.nodup t⟩
  · intro y hy
    rw [htake, List.mem_cons] at hy
    rcases hy with rfl | hold
    · exact Or.inr hnew
    · exact Or.inl hold

/-- One owner lets the first thing of its list go. -/
theorem release (h : Exclusive own) {x : ι} (hothers : ∀ u, u ≠ t → own' u = own u)
    (hlet : own t = x :: own' t) : Exclusive own' ∧ ∀ u, x ∉ own' u := by
  have hcons := h.nodup t
  rw [hlet, List.nodup_cons] at hcons
  refine ⟨h.change hothers hcons.2 fun y hy => Or.inl ?_, fun u hu => ?_⟩
  · rw [hlet]
    exact List.mem_cons_of_mem x hy
  · by_cases hut : u = t
    · exact hcons.1 (hut ▸ hu)
    · rw [hothers u hut] at hu
      exact hut (h.one_owner hu (hlet ▸ List.mem_cons_self))

end Exclusive

end JvmHookFramework.Foundation
