/-
  Foundation/Custody.lean --- live references in the hands of their owners.

  Every reference that somebody owns is live, and nobody else owns it.  A reference is
  taken over when it is created; whoever lets it go may delete it.
-/
import Mathlib.Data.List.Perm.Basic
import JvmHookFramework.Foundation.Ownership
import JvmHookFramework.Foundation.RefTable

set_option autoImplicit false

namespace JvmHookFramework.Foundation

variable {τ α : Type}

structure Custody (table : RefTable α) (own : τ → List Nat) : Prop where
  balanced : table.Balanced
  exclusive : Exclusive own
  live : ∀ t, ∀ r ∈ own t, table.Live r

namespace Custody

variable {table : RefTable α} {own own' : τ → List Nat} {t : τ} {gone rest : List Nat}

theorem empty : Custody ({} : RefTable α) (fun _ : τ => []) where
  balanced := RefTable.balanced_empty
  exclusive := exclusive_nil
  live := by
    intro t r hr
    cases hr

/-- One owner lets some of its references go. -/
theorem drop (h : Custody table own) (hown : (own t).Perm (gone ++ rest))
    (hown' : (own' t).Perm rest) (hothers : ∀ u, u ≠ t → own' u = own u) :
    Custody table own' := by
  have hsub : ∀ r ∈ own' t, r ∈ own t := by
    intro r hr
    exact hown.mem_iff.mpr (List.mem_append_right gone (hown'.mem_iff.mp hr))
  have hnodup : (gone ++ rest).Nodup := hown.nodup_iff.mp (h.exclusive.nodup t)
  refine ⟨h.balanced, h.exclusive.change hothers ?_ fun r hr => Or.inl (hsub r hr),
    fun u r hr => ?_⟩
  · exact hown'.nodup_iff.mpr hnodup.of_append_right
  · exact h.live u r (mem_of_others' hothers (hsub r) hr)

/-- One owner deletes some of its references. -/
theorem release (h : Custody table own) (hown : (own t).Perm (gone ++ rest))
    (hown' : (own' t).Perm rest) (hothers : ∀ u, u ≠ t → own' u = own u) :
    Custody (table.deleteAll gone) own' := by
  have hdropped := h.drop hown hown' hothers
  have hnodup : (gone ++ rest).Nodup := hown.nodup_iff.mp (h.exclusive.nodup t)
  have hmem : ∀ r ∈ gone, r ∈ own t :=
    fun r hr => hown.mem_iff.mpr (List.mem_append_left rest hr)
  have hgone : ∀ u, ∀ r ∈ own' u, r ∉ gone := by
    intro u r hr hgone
    by_cases hut : u = t
    · subst hut
      exact hnodup.disjoint hgone (hown'.mem_iff.mp hr)
    · rw [hothers u hut] at hr
      exact hut (h.exclusive.one_owner hr (hmem r hgone))
  refine ⟨?_, hdropped.exclusive, fun u r hr => ?_⟩
  · exact h.balanced.deleteAll hnodup.of_append_left fun r hr => h.live t r (hmem r hr)
  · exact RefTable.live_deleteAll.mpr ⟨hdropped.live u r hr, hgone u r hr⟩

/-- One owner lets everything go, and deletes all of it or nothing. -/
theorem finish (h : Custody table own) (hgone : gone = own t ∨ gone = []) (hown' : own' t = [])
    (hothers : ∀ u, u ≠ t → own' u = own u) : Custody (table.deleteAll gone) own' := by
  have hnone : (own' t).Perm [] := hown' ▸ .refl _
  have hall : (own t).Perm (own t ++ []) := by
    rw [List.append_nil]
  rcases hgone with rfl | rfl
  · exact h.release hall hnone hothers
  · exact h.drop hall hnone hothers

/-- One owner takes a reference that is created for it. -/
theorem acquire (h : Custody table own) (a : α) (hown' : (own' t).Perm (table.next :: own t))
    (hothers : ∀ u, u ≠ t → own' u = own u) : Custody (table.newRef a) own' := by
  have hfresh : ∀ u, table.next ∉ own u :=
    fun u hr => Nat.lt_irrefl _ (h.live u _ hr).1
  have hcons : (table.next :: own t).Nodup := List.nodup_cons.mpr ⟨hfresh t, h.exclusive.nodup t⟩
  refine ⟨h.balanced.newRef a, h.exclusive.change hothers ?_ fun r hr => ?_, fun u r hr => ?_⟩
  · exact hown'.nodup_iff.mpr hcons
  · rcases List.mem_cons.mp (hown'.mem_iff.mp hr) with rfl | hold
    · exact Or.inr hfresh
    · exact Or.inl hold
  · rw [RefTable.live_newRef h.balanced]
    by_cases hut : u = t
    · subst hut
      rcases List.mem_cons.mp (hown'.mem_iff.mp hr) with rfl | hold
      · exact Or.inr rfl
      · exact Or.inl (h.live u r hold)
    · rw [hothers u hut] at hr
      exact Or.inl (h.live u r hr)

end Custody

end JvmHookFramework.Foundation
