/-
  Foundation/RefTable.lean --- tables of counted references.

  A reference is created by `newRef`, denotes one object for ever, and is valid until
  it is deleted.  The table keeps every deletion that was asked for, so that deleting
  a reference twice, or one that never existed, is visible in it.
-/
import Mathlib.Data.List.Nodup

set_option autoImplicit false

namespace JvmHookFramework.Foundation

/-- The references handed out so far, numbered in order of creation, and the
deletions in order. -/
structure RefTable (α : Type) where
  objs : List α := []
  deletes : List Nat := []
  deriving Repr

namespace RefTable

variable {α : Type}

/-- A fresh reference to `a`. -/
def newRef (t : RefTable α) (a : α) : RefTable α :=
  { t with objs := t.objs ++ [a] }

/-- The number `newRef` gives to the reference it creates. -/
def next (t : RefTable α) : Nat := t.objs.length

def delete (t : RefTable α) (r : Nat) : RefTable α :=
  { t with deletes := t.deletes ++ [r] }

/-- The object a reference denotes. -/
def get? (t : RefTable α) (r : Nat) : Option α := t.objs[r]?

/-- Created and not yet deleted. -/
def Live (t : RefTable α) (r : Nat) : Prop := r < t.next ∧ r ∉ t.deletes

instance (t : RefTable α) (r : Nat) : Decidable (t.Live r) :=
  inferInstanceAs (Decidable (_ ∧ _))

/-- Only references that exist were deleted, and none of them twice. -/
structure Balanced (t : RefTable α) : Prop where
  nodup : t.deletes.Nodup
  created : ∀ r ∈ t.deletes, r < t.next

@[simp] theorem next_newRef (t : RefTable α) (a : α) : (t.newRef a).next = t.next + 1 := by
  simp [next, newRef]

@[simp] theorem next_delete (t : RefTable α) (r : Nat) : (t.delete r).next = t.next := rfl

@[simp] theorem get?_delete (t : RefTable α) (r q : Nat) : (t.delete r).get? q = t.get? q := rfl

@[simp] theorem get?_newRef_next (t : RefTable α) (a : α) :
    (t.newRef a).get? t.next = some a := by
  simp [get?, newRef, next]

theorem get?_newRef_of_lt {t : RefTable α} {r : Nat} (a : α) (h : r < t.next) :
    (t.newRef a).get? r = t.get? r := by
  simp only [get?, newRef, next] at *
  exact List.getElem?_append_left h

theorem live_delete {t : RefTable α} {r q : Nat} :
    (t.delete r).Live q ↔ t.Live q ∧ q ≠ r := by
  have hdeletes : (t.delete r).deletes = t.deletes ++ [r] := rfl
  simp only [Live, next_delete, hdeletes, List.mem_append, List.mem_singleton, not_or,
    and_assoc, ne_eq]

theorem live_newRef {t : RefTable α} {a : α} {q : Nat} (ht : t.Balanced) :
    (t.newRef a).Live q ↔ t.Live q ∨ q = t.next := by
  have hfresh : t.next ∉ t.deletes := fun h => Nat.lt_irrefl _ (ht.created _ h)
  have hdeletes : (t.newRef a).deletes = t.deletes := rfl
  simp only [Live, next_newRef, hdeletes]
  constructor
  · rintro ⟨hlt, hnot⟩
    rcases Nat.lt_succ_iff_lt_or_eq.mp hlt with h | h
    · exact Or.inl ⟨h, hnot⟩
    · exact Or.inr h
  · rintro (⟨hlt, hnot⟩ | rfl)
    · exact ⟨Nat.lt_succ_of_lt hlt, hnot⟩
    · exact ⟨Nat.lt_succ_self _, hfresh⟩

theorem balanced_empty : (({} : RefTable α)).Balanced :=
  ⟨List.nodup_nil, fun _ h => absurd h List.not_mem_nil⟩

theorem Balanced.newRef {t : RefTable α} (h : t.Balanced) (a : α) : (t.newRef a).Balanced where
  nodup := h.nodup
  created := by
    intro r hr
    have hlt : r < t.next := h.created r hr
    rw [next_newRef]
    omega

theorem Balanced.delete {t : RefTable α} {r : Nat} (h : t.Balanced) (hlive : t.Live r) :
    (t.delete r).Balanced where
  nodup := by
    simp only [RefTable.delete, List.nodup_append, List.nodup_cons, List.not_mem_nil,
      not_false_eq_true, List.nodup_nil, and_self, List.mem_singleton, forall_eq, true_and]
    exact ⟨h.nodup, fun a ha heq => hlive.2 (heq ▸ ha)⟩
  created := by
    intro q hq
    simp only [RefTable.delete, List.mem_append, List.mem_singleton] at hq
    rcases hq with hq | rfl
    · exact h.created q hq
    · exact hlive.1

/-! ## Deleting several references -/

def deleteAll (t : RefTable α) (rs : List Nat) : RefTable α := rs.foldl delete t

@[simp] theorem deleteAll_nil (t : RefTable α) : t.deleteAll [] = t := rfl

@[simp] theorem deleteAll_cons (t : RefTable α) (r : Nat) (rs : List Nat) :
    t.deleteAll (r :: rs) = (t.delete r).deleteAll rs := rfl

@[simp] theorem get?_deleteAll (t : RefTable α) (rs : List Nat) (q : Nat) :
    (t.deleteAll rs).get? q = t.get? q := by
  induction rs generalizing t with
  | nil => rfl
  | cons r rs ih => rw [deleteAll_cons, ih, get?_delete]

@[simp] theorem next_deleteAll (t : RefTable α) (rs : List Nat) :
    (t.deleteAll rs).next = t.next := by
  induction rs generalizing t with
  | nil => rfl
  | cons r rs ih => rw [deleteAll_cons, ih, next_delete]

@[simp] theorem deletes_deleteAll (t : RefTable α) (rs : List Nat) :
    (t.deleteAll rs).deletes = t.deletes ++ rs := by
  induction rs generalizing t with
  | nil => exact (List.append_nil _).symm
  | cons r rs ih =>
      rw [deleteAll_cons, ih]
      exact List.append_assoc t.deletes [r] rs

theorem live_deleteAll {t : RefTable α} {rs : List Nat} {q : Nat} :
    (t.deleteAll rs).Live q ↔ t.Live q ∧ q ∉ rs := by
  induction rs generalizing t with
  | nil => simp
  | cons r rs ih =>
      rw [deleteAll_cons, ih, live_delete, List.mem_cons, not_or]
      exact and_assoc

/-- Deleting distinct valid references keeps the table balanced. -/
theorem Balanced.deleteAll {t : RefTable α} {rs : List Nat} (h : t.Balanced)
    (hnodup : rs.Nodup) (hlive : ∀ r ∈ rs, t.Live r) : (t.deleteAll rs).Balanced := by
  induction rs generalizing t with
  | nil => exact h
  | cons r rs ih =>
      obtain ⟨hr, hrest⟩ := List.nodup_cons.mp hnodup
      have hfirst : (t.delete r).Balanced := h.delete (hlive r List.mem_cons_self)
      refine ih hfirst hrest fun q hq => live_delete.mpr ⟨?_, ?_⟩
      · exact hlive q (List.mem_cons_of_mem r hq)
      · exact fun heq => hr (heq ▸ hq)

end RefTable

end JvmHookFramework.Foundation
