/-
  Foundation/LastWrite.lean --- the last entry of a log that writes a field.

  Several operations may write one field; after them it holds what the last of them
  wrote.  `f x` is what the operation `x` writes into the field, if anything.
-/
import Mathlib.Data.List.Basic
import Mathlib.Data.List.Induction

set_option autoImplicit false

namespace JvmHookFramework.Foundation

variable {α β γ : Type}

/-- What the last operation of the log that writes has written. -/
def lastSome (f : α → Option β) (log : List α) : Option β := (log.filterMap f).getLast?

@[simp] theorem lastSome_nil (f : α → Option β) : lastSome f [] = none := rfl

/-- One more operation overwrites the field or leaves it. -/
theorem lastSome_concat (f : α → Option β) (log : List α) (x : α) :
    lastSome f (log ++ [x]) = (f x).or (lastSome f log) := by
  unfold lastSome
  rw [List.filterMap_append]
  cases hx : f x with
  | none => simp [hx]
  | some v => simp [hx]

/-- Whatever the first operation writes, a later one overwrites it. -/
theorem lastSome_cons (f : α → Option β) (x : α) (log : List α) :
    lastSome f (x :: log) = (lastSome f log).or (f x) := by
  unfold lastSome
  cases hx : f x with
  | none => rw [List.filterMap_cons_none hx, Option.or_none]
  | some v =>
      rw [List.filterMap_cons_some hx, List.getLast?_cons]
      cases (log.filterMap f).getLast? <;> rfl

theorem lastSome_map (f : α → Option β) (g : β → γ) (log : List α) :
    lastSome (fun x => (f x).map g) log = (lastSome f log).map g := by
  induction log using List.reverseRecOn with
  | nil => rfl
  | append_singleton log x ih =>
      rw [lastSome_concat, lastSome_concat, ih]
      cases f x with
      | none => rfl
      | some v => rfl

theorem lastSome_eq_none_iff {f : α → Option β} {log : List α} :
    lastSome f log = none ↔ ∀ x ∈ log, f x = none := by
  unfold lastSome
  rw [List.getLast?_eq_none_iff, List.filterMap_eq_nil_iff]

theorem exists_of_lastSome {f : α → Option β} {log : List α} {v : β}
    (h : lastSome f log = some v) : ∃ x ∈ log, f x = some v :=
  List.mem_filterMap.mp (List.mem_of_getLast? h)

/-- A field that more operations write has been written as well. -/
theorem exists_lastSome_of_imp {f : α → Option β} {g : α → Option γ} {log : List α} {v : β}
    (hwrites : ∀ x, g x = none → f x = none) (h : lastSome f log = some v) :
    ∃ w, lastSome g log = some w := by
  by_contra hnone
  rw [← Option.ne_none_iff_exists', not_not, lastSome_eq_none_iff] at hnone
  obtain ⟨x, hx, hv⟩ := exists_of_lastSome h
  rw [hwrites x (hnone x hx)] at hv
  cases hv

theorem lastSome_congr {f g : α → Option β} {log : List α} (h : ∀ x ∈ log, f x = g x) :
    lastSome f log = lastSome g log := by
  unfold lastSome
  rw [List.filterMap_congr h]

end JvmHookFramework.Foundation
