/-
  Foundation/SlotChain.lean --- chains of slots that are cleared and reused.

  A chain is a list of slots, `none` for an empty one.  Storing a value fills the
  empty slot nearest the head and appends a slot only when there is none; removing
  values empties their slots and leaves the slots where they are.  The content of a
  chain is the multiset of the stored values.  What a history of such operations says
  about the length of the chain is stated with the peak of the content's size.
-/
import Mathlib.Data.Multiset.Filter
import Mathlib.Data.Multiset.AddSub

set_option autoImplicit false

namespace JvmHookFramework.Foundation.SlotChain

variable {α β : Type}

/-- Store a value in the first empty slot, or in a new slot at the end. -/
def fill : List (Option α) → α → List (Option α)
  | [], a => [some a]
  | none :: rest, a => some a :: rest
  | some b :: rest, a => some b :: fill rest a

/-- Empty every slot whose value satisfies `p`. -/
def clear (p : α → Bool) (chain : List (Option α)) : List (Option α) :=
  chain.map (Option.filter fun a => !p a)

/-- The stored values, nearest the head first. -/
def values (chain : List (Option α)) : List α := chain.filterMap id

/-- The stored values with their multiplicities. -/
def content (chain : List (Option α)) : Multiset α := values chain

@[simp] theorem values_nil : values ([] : List (Option α)) = [] := rfl

@[simp] theorem values_none (rest : List (Option α)) :
    values (none :: rest) = values rest := rfl

@[simp] theorem values_some (a : α) (rest : List (Option α)) :
    values (some a :: rest) = a :: values rest := rfl

theorem mem_values {chain : List (Option α)} {a : α} :
    a ∈ values chain ↔ some a ∈ chain := by
  simp [values]

@[simp] theorem mem_content {chain : List (Option α)} {a : α} :
    a ∈ content chain ↔ some a ∈ chain := by
  rw [content, Multiset.mem_coe, mem_values]

theorem card_content (chain : List (Option α)) :
    (content chain).card = (values chain).length := rfl

/-! ## Storing -/

theorem content_fill (chain : List (Option α)) (a : α) :
    content (fill chain a) = a ::ₘ content chain := by
  induction chain with
  | nil => rfl
  | cons slot rest ih =>
      cases slot with
      | none => rfl
      | some b =>
          have hrest : (↑(values (fill rest a)) : Multiset α) = a ::ₘ ↑(values rest) := ih
          simp only [fill, content, values_some, ← Multiset.cons_coe, hrest]
          exact Multiset.cons_swap b a _

/-- An empty slot is reused. -/
theorem length_fill_of_mem {chain : List (Option α)} (a : α) (h : none ∈ chain) :
    (fill chain a).length = chain.length := by
  induction chain with
  | nil => simp at h
  | cons slot rest ih =>
      cases slot with
      | none => rfl
      | some b =>
          have hrest : none ∈ rest := by simpa using h
          simp only [fill, List.length_cons, ih hrest]

/-- A slot is appended only when no slot is empty. -/
theorem length_fill_of_notMem {chain : List (Option α)} (a : α) (h : none ∉ chain) :
    (fill chain a).length = chain.length + 1 := by
  induction chain with
  | nil => rfl
  | cons slot rest ih =>
      cases slot with
      | none => simp at h
      | some b =>
          have hrest : none ∉ rest := by simpa using h
          simp only [fill, List.length_cons, ih hrest]

theorem fill_of_notMem {chain : List (Option α)} (a : α) (h : none ∉ chain) :
    fill chain a = chain ++ [some a] := by
  induction chain with
  | nil => rfl
  | cons slot rest ih =>
      rw [List.mem_cons, not_or] at h
      cases slot with
      | none => exact absurd rfl h.1
      | some b => rw [fill, ih h.2, List.cons_append]

/-- The empty slot nearest the head is the one that is filled. -/
theorem fill_append_none {before : List (Option α)} (h : none ∉ before)
    (after : List (Option α)) (a : α) :
    fill (before ++ none :: after) a = before ++ some a :: after := by
  induction before with
  | nil => rfl
  | cons slot rest ih =>
      rw [List.mem_cons, not_or] at h
      cases slot with
      | none => exact absurd rfl h.1
      | some b => rw [List.cons_append, fill, ih h.2, List.cons_append]

theorem fill_map (f : α → β) (chain : List (Option α)) (a : α) :
    (fill chain a).map (Option.map f) = fill (chain.map (Option.map f)) (f a) := by
  induction chain with
  | nil => rfl
  | cons slot rest ih =>
      cases slot with
      | none => rfl
      | some b => rw [fill, List.map_cons, ih, List.map_cons, Option.map_some, fill]

theorem mem_values_fill {chain : List (Option α)} {a b : α} :
    b ∈ values (fill chain a) ↔ b = a ∨ b ∈ values chain := by
  rw [← Multiset.mem_coe, ← Multiset.mem_coe]
  have hcontent : (values (fill chain a) : Multiset α) = a ::ₘ values chain :=
    content_fill chain a
  rw [hcontent, Multiset.mem_cons]

theorem nodup_values_fill {chain : List (Option α)} {a : α} (h : (values chain).Nodup)
    (ha : a ∉ values chain) : (values (fill chain a)).Nodup := by
  have hcontent : (values (fill chain a) : Multiset α) = a ::ₘ values chain :=
    content_fill chain a
  rw [← Multiset.coe_nodup, hcontent, Multiset.nodup_cons]
  exact ⟨ha, h⟩

/-- The values that were there keep their order: without the new one they are what they
were. -/
theorem filter_values_fill {chain : List (Option α)} {a : α} {p : α → Bool}
    (ha : p a = false) (hkept : ∀ b ∈ values chain, p b = true) :
    (values (fill chain a)).filter p = values chain := by
  induction chain with
  | nil => exact List.filter_cons_of_neg (Bool.eq_false_iff.mp ha)
  | cons slot rest ih =>
      cases slot with
      | none =>
          rw [values_none] at hkept
          rw [fill, values_some, List.filter_cons_of_neg (Bool.eq_false_iff.mp ha), values_none]
          exact List.filter_eq_self.mpr hkept
      | some b =>
          rw [values_some, List.forall_mem_cons] at hkept
          rw [fill, values_some, List.filter_cons_of_pos hkept.1, ih hkept.2, values_some]

/-! ## Removing -/

@[simp] theorem clear_nil (p : α → Bool) : clear p [] = [] := rfl

@[simp] theorem length_clear (p : α → Bool) (chain : List (Option α)) :
    (clear p chain).length = chain.length := by
  simp [clear]

theorem clear_cons (p : α → Bool) (slot : Option α) (rest : List (Option α)) :
    clear p (slot :: rest) = (slot.filter fun a => !p a) :: clear p rest := rfl

theorem values_clear (p : α → Bool) (chain : List (Option α)) :
    values (clear p chain) = (values chain).filter fun a => !p a := by
  induction chain with
  | nil => rfl
  | cons slot rest ih =>
      cases slot with
      | none => simpa [clear_cons] using ih
      | some a =>
          cases hp : p a with
          | true => simpa [clear_cons, Option.filter, hp] using ih
          | false => simpa [clear_cons, Option.filter, hp] using ih

theorem content_clear (p : α → Bool) (chain : List (Option α)) :
    content (clear p chain) = (content chain).filter fun a => p a = false := by
  rw [content, content, values_clear, Multiset.filter_coe]
  congr 1
  exact List.filter_congr fun a _ => by cases p a <;> rfl

theorem clear_map {f : α → β} {p : β → Bool} {q : α → Bool} {chain : List (Option α)}
    (h : ∀ a ∈ values chain, q a = p (f a)) :
    (clear q chain).map (Option.map f) = clear p (chain.map (Option.map f)) := by
  unfold clear
  rw [List.map_map, List.map_map]
  refine List.map_congr_left fun slot hslot => ?_
  cases slot with
  | none => rfl
  | some a =>
      have hq := h a (mem_values.mpr hslot)
      simp only [Function.comp_apply, Option.map_some, Option.filter_some, hq]
      split <;> rfl

theorem values_map (f : α → β) (chain : List (Option α)) :
    values (chain.map (Option.map f)) = (values chain).map f := by
  unfold values
  rw [List.filterMap_map, List.map_filterMap]
  rfl

/-! ## Order -/

theorem pair_sublist_filter {a b : α} {p : α → Bool} {l : List α} (ha : p a = true)
    (hb : p b = true) : [a, b].Sublist (l.filter p) ↔ [a, b].Sublist l := by
  constructor
  · exact fun h => h.trans List.filter_sublist
  · intro h
    have hfilter := h.filter p
    rwa [List.filter_cons_of_pos ha, List.filter_cons_of_pos hb, List.filter_nil] at hfilter

/-- Storing a new value does not change the order of two that were there. -/
theorem pair_sublist_fill [DecidableEq α] {chain : List (Option α)} {a b c : α}
    (hc : c ∉ values chain) (ha : a ∈ values chain) (hb : b ∈ values chain) :
    [a, b].Sublist (values (fill chain c)) ↔ [a, b].Sublist (values chain) := by
  have hne : ∀ d ∈ values chain, decide (d ≠ c) = true := by
    rintro d hd
    exact decide_eq_true fun heq => hc (heq ▸ hd)
  have hothers : (values (fill chain c)).filter (fun d => decide (d ≠ c)) = values chain :=
    filter_values_fill (by simp) hne
  rw [← hothers]
  refine Iff.symm (pair_sublist_filter ?_ ?_)
  · exact hne a ha
  · exact hne b hb

/-- Nor does removing others. -/
theorem pair_sublist_clear {chain : List (Option α)} {a b : α} {p : α → Bool}
    (ha : p a = false) (hb : p b = false) :
    [a, b].Sublist (values (clear p chain)) ↔ [a, b].Sublist (values chain) := by
  rw [values_clear]
  exact pair_sublist_filter (by rw [ha]; rfl) (by rw [hb]; rfl)

/-! ## Full chains -/

theorem length_values_le (chain : List (Option α)) : (values chain).length ≤ chain.length :=
  List.length_filterMap_le _ _

/-- The content is as large as the chain exactly when no slot is empty. -/
theorem card_content_eq_length_iff (chain : List (Option α)) :
    (content chain).card = chain.length ↔ none ∉ chain := by
  rw [card_content]
  induction chain with
  | nil => simp
  | cons slot rest ih =>
      cases slot with
      | none =>
          have hle := length_values_le rest
          simp only [values_none, List.length_cons, List.mem_cons, true_or, not_true_eq_false,
            iff_false]
          omega
      | some a => simpa using ih

/-! ## The length of a chain over a history

`peak` is the largest size the content has had; a chain that started as one empty slot
has exactly `max 1 peak` slots, because a slot is appended only to a full chain. -/

/-- The chain is as long as a history with this peak makes it. -/
structure Peaked (chain : List (Option α)) (peak : Nat) : Prop where
  length_eq : chain.length = max 1 peak
  card_le : (content chain).card ≤ peak

theorem peaked_initial : Peaked ([none] : List (Option α)) 0 where
  length_eq := rfl
  card_le := by simp [card_content]

theorem Peaked.fill {chain : List (Option α)} {peak : Nat} (h : Peaked chain peak) (a : α) :
    Peaked (fill chain a) (max peak ((content (fill chain a)).card)) where
  length_eq := by
    have hfull := card_content_eq_length_iff chain
    have hlength := h.length_eq
    have hcard := h.card_le
    rw [content_fill, Multiset.card_cons]
    by_cases hempty : none ∈ chain
    · rw [length_fill_of_mem a hempty]
      have hne : (content chain).card ≠ chain.length := fun he => hfull.mp he hempty
      have hle : (content chain).card ≤ chain.length := length_values_le chain
      omega
    · rw [length_fill_of_notMem a hempty]
      have heq : (content chain).card = chain.length := hfull.mpr hempty
      omega
  card_le := le_max_right _ _

theorem Peaked.clear {chain : List (Option α)} {peak : Nat} (h : Peaked chain peak)
    (p : α → Bool) : Peaked (clear p chain) peak where
  length_eq := by rw [length_clear, h.length_eq]
  card_le := by
    rw [content_clear]
    exact le_trans (Multiset.card_le_card (Multiset.filter_le _ _)) h.card_le

/-- No slot is empty exactly when the content is nonempty and at its peak. -/
theorem Peaked.none_notMem_iff {chain : List (Option α)} {peak : Nat} (h : Peaked chain peak) :
    none ∉ chain ↔ 0 < peak ∧ (content chain).card = peak := by
  rw [← card_content_eq_length_iff, h.length_eq]
  have hle := h.card_le
  omega

end JvmHookFramework.Foundation.SlotChain
