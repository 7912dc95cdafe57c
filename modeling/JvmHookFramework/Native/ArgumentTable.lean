/-
  Native/ArgumentTable.lean --- the parameter table under a sequence of `put*` calls.

  A put stores into the field of its own kind, in the cell at its index, and only when
  the cell carries that kind.  `TableOk` says what the cells hold after a sequence of
  calls: the last value stored, or what the callback read from the frame.
-/
import JvmHookFramework.Foundation.LastWrite
import JvmHookFramework.Jvm.Descriptor
import JvmHookFramework.Native.ArgumentNative

set_option autoImplicit false

namespace JvmHookFramework

open Foundation

theorem Kind.tag_injective {k k' : Kind} (h : k.tag = k'.tag) : k = k' := by
  cases k <;> cases k' <;> first
    | rfl
    | exact absurd h (by decide)

namespace ArgumentsNative

/-! ## The operations -/

/-- The value an operation asks the parameter to hold, widened. -/
def PutOp.value : PutOp → Local
  | .putInt value => .int value
  | .putByte value => .int (value.signExtend 32)
  | .putFloat value => .float value
  | .putShort value => .int (value.signExtend 32)
  | .putBoolean value => .int (if value then 1 else 0)
  | .putDouble value => .double value
  | .putLong value => .long value
  | .putChar value => .int (value.zeroExtend 32)
  | .putObject value => .object value

/-- The operation is that of the declared type. -/
def PutOp.Fits : PutOp → FieldType → Prop
  | .putInt _, .int | .putByte _, .byte | .putFloat _, .float | .putShort _, .short
  | .putBoolean _, .boolean | .putDouble _, .double | .putLong _, .long | .putChar _, .char
  | .putObject _, .object _ | .putObject _, .array _ => True
  | _, _ => False

/-- What the virtual machine lets the operation store. -/
def PutOp.stored : PutOp → Option Local
  | .putInt _ => none
  | op => some op.value

/-- The value that a call asks the parameter `x` to hold. -/
def putAt (x : Nat) (call : Int × PutOp) : Option Local :=
  if call.1 = x then some call.2.value else none

/-- The value that a call stores in the cell `x` when that carries kind `k`. -/
def storedAt (x : Nat) (k : Kind) (call : Int × PutOp) : Option Local :=
  if call.1 = x then call.2.stored.filter fun v => v.kind = k else none

theorem storedAt_of_ne {x : Nat} {call : Int × PutOp} (h : call.1 ≠ x) (k : Kind) :
    storedAt x k call = none := if_neg h

theorem storedAt_of_stored {x : Nat} {call : Int × PutOp} {v : Local} (h : call.1 = x)
    (hstored : call.2.stored = some v) (k : Kind) :
    storedAt x k call = if v.kind = k then some v else none := by
  unfold storedAt
  rw [if_pos h, hstored, Option.filter_some]
  simp only [decide_eq_true_eq]

theorem storedAt_of_unstored {x : Nat} {call : Int × PutOp} (hstored : call.2.stored = none)
    (k : Kind) : storedAt x k call = none := by
  unfold storedAt
  rw [hstored, Option.filter_none, ite_self]

theorem PutOp.Fits.kind {op : PutOp} {t : FieldType} (h : op.Fits t) :
    op.value.kind = t.kind := by
  cases op <;> cases t <;> first
    | rfl
    | exact h.elim

/-- Only `putInt` fits the type `int`, and no other operation is lost. -/
theorem PutOp.Fits.stored {op : PutOp} {t : FieldType} (h : op.Fits t) (hint : t ≠ .int) :
    op.stored = some op.value := by
  cases op with
  | putInt value => cases t <;> first
    | exact absurd rfl hint
    | exact h.elim
  | _ => rfl

theorem PutOp.Fits.stored_int {op : PutOp} (h : op.Fits .int) : op.stored = none := by
  cases op with
  | putInt value => rfl
  | _ => exact h.elim

/-! ## The setters -/

/-- What the body of a setter does with its cell: it stores `v`. -/
structure Stores (v : Local)
    (store : CallParameter → JniRefs → CallParameter × JniRefs) : Prop where
  type : ∀ px refs, (store px refs).1.type = px.type
  slot : ∀ px refs, (store px refs).1.slot = px.slot
  edited : ∀ px refs, (store px refs).1.edited = true
  extends_refs : ∀ px (refs : JniRefs), refs.Extends (store px refs).2
  known : ∀ (px : CallParameter) (refs : JniRefs), px.Known refs →
    (store px refs).1.Known (store px refs).2
  read : ∀ px (refs : JniRefs), (store px refs).1.read (store px refs).2 v.kind = some v

/-- A setter that leaves the references alone. -/
theorem Stores.of_field {v : Local} {f : CallParameter → CallParameter}
    (htype : ∀ px, (f px).type = px.type) (hslot : ∀ px, (f px).slot = px.slot)
    (hedited : ∀ px, (f px).edited = true) (hvalue : ∀ px, (f px).value = px.value)
    (hread : ∀ px refs, (f px).read refs v.kind = some v) :
    Stores v fun px refs => (f px, refs) where
  type := fun px _ => htype px
  slot := fun px _ => hslot px
  edited := fun px _ => hedited px
  extends_refs := fun _ refs => JniRefs.Extends.refl refs
  known := by
    intro px refs hknown jo hjo
    exact hknown jo (hvalue px ▸ hjo)
  read := hread

theorem stores_putObject (value : Option Obj) :
    Stores (.object value) fun px refs =>
      let refs := if px.edited then refs.delete px.value else refs
      let (ref, refs) := refs.new value
      ({ px with edited := true, value := some ref }, refs) where
  type := fun _ _ => rfl
  slot := fun _ _ => rfl
  edited := fun _ _ => rfl
  extends_refs := fun px refs => (px.extends_drop refs).trans (JniRefs.extends_new _ value)
  known := by
    intro px refs _ jo hjo
    obtain rfl := Option.some.inj hjo
    exact JniRefs.known_new_self _ value
  read := fun _ _ => congrArg (some ∘ Local.object) (JniRefs.denote_new _ value)

/-- Every operation but `putInt` is the shared body at its own tag. -/
theorem PutOp.call_eq_put {op : PutOp} {v : Local} (h : op.stored = some v) :
    ∃ store, op.call = put v.kind.tag store ∧ Stores v store := by
  cases op with
  | putInt value => cases h
  | putObject value =>
      obtain rfl := Option.some.inj h
      exact ⟨_, rfl, stores_putObject value⟩
  | putBoolean value =>
      obtain rfl := Option.some.inj h
      unfold PutOp.call
      refine ⟨_, rfl, ?_⟩
      refine .of_field (fun _ => rfl) (fun _ => rfl) (fun _ => rfl) (fun _ => rfl) ?_
      intro px refs
      cases value <;> rfl
  | _ =>
      obtain rfl := Option.some.inj h
      unfold PutOp.call
      refine ⟨_, rfl, ?_⟩
      exact .of_field (fun _ => rfl) (fun _ => rfl) (fun _ => rfl) (fun _ => rfl)
        fun _ _ => rfl

/-- `putInt` never reaches native code. -/
theorem PutOp.call_of_unstored {op : PutOp} (h : op.stored = none)
    (p : Option (List CallParameter)) (size index : Int) (refs : JniRefs) :
    (op.call p size index refs).2 = (p, refs) := by
  cases op with
  | putInt value => rfl
  | _ => cases h

section

variable {tag : Char} {store : CallParameter → JniRefs → CallParameter × JniRefs}
  {p : Option (List CallParameter)} {table : List CallParameter} {size index : Int}
  {refs : JniRefs}

/-- A setter does nothing outside the table, or without one. -/
theorem put_of_absent (habsent : index < 0 ∨ size ≤ index ∨ p = none) :
    put tag store p size index refs = (.void, p, refs) := by
  unfold put
  by_cases hnegative : index < 0
  · rw [if_pos hnegative]
  · rw [if_neg hnegative]
    cases p with
    | none => rfl
    | some table =>
        have hpast : ¬ index < size := by
          rcases habsent with h | h | h
          · exact absurd h hnegative
          · exact Int.not_lt.mpr h
          · cases h
        exact if_neg hpast

/-- A setter on a cell tests the tag, and stores. -/
theorem put_of_cell {x : Nat} {px : CallParameter} (hpx : table[x]? = some px) :
    put tag store (some table) table.length x refs =
      if px.type ≠ tag then (.thrown .illegalArgumentException, some table, refs)
      else (.void, some (table.set x (store px refs).1), (store px refs).2) := by
  have hlt : (x : Int) < table.length := Int.ofNat_lt.mpr (List.getElem?_eq_some_iff.mp hpx).1
  unfold put
  rw [if_neg (Int.not_lt.mpr (Int.natCast_nonneg x))]
  simp only [if_pos hlt, Int.toNat_natCast, hpx]

/-- An index that is not outside a table is that of a cell. -/
theorem exists_cell (hinside : ¬ (index < 0 ∨ (table.length : Int) ≤ index)) :
    ∃ (x : Nat) (px : CallParameter), index = x ∧ table[x]? = some px := by
  rw [not_or, Int.not_lt, Int.not_le] at hinside
  obtain ⟨x, rfl⟩ := Int.eq_ofNat_of_zero_le hinside.1
  exact ⟨x, _, rfl, List.getElem?_eq_getElem (Int.ofNat_lt.mp hinside.2)⟩

end

/-- A setter leaves everything as it is, or stores into the cell at its index. -/
theorem put_cases (tag : Char) (store : CallParameter → JniRefs → CallParameter × JniRefs)
    (table : List CallParameter) (index : Int) (refs : JniRefs) :
    ((put tag store (some table) table.length index refs).2 = (some table, refs) ∧
      ∀ (x : Nat) px, index = x → table[x]? = some px → px.type ≠ tag) ∨
    ∃ (x : Nat) (px : CallParameter), index = x ∧ table[x]? = some px ∧ px.type = tag ∧
      (put tag store (some table) table.length index refs).2 =
        (some (table.set x (store px refs).1), (store px refs).2) := by
  by_cases houtside : index < 0 ∨ (table.length : Int) ≤ index
  · rw [put_of_absent (houtside.imp_right Or.inl)]
    refine Or.inl ⟨rfl, fun x px hx hpx => ?_⟩
    have hlt := (List.getElem?_eq_some_iff.mp hpx).1
    omega
  · obtain ⟨x, px, rfl, hpx⟩ := exists_cell houtside
    rw [put_of_cell hpx]
    by_cases htype : px.type = tag
    · rw [if_neg (not_not.mpr htype)]
      exact Or.inr ⟨x, px, rfl, hpx, htype, rfl⟩
    · rw [if_pos htype]
      refine Or.inl ⟨rfl, fun y py hy hpy => ?_⟩
      obtain rfl := Int.ofNat.inj hy
      exact Option.some.inj (hpx.symm.trans hpy) ▸ htype

theorem put_extends {tag : Char} {store : CallParameter → JniRefs → CallParameter × JniRefs}
    (hstore : ∀ px (refs : JniRefs), refs.Extends (store px refs).2)
    (p : Option (List CallParameter)) (size index : Int) (refs : JniRefs) :
    refs.Extends (put tag store p size index refs).2.2 := by
  unfold put
  split
  · exact JniRefs.Extends.refl refs
  · cases p with
    | none => exact JniRefs.Extends.refl refs
    | some table =>
        dsimp only
        split
        · split
          · exact JniRefs.Extends.refl refs
          · split
            · exact JniRefs.Extends.refl refs
            · exact hstore _ refs
        · exact JniRefs.Extends.refl refs

theorem PutOp.call_extends (op : PutOp) (p : Option (List CallParameter)) (size index : Int)
    (refs : JniRefs) : refs.Extends (op.call p size index refs).2.2 := by
  cases hstored : op.stored with
  | none =>
      rw [PutOp.call_of_unstored hstored]
      exact JniRefs.Extends.refl refs
  | some v =>
      obtain ⟨store, hput, hstores⟩ := PutOp.call_eq_put hstored
      rw [hput]
      exact put_extends hstores.extends_refs p size index refs

theorem PutOp.length_call (op : PutOp) (table : List CallParameter) (index : Int)
    (refs : JniRefs) :
    ((op.call (some table) table.length index refs).2.1.getD table).length = table.length := by
  cases hstored : op.stored with
  | none =>
      rw [PutOp.call_of_unstored hstored]
      rfl
  | some v =>
      obtain ⟨store, hput, _⟩ := PutOp.call_eq_put hstored
      rw [hput]
      rcases put_cases v.kind.tag store table index refs with
        ⟨hsame, _⟩ | ⟨x, px, _, _, _, hset⟩
      · rw [hsame]
        rfl
      · rw [hset]
        exact List.length_set

/-! ## The table -/

/-- A cell of the table after the calls of `log`; `p₀` is what the callback made. -/
structure CellOk (refs : JniRefs) (log : List (Int × PutOp)) (x : Nat)
    (p₀ p : CallParameter) : Prop where
  type : p.type = p₀.type
  slot : p.slot = p₀.slot
  known : p.Known refs
  edited : ∀ k, p₀.type = k.tag → (p.edited = true ↔ lastSome (storedAt x k) log ≠ none)
  read : ∀ k, p₀.type = k.tag →
    p.read refs k = (lastSome (storedAt x k) log).or (p₀.read refs k)

/-- The table after the calls of `log`, made of the cells of `table₀`. -/
structure TableOk (refs : JniRefs) (log : List (Int × PutOp))
    (table₀ table : List CallParameter) : Prop where
  length : table.length = table₀.length
  known : ∀ p₀ ∈ table₀, p₀.Known refs
  cell : ∀ (x : Nat) p₀ p, table₀[x]? = some p₀ → table[x]? = some p → CellOk refs log x p₀ p

section

variable {refs refs' : JniRefs} {log : List (Int × PutOp)} {x : Nat} {p₀ p : CallParameter}
  {table₀ table : List CallParameter}

theorem tableOk_nil (hknown : ∀ p₀ ∈ table₀, p₀.Known refs)
    (hedited : ∀ p₀ ∈ table₀, p₀.edited = false) : TableOk refs [] table₀ table₀ where
  length := rfl
  known := hknown
  cell := by
    intro x p₀ p hp₀ hp
    obtain rfl := Option.some.inj (hp₀.symm.trans hp)
    have hmem := List.mem_of_getElem? hp₀
    refine ⟨rfl, rfl, hknown p₀ hmem, fun k _ => ?_, fun k _ => rfl⟩
    simp [hedited p₀ hmem]

theorem CellOk.extends (h : CellOk refs log x p₀ p) (hknown : p₀.Known refs)
    (hextends : refs.Extends refs') : CellOk refs' log x p₀ p where
  type := h.type
  slot := h.slot
  known := h.known.extends hextends
  edited := h.edited
  read := by
    intro k hk
    rw [CallParameter.read_extends hextends h.known, CallParameter.read_extends hextends hknown]
    exact h.read k hk

theorem TableOk.extends (h : TableOk refs log table₀ table) (hextends : refs.Extends refs') :
    TableOk refs' log table₀ table where
  length := h.length
  known := fun p₀ hp₀ => (h.known p₀ hp₀).extends hextends
  cell := fun x p₀ p hp₀ hp =>
    (h.cell x p₀ p hp₀ hp).extends (h.known p₀ (List.mem_of_getElem? hp₀)) hextends

/-- A call that stores nothing in the cell leaves it as it is. -/
theorem CellOk.skip (h : CellOk refs log x p₀ p) {call : Int × PutOp}
    (hskip : ∀ k, p₀.type = k.tag → storedAt x k call = none) :
    CellOk refs (log ++ [call]) x p₀ p where
  type := h.type
  slot := h.slot
  known := h.known
  edited := by
    intro k hk
    rw [lastSome_concat, hskip k hk, Option.none_or]
    exact h.edited k hk
  read := by
    intro k hk
    rw [lastSome_concat, hskip k hk, Option.none_or]
    exact h.read k hk

theorem TableOk.skip (h : TableOk refs log table₀ table) {call : Int × PutOp}
    (hskip : ∀ (x : Nat) p₀ p, table₀[x]? = some p₀ → table[x]? = some p →
      ∀ k, p₀.type = k.tag → storedAt x k call = none) :
    TableOk refs (log ++ [call]) table₀ table where
  length := h.length
  known := h.known
  cell := fun x p₀ p hp₀ hp => (h.cell x p₀ p hp₀ hp).skip (hskip x p₀ p hp₀ hp)

/-- A call on the cell stores its value. -/
theorem CellOk.store (h : CellOk refs log x p₀ p) {call : Int × PutOp} {v : Local}
    {store : CallParameter → JniRefs → CallParameter × JniRefs} (hstores : Stores v store)
    (htype : p.type = v.kind.tag) (hcall : storedAt x v.kind call = some v) :
    CellOk (store p refs).2 (log ++ [call]) x p₀ (store p refs).1 := by
  have hkind : ∀ k : Kind, p₀.type = k.tag → k = v.kind :=
    fun k hk => Kind.tag_injective (hk.symm.trans (h.type.symm.trans htype))
  refine ⟨(hstores.type p refs).trans h.type, (hstores.slot p refs).trans h.slot,
    hstores.known p refs h.known, fun k hk => ?_, fun k hk => ?_⟩
  · rw [hkind k hk, lastSome_concat, hcall]
    simp [hstores.edited]
  · rw [hkind k hk, lastSome_concat, hcall]
    exact hstores.read p refs

/-- Every call is one more entry of the log. -/
theorem TableOk.call (h : TableOk refs log table₀ table) (call : Int × PutOp) :
    ∃ table', (call.2.call (some table) table.length call.1 refs).2.1 = some table' ∧
      TableOk (call.2.call (some table) table.length call.1 refs).2.2 (log ++ [call])
        table₀ table' := by
  cases hstored : call.2.stored with
  | none =>
      have hcall : (call.2.call (some table) table.length call.1 refs).2 =
          (some table, refs) := PutOp.call_of_unstored hstored _ _ _ _
      rw [hcall]
      exact ⟨table, rfl, h.skip fun x p₀ p _ _ k _ =>
        storedAt_of_unstored hstored k⟩
  | some v =>
      obtain ⟨store, hput, hstores⟩ := PutOp.call_eq_put hstored
      rw [hput]
      rcases put_cases v.kind.tag store table call.1 refs with
        ⟨hsame, hother⟩ | ⟨y, py, hindex, hpy, htype, hset⟩
      · rw [hsame]
        refine ⟨table, rfl, h.skip fun x p₀ p hp₀ hp k hk => ?_⟩
        by_cases hx : call.1 = x
        · have hkind : v.kind ≠ k := by
            rintro rfl
            exact hother x p hx hp ((h.cell x p₀ p hp₀ hp).type.trans hk)
          rw [storedAt_of_stored hx hstored, if_neg hkind]
        · exact storedAt_of_ne hx k
      · rw [hset]
        have hextends := hstores.extends_refs py refs
        refine ⟨_, rfl, ⟨?_, (h.extends hextends).known, fun x p₀ p hp₀ hp => ?_⟩⟩
        · rw [List.length_set, h.length]
        · by_cases hx : y = x
          · subst hx
            have hlt := (List.getElem?_eq_some_iff.mp hpy).1
            rw [List.getElem?_set_self hlt] at hp
            obtain rfl := Option.some.inj hp
            refine (h.cell y p₀ py hp₀ hpy).store hstores htype ?_
            rw [storedAt_of_stored hindex hstored, if_pos rfl]
          · rw [List.getElem?_set_ne hx] at hp
            refine ((h.extends hextends).cell x p₀ p hp₀ hp).skip fun k _ => ?_
            exact storedAt_of_ne (fun heq => hx (Int.ofNat.inj (hindex.symm.trans heq))) k

end

end ArgumentsNative

end JvmHookFramework
