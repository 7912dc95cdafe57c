/-
  Native/IntRanges.lean --- the ranges of the small integer types under rewriting.

  Parameters of type `byte`, `short`, `char`, `boolean` and `int` share one tag, so the
  test of a setter lets any of the small types be stored into any other.  What the
  write-back loop hands to `SetLocalInt` is the argument of the last setter that the
  cell accepted, widened; whether it lies in the range of the declared type depends on
  the two types and the argument.
-/
import JvmHookFramework.Native.WriteBack

set_option autoImplicit false

namespace JvmHookFramework

open Foundation

/-- The integers that a variable of the type may hold. -/
def FieldType.InRange : FieldType → Int → Prop
  | .byte, v => -128 ≤ v ∧ v ≤ 127
  | .short, v => -32768 ≤ v ∧ v ≤ 32767
  | .char, v => 0 ≤ v ∧ v ≤ 65535
  | .boolean, v => 0 ≤ v ∧ v ≤ 1
  | _, _ => True

namespace ArgumentsNative

/-- A parameter of the type may hold the argument of the setter. -/
def PutOp.Admitted (op : PutOp) (t : FieldType) : Prop :=
  match op with
  | .putByte value =>
      match t with
      | .char => 0 ≤ value.toInt
      | .boolean => 0 ≤ value.toInt ∧ value.toInt ≤ 1
      | _ => True
  | .putShort value =>
      match t with
      | .byte => -128 ≤ value.toInt ∧ value.toInt ≤ 127
      | .char => 0 ≤ value.toInt
      | .boolean => 0 ≤ value.toInt ∧ value.toInt ≤ 1
      | _ => True
  | .putChar value =>
      match t with
      | .byte => value.toNat ≤ 127
      | .short => value.toNat ≤ 32767
      | .boolean => value.toNat ≤ 1
      | _ => True
  | _ => True

/-! ## Widening -/

theorem toInt_signExtend_byte (value : BitVec 8) :
    (value.signExtend 32).toInt = value.toInt ∧ -128 ≤ value.toInt ∧ value.toInt ≤ 127 := by
  refine ⟨BitVec.toInt_signExtend_of_le (by decide), ?_, ?_⟩
  · exact value.le_toInt
  · exact Int.le_of_lt_add_one value.toInt_lt

theorem toInt_signExtend_short (value : BitVec 16) :
    (value.signExtend 32).toInt = value.toInt ∧ -32768 ≤ value.toInt ∧ value.toInt ≤ 32767 := by
  refine ⟨BitVec.toInt_signExtend_of_le (by decide), ?_, ?_⟩
  · exact value.le_toInt
  · exact Int.le_of_lt_add_one value.toInt_lt

theorem toInt_zeroExtend_char (value : BitVec 16) :
    (value.zeroExtend 32).toInt = value.toNat ∧ value.toNat ≤ 65535 := by
  have hlt : value.toNat < 2 ^ 16 := value.isLt
  have hnat : (value.zeroExtend 32).toNat = value.toNat :=
    BitVec.toNat_setWidth_of_le (by decide)
  refine ⟨?_, Nat.le_of_lt_succ hlt⟩
  rw [BitVec.toInt_eq_toNat_of_lt (by omega), hnat]

/-- What an accepted setter stores lies in the range of the declared type exactly when the
type admits its argument. -/
theorem PutOp.inRange_iff {op : PutOp} {v : BitVec 32} (h : op.stored = some (.int v))
    (t : FieldType) : t.InRange v.toInt ↔ op.Admitted t := by
  cases op with
  | putByte value =>
      obtain rfl := Local.int.inj (Option.some.inj h)
      obtain ⟨hwidened, hle, hge⟩ := toInt_signExtend_byte value
      rw [hwidened]
      cases t <;> simp only [FieldType.InRange, Admitted, iff_true] <;> omega
  | putShort value =>
      obtain rfl := Local.int.inj (Option.some.inj h)
      obtain ⟨hwidened, hle, hge⟩ := toInt_signExtend_short value
      rw [hwidened]
      cases t <;> simp only [FieldType.InRange, Admitted, iff_true] <;> omega
  | putChar value =>
      obtain rfl := Local.int.inj (Option.some.inj h)
      obtain ⟨hwidened, hge⟩ := toInt_zeroExtend_char value
      rw [hwidened]
      cases t <;> simp only [FieldType.InRange, Admitted, iff_true] <;> omega
  | putBoolean value =>
      obtain rfl := Local.int.inj (Option.some.inj h)
      cases value <;> cases t <;> simp [FieldType.InRange, Admitted]
  | _ => cases h

/-! ## The last setter that a cell accepted -/

/-- The operation of a call that the cell `x` accepts when it carries kind `k`. -/
def acceptedAt (x : Nat) (k : Kind) (call : Int × PutOp) : Option PutOp :=
  (storedAt x k call).map fun _ => call.2

theorem stored_of_storedAt {x : Nat} {k : Kind} {call : Int × PutOp} {v : Local}
    (h : storedAt x k call = some v) : call.2.stored = some v ∧ v.kind = k := by
  unfold storedAt at h
  split at h
  · rw [Option.filter_eq_some_iff, decide_eq_true_eq] at h
    exact h
  · cases h

theorem PutOp.value_of_stored {op : PutOp} {v : Local} (h : op.stored = some v) :
    op.value = v := by
  cases op with
  | putInt value => cases h
  | _ => exact Option.some.inj h

theorem storedAt_eq_map (x : Nat) (k : Kind) :
    storedAt x k = fun call => (acceptedAt x k call).map PutOp.value := by
  funext call
  unfold acceptedAt
  cases hstored : storedAt x k call with
  | none => rfl
  | some v =>
      rw [Option.map_some, Option.map_some, PutOp.value_of_stored (stored_of_storedAt hstored).1]

theorem lastSome_storedAt_eq_map (x : Nat) (k : Kind) (log : List (Int × PutOp)) :
    lastSome (storedAt x k) log = (lastSome (acceptedAt x k) log).map PutOp.value := by
  rw [storedAt_eq_map, lastSome_map]

/-- An operation that an integer cell accepted stores an integer. -/
theorem exists_of_accepted {x : Nat} {log : List (Int × PutOp)} {op : PutOp}
    (h : lastSome (acceptedAt x .int) log = some op) :
    ∃ v, op.stored = some (.int v) ∧ op.value = .int v := by
  obtain ⟨call, _, hcall⟩ := exists_of_lastSome h
  obtain ⟨w, hw, rfl⟩ := Option.map_eq_some_iff.mp hcall
  obtain ⟨hstored, hkind⟩ := stored_of_storedAt hw
  cases w with
  | int v => exact ⟨v, hstored, PutOp.value_of_stored hstored⟩
  | _ => cases hkind

end ArgumentsNative

/-! ## The calls of SetLocalInt -/

open ArgumentsNative

/-- The arguments of the `SetLocalInt` call of a pass of the write-back loop. -/
def CallParameter.setLocalInt? (p : CallParameter) : Option (Nat × Cell (BitVec 32)) :=
  if p.edited = true ∧ p.type = JVM_SIGNATURE_INT then some (p.slot, p.iv) else none

/-- The `SetLocalInt` calls of the write-back loop, in order. -/
def setLocalInts (parameters : List CallParameter) : List (Nat × Cell (BitVec 32)) :=
  parameters.filterMap CallParameter.setLocalInt?

/-- A pass that makes the call does nothing else. -/
theorem writeParameter_of_setLocalInt {p : CallParameter} {call : Nat × Cell (BitVec 32)}
    (h : p.setLocalInt? = some call) (frame : Locals) (refs : JniRefs) :
    writeParameter (frame, refs) p = (frame.SetLocalInt call.1 call.2, refs) := by
  unfold CallParameter.setLocalInt? at h
  split at h
  · rename_i hint
    obtain rfl := Option.some.inj h
    unfold writeParameter
    simp only [if_pos hint.1, if_pos hint.2]
  · cases h

theorem mem_setLocalInts {parameters : List CallParameter} {slot : Nat}
    {iv : Cell (BitVec 32)} :
    (slot, iv) ∈ setLocalInts parameters ↔ ∃ p ∈ parameters, p.edited = true ∧
      p.type = JVM_SIGNATURE_INT ∧ p.slot = slot ∧ p.iv = iv := by
  unfold setLocalInts CallParameter.setLocalInt?
  rw [List.mem_filterMap]
  refine exists_congr fun p => and_congr_right fun _ => ?_
  rw [Option.ite_none_right_eq_some, Option.some.injEq, Prod.mk.injEq, and_assoc]

section

variable {refs : JniRefs} {log : List (Int × PutOp)} {frame : Locals} {first x : Nat}
  {params : List FieldType} {table : List CallParameter} {t : FieldType} {p : CallParameter}

/-- An edited integer cell holds what the last setter it accepted has stored. -/
theorem ArgumentsNative.CellOk.accepted {p₀ : CallParameter} (hok : CellOk refs log x p₀ p)
    (htype : p₀.type = JVM_SIGNATURE_INT) :
    (p.edited = true ↔ ∃ op, lastSome (acceptedAt x .int) log = some op) ∧
      ∀ op v, lastSome (acceptedAt x .int) log = some op → op.value = .int v →
        p.iv = some v := by
  have hedited := hok.edited .int htype
  have hread := hok.read .int htype
  rw [lastSome_storedAt_eq_map] at hedited hread
  refine ⟨hedited.trans ?_, fun op v hop hv => ?_⟩
  · rw [ne_eq, Option.map_eq_none_iff]
    exact Option.ne_none_iff_exists'
  · rw [hop, Option.map_some, hv, Option.some_or] at hread
    obtain ⟨w, hw, hwv⟩ := Option.map_eq_some_iff.mp hread
    rw [hw, Local.int.inj hwv]

theorem exists_of_mem_setLocalInts
    (htable : TableOk refs log (cellsOf frame first (scanned params)) table) {slot : Nat}
    {iv : Cell (BitVec 32)} (h : (slot, iv) ∈ setLocalInts table) :
    ∃ y u op v, (scanned params)[y]? = some u ∧ u.kind = .int ∧
      slot = slotAt first params y ∧ lastSome (acceptedAt y .int) log = some op ∧
      op.stored = some (.int v) ∧ iv = some v := by
  obtain ⟨p, hmem, hedited, htype, rfl, rfl⟩ := mem_setLocalInts.mp h
  obtain ⟨y, hy⟩ := List.mem_iff_getElem?.mp hmem
  have hlt : y < (scanned params).length := by
    have hlength := htable.length.trans (length_cellsOf _ _ _)
    exact hlength ▸ (List.getElem?_eq_some_iff.mp hy).1
  have hu := List.getElem?_eq_getElem hlt
  obtain ⟨p', hp', hslot, hok⟩ := htable.exists_cell_scanned hu
  obtain rfl := Option.some.inj (hy.symm.trans hp')
  have htag := ((scanned params)[y]).cell_type frame (slotAt first params y)
  have hkind : ((scanned params)[y]).kind = .int :=
    Kind.tag_injective (htag.symm.trans (hok.type.symm.trans htype))
  obtain ⟨hiff, hiv⟩ := hok.accepted (hok.type.symm.trans htype)
  obtain ⟨op, hop⟩ := hiff.mp hedited
  obtain ⟨v, hstored, hvalue⟩ := exists_of_accepted hop
  exact ⟨y, _, op, v, hu, hkind, hslot, hop, hstored, hiv op v hop hvalue⟩

theorem mem_setLocalInts_of_accepted
    (htable : TableOk refs log (cellsOf frame first (scanned params)) table)
    (ht : (scanned params)[x]? = some t) (hkind : t.kind = .int) {op : PutOp} {v : BitVec 32}
    (hop : lastSome (acceptedAt x .int) log = some op) (hvalue : op.value = .int v) :
    (slotAt first params x, some v) ∈ setLocalInts table := by
  obtain ⟨p, hp, hslot, hok⟩ := htable.exists_cell_scanned ht
  have htype : (t.cell frame (slotAt first params x)).type = JVM_SIGNATURE_INT := by
    rw [t.cell_type, hkind]
    rfl
  obtain ⟨hiff, hiv⟩ := hok.accepted htype
  exact mem_setLocalInts.mpr ⟨p, List.mem_of_getElem? hp, hiff.mpr ⟨op, hop⟩,
    hok.type.trans htype, hslot, hiv op v hop hvalue⟩

end

/-! ## Ranges under the write-back -/

/-- The write-back loop hands `SetLocalInt` only values of the declared types, and a local
that held one holds one afterwards. -/
structure RangesKept (first : Nat) (params : List FieldType)
    (calls : List (Nat × Cell (BitVec 32))) (frame frame' : Locals) : Prop where
  stored : ∀ x t iv, params[x]? = some t → (slotAt first params x, iv) ∈ calls →
    ∃ v, iv = some v ∧ t.InRange v.toInt
  locals : ∀ x t v, params[x]? = some t → t.kind = .int →
    frame (slotAt first params x) = some (.int v) → t.InRange v.toInt →
      ∃ v', frame' (slotAt first params x) = some (.int v') ∧ t.InRange v'.toInt

/-- For each integer parameter of the table, the declared type admits the argument of the
last setter that its cell accepted. -/
def PutsAdmitted (params : List FieldType) (log : List (Int × PutOp)) : Prop :=
  ∀ x t op, (scanned params)[x]? = some t → t.kind = .int →
    lastSome (acceptedAt x .int) log = some op → op.Admitted t

section

variable {refs : JniRefs} {log : List (Int × PutOp)} {frame : Locals} {first : Nat}
  {params : List FieldType} {table : List CallParameter}

/-- What the loop leaves in the slot of an integer parameter. -/
theorem writeParameters_int
    (htable : TableOk refs log (cellsOf frame first (scanned params)) table) {x : Nat}
    {t : FieldType} (ht : params[x]? = some t) (hkind : t.kind = .int) {v : BitVec 32}
    (hslot : frame (slotAt first params x) = some (.int v)) :
    (writeParameters table frame refs).1 (slotAt first params x) = some (.int v) ∨
      ∃ op, (scanned params)[x]? = some t ∧ lastSome (acceptedAt x .int) log = some op ∧
        (writeParameters table frame refs).1 (slotAt first params x) = some op.value := by
  have hprefix := scanned_prefix_self params
  by_cases hlt : x < (scanned params).length
  · have hscanned : (scanned params)[x]? = some t := by
      obtain ⟨rest, hrest⟩ := hprefix
      rwa [← hrest, List.getElem?_append_left hlt] at ht
    rw [← slotAt_prefix_eq hprefix hlt] at hslot ⊢
    have hafter := writeParameters_slotAt htable hscanned hslot hkind.symm
    rw [hkind, lastSome_storedAt_eq_map, hslot] at hafter
    cases hlast : lastSome (acceptedAt x .int) log with
    | none =>
        rw [hlast, Option.map_none, Option.none_or] at hafter
        exact Or.inl hafter
    | some op =>
        rw [hlast, Option.map_some, Option.some_or] at hafter
        exact Or.inr ⟨op, hscanned, rfl, hafter⟩
  · refine Or.inl ?_
    rw [writeParameters_other htable, hslot]
    intro y hy heq
    rw [slotAt_prefix_eq hprefix hy] at heq
    have hy' := getElem?_of_scanned (List.getElem?_eq_getElem hy)
    exact hlt (slotAt_inj ht hy' heq ▸ hy)

/-- The write-back keeps to the ranges exactly when the last setters that the cells
accepted do. -/
theorem rangesKept_iff
    (htable : TableOk refs log (cellsOf frame first (scanned params)) table) :
    RangesKept first params (setLocalInts table) frame (writeParameters table frame refs).1 ↔
      PutsAdmitted params log := by
  constructor
  · intro h x t op ht hkind hop
    obtain ⟨v, hstored, hvalue⟩ := exists_of_accepted hop
    obtain ⟨w, hw, hrange⟩ := h.stored x t (some v) (getElem?_of_scanned ht)
      (mem_setLocalInts_of_accepted htable ht hkind hop hvalue)
    obtain rfl := Option.some.inj hw
    exact (PutOp.inRange_iff hstored t).mp hrange
  · intro h
    refine ⟨fun x t iv ht hmem => ?_, fun x t v ht hkind hslot hrange => ?_⟩
    · obtain ⟨y, u, op, v, hu, hkind, hslot, hop, hstored, rfl⟩ :=
        exists_of_mem_setLocalInts htable hmem
      obtain rfl := slotAt_inj ht (getElem?_of_scanned hu) hslot
      obtain rfl := Option.some.inj (ht.symm.trans (getElem?_of_scanned hu))
      exact ⟨v, rfl, (PutOp.inRange_iff hstored t).mpr (h x t op hu hkind hop)⟩
    · rcases writeParameters_int htable ht hkind hslot with hkept | ⟨op, hscanned, hop, hafter⟩
      · exact ⟨v, hkept, hrange⟩
      · obtain ⟨w, hstored, hvalue⟩ := exists_of_accepted hop
        rw [hvalue] at hafter
        exact ⟨w, hafter, (PutOp.inRange_iff hstored t).mpr (h x t op hscanned hkind hop)⟩

end

end JvmHookFramework
