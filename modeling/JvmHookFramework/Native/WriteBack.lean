/-
  Native/WriteBack.lean --- what the write-back loop does to the frame.

  Every parameter has slots of its own.  The loop stores the field of an edited cell
  into the cell's slot and touches no other slot, so afterwards the frame holds, for
  each parameter, the last value stored in its cell.
-/
import Mathlib.Data.List.Nodup
import JvmHookFramework.Native.ArgumentTable
import JvmHookFramework.Native.DescriptorWalk

set_option autoImplicit false

namespace JvmHookFramework

open Foundation ArgumentsNative

/-! ## One pass of the loop -/

section

variable {frame : Locals} {refs : JniRefs} {p : CallParameter}

/-- The case of the `switch` for a kind. -/
def CallParameter.set (p : CallParameter) (frame : Locals) (refs : JniRefs) : Kind → Locals
  | .int => frame.SetLocalInt p.slot p.iv
  | .float => frame.SetLocalFloat p.slot p.jf
  | .long => frame.SetLocalLong p.slot p.lv
  | .double => frame.SetLocalDouble p.slot p.jd
  | .object => frame.SetLocalObject p.slot (p.value.map refs.denote)

theorem writeParameter_tag {k : Kind} (hedited : p.edited = true) (htype : p.type = k.tag) :
    (writeParameter (frame, refs) p).1 = p.set frame refs k := by
  unfold writeParameter
  simp only [if_pos hedited, htype]
  cases k <;> rfl

/-- Storing a value of the kind that the slot holds. -/
theorem writeParameter_of_edited {k : Kind} {v : Local} (hedited : p.edited = true)
    (htype : p.type = k.tag) (hslot : frame p.slot = some v) (hkind : v.kind = k) :
    (writeParameter (frame, refs) p).1 = Function.update frame p.slot (p.read refs k) := by
  rw [writeParameter_tag hedited htype]
  subst hkind
  cases v with
  | int v => simp only [CallParameter.set, Local.kind, Locals.SetLocalInt, hslot]; rfl
  | float v => simp only [CallParameter.set, Local.kind, Locals.SetLocalFloat, hslot]; rfl
  | long v => simp only [CallParameter.set, Local.kind, Locals.SetLocalLong, hslot]; rfl
  | double v => simp only [CallParameter.set, Local.kind, Locals.SetLocalDouble, hslot]; rfl
  | object o =>
      simp only [CallParameter.set, Local.kind, Locals.SetLocalObject, hslot, Option.map_map]
      rfl

theorem writeParameter_of_unedited (state : Locals × JniRefs) (hedited : ¬ p.edited = true) :
    writeParameter state p = state := by
  unfold writeParameter
  simp only [if_neg hedited]

theorem CallParameter.set_of_ne {slot : Nat} (hne : slot ≠ p.slot) (k : Kind) :
    p.set frame refs k slot = frame slot := by
  have hother : ∀ v, Function.update frame p.slot v slot = frame slot :=
    fun v => Function.update_of_ne hne v frame
  rcases hslot : frame p.slot with _ | (_ | _ | _ | _ | _) <;> cases k <;>
    simp only [set, Locals.SetLocalInt, Locals.SetLocalFloat, Locals.SetLocalLong,
      Locals.SetLocalDouble, Locals.SetLocalObject, hslot, hother]

/-- A pass stores by one case of the `switch`, or not at all. -/
theorem writeParameter_cases (state : Locals × JniRefs) (p : CallParameter) :
    ((writeParameter state p).1 = state.1 ∨
      ∃ k, (writeParameter state p).1 = p.set state.1 state.2 k) ∧
    ((writeParameter state p).2 = state.2 ∨
      (writeParameter state p).2 = state.2.delete p.value) := by
  unfold writeParameter
  dsimp only
  split
  · split
    · exact ⟨Or.inr ⟨.int, rfl⟩, Or.inl rfl⟩
    split
    · exact ⟨Or.inr ⟨.float, rfl⟩, Or.inl rfl⟩
    split
    · exact ⟨Or.inr ⟨.double, rfl⟩, Or.inl rfl⟩
    split
    · exact ⟨Or.inr ⟨.object, rfl⟩, Or.inr rfl⟩
    split
    · exact ⟨Or.inr ⟨.long, rfl⟩, Or.inl rfl⟩
    · exact ⟨Or.inl rfl, Or.inl rfl⟩
  · exact ⟨Or.inl rfl, Or.inl rfl⟩

/-- The pass changes at most the slot of its cell. -/
theorem writeParameter_of_ne {slot : Nat} (state : Locals × JniRefs) (hne : slot ≠ p.slot) :
    (writeParameter state p).1 slot = state.1 slot := by
  rcases (writeParameter_cases state p).1 with hsame | ⟨k, hset⟩
  · rw [hsame]
  · rw [hset, CallParameter.set_of_ne hne]

theorem writeParameter_extends (state : Locals × JniRefs) (p : CallParameter) :
    state.2.Extends (writeParameter state p).2 := by
  rcases (writeParameter_cases state p).2 with hsame | hdelete
  · rw [hsame]
    exact JniRefs.Extends.refl _
  · rw [hdelete]
    exact JniRefs.extends_delete _ _

end

/-! ## The loop -/

section

variable {parameters : List CallParameter} {frame : Locals} {refs : JniRefs}

theorem writeParameters_cons (p : CallParameter) (ps : List CallParameter) :
    writeParameters (p :: ps) frame refs =
      writeParameters ps (writeParameter (frame, refs) p).1 (writeParameter (frame, refs) p).2 :=
  rfl

theorem writeParameters_extends (parameters : List CallParameter) (frame : Locals)
    (refs : JniRefs) : refs.Extends (writeParameters parameters frame refs).2 := by
  induction parameters generalizing frame refs with
  | nil => exact JniRefs.Extends.refl refs
  | cons p ps ih =>
      rw [writeParameters_cons]
      exact (writeParameter_extends (frame, refs) p).trans (ih _ _)

theorem writeParameters_of_notMem {slot : Nat} (h : ∀ p ∈ parameters, slot ≠ p.slot) :
    (writeParameters parameters frame refs).1 slot = frame slot := by
  induction parameters generalizing frame refs with
  | nil => rfl
  | cons p ps ih =>
      rw [List.forall_mem_cons] at h
      rw [writeParameters_cons, ih h.2, writeParameter_of_ne (frame, refs) h.1]

/-- What the loop leaves in the slot of one of its cells. -/
theorem writeParameters_of_mem {p : CallParameter} {k : Kind} {v : Local}
    (hnodup : (parameters.map CallParameter.slot).Nodup) (hp : p ∈ parameters)
    (hknown : p.Known refs) (htype : p.type = k.tag) (hslot : frame p.slot = some v)
    (hkind : v.kind = k) :
    (writeParameters parameters frame refs).1 p.slot =
      if p.edited = true then p.read refs k else some v := by
  induction parameters generalizing frame refs with
  | nil => cases hp
  | cons q ps ih =>
      rw [List.map_cons, List.nodup_cons] at hnodup
      obtain ⟨hq, hps⟩ := hnodup
      rw [writeParameters_cons]
      rcases List.mem_cons.mp hp with rfl | hmem
      · have hlater : ∀ r ∈ ps, p.slot ≠ r.slot :=
          fun r hr heq => hq (heq ▸ List.mem_map_of_mem hr)
        rw [writeParameters_of_notMem hlater]
        split
        · rename_i hedited
          rw [writeParameter_of_edited hedited htype hslot hkind, Function.update_self]
        · rename_i hunedited
          rw [writeParameter_of_unedited _ hunedited]
          exact hslot
      · have hne : p.slot ≠ q.slot := fun heq => hq (heq ▸ List.mem_map_of_mem hmem)
        have hextends := writeParameter_extends (frame, refs) q
        have hkept : (writeParameter (frame, refs) q).1 p.slot = some v :=
          (writeParameter_of_ne (frame, refs) hne).trans hslot
        rw [ih hps hmem (hknown.extends hextends) hkept,
          CallParameter.read_extends hextends hknown]

end

/-! ## The slots of the parameters -/

/-- The slot of the parameter `x`, behind the slots of the parameters before it. -/
def slotAt (first : Nat) : List FieldType → Nat → Nat
  | t :: ts, x + 1 => slotAt (first + t.slots) ts x
  | _, _ => first

/-- The parameters behind do not matter. -/
theorem slotAt_prefix_eq {ts us : List FieldType} (h : ts <+: us) :
    ∀ {first x : Nat}, x < ts.length → slotAt first ts x = slotAt first us x := by
  obtain ⟨rest, rfl⟩ := h
  induction ts with
  | nil =>
      intro first x hx
      exact absurd hx (Nat.not_lt_zero x)
  | cons t ts ih =>
      intro first x hx
      cases x with
      | zero => rfl
      | succ x => exact ih (Nat.lt_of_succ_lt_succ hx)

theorem getElem?_cellsOf (frame : Locals) (params : List FieldType) :
    ∀ (first x : Nat), (cellsOf frame first params)[x]? =
      (params[x]?).map fun t => t.cell frame (slotAt first params x) := by
  induction params with
  | nil =>
      intro first x
      rfl
  | cons t ts ih =>
      intro first x
      cases x with
      | zero => rfl
      | succ x => exact ih (first + t.slots) x

theorem FieldType.slots_pos (t : FieldType) : 0 < t.slots := by
  cases t <;> exact Nat.succ_pos _

theorem FieldType.cell_slot (frame : Locals) (slot : Nat) (t : FieldType) :
    (t.cell frame slot).slot = slot := by
  cases t <;> rfl

theorem le_slot_of_mem_cellsOf {frame : Locals} {params : List FieldType} :
    ∀ {first : Nat} {p : CallParameter}, p ∈ cellsOf frame first params → first ≤ p.slot := by
  induction params with
  | nil =>
      intro first p hp
      cases hp
  | cons t ts ih =>
      intro first p hp
      rw [cellsOf, List.mem_cons] at hp
      rcases hp with rfl | hp
      · exact Nat.le_of_eq (t.cell_slot frame first).symm
      · exact Nat.le_trans (Nat.le_add_right _ _) (ih hp)

/-- No two parameters share a slot. -/
theorem nodup_slot_cellsOf (frame : Locals) (params : List FieldType) :
    ∀ first : Nat, ((cellsOf frame first params).map CallParameter.slot).Nodup := by
  induction params with
  | nil =>
      intro first
      exact List.nodup_nil
  | cons t ts ih =>
      intro first
      rw [cellsOf, List.map_cons, List.nodup_cons, FieldType.cell_slot]
      refine ⟨fun hmem => ?_, ih _⟩
      obtain ⟨p, hp, hslot⟩ := List.mem_map.mp hmem
      have hle := le_slot_of_mem_cellsOf hp
      have hpos := t.slots_pos
      omega

theorem getElem?_slot_cellsOf (frame : Locals) (params : List FieldType) (first x : Nat) :
    ((cellsOf frame first params).map CallParameter.slot)[x]? =
      (params[x]?).map fun _ => slotAt first params x := by
  rw [List.getElem?_map, getElem?_cellsOf, Option.map_map]
  congr 1
  funext t
  exact t.cell_slot frame _

theorem slotAt_inj {params : List FieldType} {first x y : Nat} {t u : FieldType}
    (hx : params[x]? = some t) (hy : params[y]? = some u)
    (h : slotAt first params x = slotAt first params y) : x = y := by
  let frame : Locals := fun _ => none
  have hslots := getElem?_slot_cellsOf frame params first
  refine (List.getElem?_inj ?_ (nodup_slot_cellsOf frame params first)).mp ?_
  · rw [List.length_map, length_cellsOf]
    exact (List.getElem?_eq_some_iff.mp hx).1
  · rw [hslots, hslots, hx, hy, Option.map_some, Option.map_some, h]

theorem FieldType.cell_type (frame : Locals) (slot : Nat) (t : FieldType) :
    (t.cell frame slot).type = t.kind.tag := by
  cases t <;> rfl

theorem FieldType.cell_edited (frame : Locals) (slot : Nat) (t : FieldType) :
    (t.cell frame slot).edited = false := by
  cases t <;> rfl

theorem Locals.known_GetLocalObject (frame : Locals) (slot : Nat) (refs : JniRefs) :
    ∀ jo ∈ frame.GetLocalObject slot, refs.Known jo := by
  intro jo hjo
  unfold GetLocalObject at hjo
  split at hjo
  · obtain rfl := Option.some.inj hjo
    trivial
  · obtain rfl := Option.some.inj hjo
    trivial
  · cases hjo

/-- A cell that was just read carries no global reference. -/
theorem FieldType.cell_known (frame : Locals) (slot : Nat) (refs : JniRefs) (t : FieldType) :
    (t.cell frame slot).Known refs := by
  cases t with
  | object name => exact frame.known_GetLocalObject slot refs
  | array component => exact frame.known_GetLocalObject slot refs
  | _ =>
      intro jo hjo
      obtain rfl := Option.some.inj hjo
      trivial

theorem exists_of_mem_cellsOf {frame : Locals} {params : List FieldType} {first : Nat}
    {p : CallParameter} (hp : p ∈ cellsOf frame first params) :
    ∃ (x : Nat) (t : FieldType), params[x]? = some t ∧
      p = t.cell frame (slotAt first params x) := by
  obtain ⟨x, hx⟩ := List.mem_iff_getElem?.mp hp
  rw [getElem?_cellsOf] at hx
  obtain ⟨t, ht, hcell⟩ := Option.map_eq_some_iff.mp hx
  exact ⟨x, t, ht, hcell.symm⟩

theorem known_of_mem_cellsOf {frame : Locals} {params : List FieldType} {first : Nat}
    {p : CallParameter} {refs : JniRefs} (hp : p ∈ cellsOf frame first params) :
    p.Known refs := by
  obtain ⟨x, t, _, hcell⟩ := exists_of_mem_cellsOf hp
  subst hcell
  exact t.cell_known frame _ refs

theorem edited_of_mem_cellsOf {frame : Locals} {params : List FieldType} {first : Nat}
    {p : CallParameter} (hp : p ∈ cellsOf frame first params) : p.edited = false := by
  obtain ⟨x, t, _, hcell⟩ := exists_of_mem_cellsOf hp
  subst hcell
  exact t.cell_edited frame _

/-! ## The frame after a sequence of calls -/

/-- The frame holds values of the types of the parameters. -/
def FrameFits (first : Nat) (params : List FieldType) (frame : Locals) : Prop :=
  ∀ x t, params[x]? = some t →
    ∃ v, frame (slotAt first params x) = some v ∧ v.kind = t.kind

/-- Every put on a parameter is the operation of the parameter's type. -/
def PutsFit (params : List FieldType) (log : List (Int × PutOp)) : Prop :=
  ∀ call ∈ log, ∀ (x : Nat) t, call.1 = x → params[x]? = some t → call.2.Fits t

/-- Each parameter holds the value of the last put made to it, or its original value, and
the other slots are unchanged. -/
structure Rewritten (first : Nat) (params : List FieldType) (log : List (Int × PutOp))
    (frame frame' : Locals) : Prop where
  parameter : ∀ x, x < params.length → frame' (slotAt first params x) =
    (lastSome (putAt x) log).or (frame (slotAt first params x))
  other : ∀ slot, (∀ x, x < params.length → slot ≠ slotAt first params x) →
    frame' slot = frame slot

/-- The last `putInt` made to a parameter of type `int`, if any, carries the value that the
parameter has already. -/
def IntsKept (first : Nat) (params : List FieldType) (log : List (Int × PutOp))
    (frame : Locals) : Prop :=
  ∀ x, params[x]? = some .int → ∀ v, lastSome (putAt x) log = some v →
    frame (slotAt first params x) = some v

section

variable {first : Nat} {params : List FieldType} {log : List (Int × PutOp)} {frame : Locals}
  {refs : JniRefs} {table : List CallParameter}

theorem PutsFit.of_mem {x : Nat} {t : FieldType} (hputs : PutsFit params log)
    (ht : params[x]? = some t) {call : Int × PutOp} (hcall : call ∈ log) (hx : call.1 = x) :
    call.2.Fits t := hputs call hcall x t hx ht

/-- What is stored is what was asked for, except in a parameter of type `int`. -/
theorem lastSome_storedAt {x : Nat} {t : FieldType} (hputs : PutsFit params log)
    (ht : params[x]? = some t) (hint : t ≠ .int) :
    lastSome (storedAt x t.kind) log = lastSome (putAt x) log := by
  refine lastSome_congr fun call hcall => ?_
  by_cases hx : call.1 = x
  · have hfits := hputs.of_mem ht hcall hx
    rw [storedAt_of_stored hx (hfits.stored hint), if_pos hfits.kind, putAt, if_pos hx]
  · rw [storedAt_of_ne hx, putAt, if_neg hx]

theorem lastSome_storedAt_int {x : Nat} (hputs : PutsFit params log)
    (ht : params[x]? = some .int) (k : Kind) : lastSome (storedAt x k) log = none := by
  refine lastSome_eq_none_iff.mpr fun call hcall => ?_
  by_cases hx : call.1 = x
  · exact storedAt_of_unstored (hputs.of_mem ht hcall hx).stored_int k
  · exact storedAt_of_ne hx k

theorem ArgumentsNative.TableOk.exists_cell
    (htable : TableOk refs log (cellsOf frame first params) table) {x : Nat} {t : FieldType}
    (ht : params[x]? = some t) :
    ∃ p, table[x]? = some p ∧ p.slot = slotAt first params x ∧
      CellOk refs log x (t.cell frame (slotAt first params x)) p := by
  have hcell : (cellsOf frame first params)[x]? =
      some (t.cell frame (slotAt first params x)) := by
    rw [getElem?_cellsOf, ht, Option.map_some]
  have hlt : x < table.length := htable.length ▸ (List.getElem?_eq_some_iff.mp hcell).1
  have hp : table[x]? = some table[x] := List.getElem?_eq_getElem hlt
  have hok := htable.cell x _ _ hcell hp
  exact ⟨_, hp, hok.slot.trans (t.cell_slot frame _), hok⟩

/-- The parameters behind those that the loops walk take no part. -/
theorem ArgumentsNative.TableOk.exists_cell_scanned
    (htable : TableOk refs log (cellsOf frame first (scanned params)) table) {x : Nat}
    {t : FieldType} (ht : (scanned params)[x]? = some t) :
    ∃ p, table[x]? = some p ∧ p.slot = slotAt first params x ∧
      CellOk refs log x (t.cell frame (slotAt first params x)) p := by
  obtain ⟨p, hp, hslot, hok⟩ := htable.exists_cell ht
  rw [slotAt_prefix_eq (scanned_prefix_self params) (List.getElem?_eq_some_iff.mp ht).1] at hslot hok
  exact ⟨p, hp, hslot, hok⟩

/-- The calls move no cell. -/
theorem ArgumentsNative.TableOk.map_slot
    (htable : TableOk refs log (cellsOf frame first params) table) :
    table.map CallParameter.slot = (cellsOf frame first params).map CallParameter.slot := by
  refine List.ext_getElem (by simp [htable.length]) fun x hx hx₀ => ?_
  rw [List.length_map] at hx hx₀
  rw [List.getElem_map, List.getElem_map]
  exact (htable.cell x _ _ (List.getElem?_eq_getElem hx₀) (List.getElem?_eq_getElem hx)).slot

/-- What the loop leaves in a parameter's slot: the last value stored in its cell. -/
theorem writeParameters_slotAt (htable : TableOk refs log (cellsOf frame first params) table)
    {x : Nat} {t : FieldType} (ht : params[x]? = some t) {v : Local}
    (hslot : frame (slotAt first params x) = some v) (hkind : v.kind = t.kind) :
    (writeParameters table frame refs).1 (slotAt first params x) =
      (lastSome (storedAt x t.kind) log).or (frame (slotAt first params x)) := by
  obtain ⟨p, hp, hpslot, hok⟩ := htable.exists_cell ht
  have hnodup : (table.map CallParameter.slot).Nodup :=
    htable.map_slot ▸ nodup_slot_cellsOf frame params first
  have htype₀ := t.cell_type frame (slotAt first params x)
  rw [← hpslot] at hslot ⊢
  rw [writeParameters_of_mem hnodup (List.mem_of_getElem? hp) hok.known
    (hok.type.trans htype₀) hslot hkind, hslot]
  cases hlast : lastSome (storedAt x t.kind) log with
  | none =>
      have hunedited : ¬ p.edited = true := fun h => (hok.edited _ htype₀).mp h hlast
      rw [if_neg hunedited, Option.none_or]
  | some w =>
      have hedited : p.edited = true := (hok.edited _ htype₀).mpr (by simp [hlast])
      rw [if_pos hedited, hok.read _ htype₀, hlast, Option.some_or, Option.some_or]

theorem FrameFits.writeParameters (hfits : FrameFits first params frame)
    (htable : TableOk refs log (cellsOf frame first params) table) {x : Nat} {t : FieldType}
    (ht : params[x]? = some t) :
    (writeParameters table frame refs).1 (slotAt first params x) =
      (lastSome (storedAt x t.kind) log).or (frame (slotAt first params x)) := by
  obtain ⟨v, hslot, hkind⟩ := hfits x t ht
  exact writeParameters_slotAt htable ht hslot hkind

theorem writeParameters_other (htable : TableOk refs log (cellsOf frame first params) table)
    {slot : Nat} (h : ∀ x, x < params.length → slot ≠ slotAt first params x) :
    (writeParameters table frame refs).1 slot = frame slot := by
  refine writeParameters_of_notMem fun p hp heq => ?_
  have hmem : p.slot ∈ (cellsOf frame first params).map CallParameter.slot :=
    htable.map_slot ▸ List.mem_map_of_mem hp
  obtain ⟨p₀, hp₀, hslot⟩ := List.mem_map.mp hmem
  obtain ⟨x, t, ht, hcell⟩ := exists_of_mem_cellsOf hp₀
  subst hcell
  rw [FieldType.cell_slot] at hslot
  exact h x (List.getElem?_eq_some_iff.mp ht).1 (heq.trans hslot.symm)

/-- The write-back does what was asked exactly when no `putInt` asked for a change. -/
theorem rewritten_iff (hfits : FrameFits first params frame) (hputs : PutsFit params log)
    (htable : TableOk refs log (cellsOf frame first params) table) :
    Rewritten first params log frame (writeParameters table frame refs).1 ↔
      IntsKept first params log frame := by
  constructor
  · intro h x ht v hlast
    have hx := h.parameter x (List.getElem?_eq_some_iff.mp ht).1
    rw [hfits.writeParameters htable ht, lastSome_storedAt_int hputs ht, hlast,
      Option.none_or, Option.some_or] at hx
    exact hx
  · intro hkept
    refine ⟨fun x hx => ?_, fun slot hslot => writeParameters_other htable hslot⟩
    have ht : params[x]? = some params[x] := List.getElem?_eq_getElem hx
    rw [hfits.writeParameters htable ht]
    by_cases hint : params[x] = .int
    · rw [hint] at ht
      rw [lastSome_storedAt_int hputs ht, Option.none_or]
      cases hlast : lastSome (putAt x) log with
      | none => rfl
      | some v => rw [hkept x ht v hlast, Option.some_or]
    · rw [lastSome_storedAt hputs ht hint]

end

end JvmHookFramework
