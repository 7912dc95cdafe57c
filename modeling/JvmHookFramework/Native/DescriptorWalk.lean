/-
  Native/DescriptorWalk.lean --- the scanner on legal descriptors.

  The counting loop and the filling loop of `onMethodEntry` walk the parameter part of
  the descriptor with `readType` up to the first `)`.  They make one pass for each
  parameter, except that a `)` in the name of a parameter class ends both behind it.
-/
import JvmHookFramework.Jvm.Descriptor
import JvmHookFramework.Native.CallParameter

set_option autoImplicit false

namespace JvmHookFramework

open MethodDescriptor

/-! ## indexOf -/

theorem indexOf_go_append {c : Char} {xs : List Char} (hc : c ∉ xs) (ys : List Char)
    (begin : Nat) : indexOf.go c (xs ++ c :: ys) begin = some (begin + xs.length) := by
  induction xs generalizing begin with
  | nil =>
      rw [List.nil_append, indexOf.go, if_pos rfl]
      rfl
  | cons x xs ih =>
      rw [List.mem_cons, not_or] at hc
      obtain ⟨hne, hrest⟩ := hc
      rw [List.cons_append, indexOf.go, if_neg (Ne.symm hne), ih hrest, List.length_cons]
      congr 1
      omega

theorem indexOf_eq {desc xs ys : List Char} {c : Char} {begin : Nat}
    (hdrop : desc.drop begin = xs ++ c :: ys) (hc : c ∉ xs) :
    indexOf desc c begin = some (begin + xs.length) := by
  rw [indexOf, hdrop, indexOf_go_append hc]

theorem le_of_indexOf_go {c : Char} {xs : List Char} :
    ∀ {begin i : Nat}, indexOf.go c xs begin = some i → begin ≤ i := by
  induction xs with
  | nil =>
      intro begin i h
      cases h
  | cons x xs ih =>
      intro begin i h
      rw [indexOf.go] at h
      split at h
      · exact Nat.le_of_eq (Option.some.inj h)
      · exact Nat.le_of_succ_le (ih h)

/-- A character is found where it stands first. -/
theorem indexOf_go_of_mem {c : Char} {xs : List Char} (hc : c ∈ xs) (ys : List Char) :
    ∀ begin : Nat, ∃ i, indexOf.go c (xs ++ ys) begin = some i ∧ i < begin + xs.length := by
  induction xs with
  | nil => exact absurd hc List.not_mem_nil
  | cons x xs ih =>
      intro begin
      rw [List.cons_append, indexOf.go, List.length_cons]
      by_cases hx : x = c
      · rw [if_pos hx]
        exact ⟨begin, rfl, by omega⟩
      · rw [if_neg hx]
        have hrest : c ∈ xs := (List.mem_cons.mp hc).resolve_left (Ne.symm hx)
        obtain ⟨i, hi, hlt⟩ := ih hrest (begin + 1)
        exact ⟨i, hi, by omega⟩

/-- A search goes past what does not have the character. -/
theorem indexOf_go_of_notMem {c : Char} {xs : List Char} (hc : c ∉ xs) (ys : List Char) :
    ∀ begin : Nat, indexOf.go c (xs ++ ys) begin = indexOf.go c ys (begin + xs.length) := by
  induction xs with
  | nil =>
      intro begin
      rfl
  | cons x xs ih =>
      intro begin
      rw [List.mem_cons, not_or] at hc
      rw [List.cons_append, indexOf.go, if_neg (Ne.symm hc.1), ih hc.2, List.length_cons,
        Nat.add_assoc, Nat.add_comm 1]

/-! ## readType -/

theorem ClassName.semicolon_notMem (name : ClassName) :
    ';' ∉ JVM_SIGNATURE_CLASS :: name.chars := by
  rw [List.mem_cons, not_or]
  exact ⟨by decide, fun hmem => (name.legal _ hmem).1 rfl⟩

theorem readType_go_render {desc post : List Char} {stop : Option Nat} (t : FieldType) :
    ∀ {i : Nat}, desc.drop i = t.render ++ post →
      readType.go desc stop (t.render ++ post) i = (t.tag, i + t.render.length) := by
  induction t with
  | object name =>
      intro i hdrop
      have hshape : (FieldType.object name).render ++ post =
          (JVM_SIGNATURE_CLASS :: name.chars) ++ ';' :: post := by
        simp [FieldType.render]
      have hlength : (FieldType.object name).render.length = name.chars.length + 2 := by
        simp [FieldType.render]
      rw [hshape] at hdrop ⊢
      rw [List.cons_append, readType.go, if_neg (by decide), if_neg (by decide), if_pos rfl,
        indexOf_eq hdrop name.semicolon_notMem, hlength]
      rfl
  | array component ih =>
      intro i hdrop
      have hshape : (FieldType.array component).render ++ post =
          JVM_SIGNATURE_ARRAY :: (component.render ++ post) := rfl
      have hnext : desc.drop (i + 1) = component.render ++ post := by
        rw [← List.drop_drop, hdrop, hshape, List.drop_one, List.tail_cons]
      have hlength : (FieldType.array component).render.length = component.render.length + 1 :=
        rfl
      rw [hshape, readType.go, if_pos rfl, ih hnext, hlength]
      congr 1
      omega
  | _ =>
      intro i hdrop
      rfl

/-- `readType` at the start of a type returns its first character and goes past it. -/
theorem readType_render {desc post : List Char} {stop : Option Nat} {i : Nat} (t : FieldType)
    (hdrop : desc.drop i = t.render ++ post) :
    readType desc i stop = (t.tag, i + t.render.length) := by
  rw [readType, hdrop]
  exact readType_go_render t hdrop

/-! ## The two loops -/

/-- The parameters that the loops walk: those up to the first with a `)` in a class name. -/
def scanned : List FieldType → List FieldType
  | [] => []
  | t :: ts => if ')' ∈ t.render then [t] else t :: scanned ts

theorem scanned_prefix_self (ts : List FieldType) : scanned ts <+: ts := by
  induction ts with
  | nil => exact List.prefix_rfl
  | cons t ts ih =>
      rw [scanned]
      split
      · exact ⟨ts, rfl⟩
      · exact List.cons_prefix_cons.mpr ⟨rfl, ih⟩

theorem scanned_of_plain {ts : List FieldType} (hplain : ∀ t ∈ ts, t.Plain) :
    scanned ts = ts := by
  induction ts with
  | nil => rfl
  | cons t ts ih =>
      rw [List.forall_mem_cons] at hplain
      rw [scanned, if_neg (FieldType.plain_iff.mp hplain.1), ih hplain.2]

theorem getElem?_of_scanned {ts : List FieldType} {x : Nat} {t : FieldType}
    (h : (scanned ts)[x]? = some t) : ts[x]? = some t := by
  obtain ⟨rest, hrest⟩ := scanned_prefix_self ts
  rw [← hrest, List.getElem?_append_left (List.getElem?_eq_some_iff.mp h).1, h]

theorem FieldType.tag_ne_paren (t : FieldType) : t.tag ≠ ')' := by
  cases t with
  | object name => exact (by decide : JVM_SIGNATURE_CLASS ≠ ')')
  | array component => exact (by decide : JVM_SIGNATURE_ARRAY ≠ ')')
  | _ => decide

/-- A pass of either loop with the cursor on the parameters `t :: ts`: it goes on, reads
`t`, and leaves the cursor on `ts`, or behind the end if `t` has a `)`. -/
theorem walk_step {desc post : List Char} {stop i : Nat} {t : FieldType} {ts : List FieldType}
    (hdrop : desc.drop i = renderParams (t :: ts) ++ post)
    (hstop : indexOf desc ')' i = some stop) :
    lessThanEnd i (some stop) = true ∧
      readType desc i (some stop) = (t.tag, i + t.render.length) ∧
      (')' ∈ t.render → lessThanEnd (i + t.render.length) (some stop) = false) ∧
      (')' ∉ t.render → desc.drop (i + t.render.length) = renderParams ts ++ post ∧
        indexOf desc ')' (i + t.render.length) = some stop) := by
  rw [renderParams_cons, List.append_assoc] at hdrop
  have hnext : desc.drop (i + t.render.length) = renderParams ts ++ post := by
    rw [← List.drop_drop, hdrop, List.drop_left]
  rw [indexOf, hdrop] at hstop
  have hlt : i < stop := by
    obtain ⟨rest, hrest⟩ := t.render_eq_cons
    rw [hrest, List.cons_append, indexOf.go, if_neg t.tag_ne_paren] at hstop
    exact le_of_indexOf_go hstop
  refine ⟨decide_eq_true hlt, readType_render t hdrop, fun hparen => ?_, fun hparen => ?_⟩
  · obtain ⟨k, hk, hbefore⟩ := indexOf_go_of_mem hparen (renderParams ts ++ post) i
    obtain rfl := Option.some.inj (hstop.symm.trans hk)
    exact decide_eq_false (Nat.not_lt.mpr (Nat.le_of_lt hbefore))
  · rw [indexOf_go_of_notMem hparen] at hstop
    rw [indexOf, hnext]
    exact ⟨rfl, hstop⟩

/-- With the cursor behind the last parameter the loops end. -/
theorem walk_end {desc post : List Char} {stop i : Nat}
    (hdrop : desc.drop i = renderParams [] ++ ')' :: post)
    (hstop : indexOf desc ')' i = some stop) : lessThanEnd i (some stop) = false := by
  rw [indexOf_eq hdrop List.not_mem_nil] at hstop
  rw [← Option.some.inj hstop]
  exact decide_eq_false (Nat.lt_irrefl i)

theorem countParameters_of_end {desc : List Char} {stop : Option Nat} {i : Nat}
    (hend : lessThanEnd i stop = false) (fuel size : Nat) :
    countParameters desc stop fuel i size = some size := by
  unfold countParameters
  rw [hend]
  rfl

theorem countParameters_render {desc post : List Char} {stop : Nat} (ts : List FieldType) :
    ∀ {fuel i size : Nat}, desc.drop i = renderParams ts ++ ')' :: post →
      indexOf desc ')' i = some stop → ts.length ≤ fuel →
      countParameters desc (some stop) fuel i size = some (size + (scanned ts).length) := by
  induction ts with
  | nil =>
      intro fuel i size hdrop hstop _
      exact countParameters_of_end (walk_end hdrop hstop) fuel size
  | cons t ts ih =>
      intro fuel i size hdrop hstop hfuel
      obtain ⟨hlt, hread, hlast, hnext⟩ := walk_step hdrop hstop
      cases fuel with
      | zero => exact absurd hfuel (Nat.not_succ_le_zero _)
      | succ fuel =>
          rw [countParameters, if_pos hlt, hread, scanned]
          by_cases hparen : ')' ∈ t.render
          · rw [if_pos hparen]
            exact countParameters_of_end (hlast hparen) fuel (size + 1)
          · obtain ⟨hdrop', hstop'⟩ := hnext hparen
            rw [if_neg hparen, ih hdrop' hstop' (Nat.le_of_succ_le_succ hfuel),
              List.length_cons]
            congr 1
            omega

theorem indexOf_paren {d : MethodDescriptor} (hplain : d.Plain) :
    indexOf d.render ')' 1 = some (1 + (renderParams d.params).length) :=
  indexOf_eq rfl (plain_iff.mp hplain)

/-- The search always finds a `)`. -/
theorem exists_indexOf_paren (d : MethodDescriptor) :
    ∃ stop, indexOf d.render ')' 1 = some stop := by
  have hmem : ')' ∈ renderParams d.params ++ [')'] := by simp
  obtain ⟨stop, hstop, _⟩ := indexOf_go_of_mem hmem (renderReturn d.ret) 1
  rw [List.append_assoc] at hstop
  exact ⟨stop, hstop⟩

/-- The counting loop finds the number of the parameters that it walks. -/
theorem countParameters_scanned (d : MethodDescriptor) :
    countParameters d.render (indexOf d.render ')' 1) d.render.length 1 0 =
      some (scanned d.params).length := by
  obtain ⟨stop, hstop⟩ := exists_indexOf_paren d
  have hdrop : d.render.drop 1 = renderParams d.params ++ ')' :: renderReturn d.ret := rfl
  rw [hstop, countParameters_render d.params hdrop hstop d.length_params_le, Nat.zero_add]

theorem countParameters_plain {d : MethodDescriptor} (hplain : d.Plain) :
    countParameters d.render (indexOf d.render ')' 1) d.render.length 1 0 =
      some d.params.length := by
  rw [countParameters_scanned, scanned_of_plain hplain]

/-! ## The cells -/

/-- The cell that the filling loop makes for a parameter of type `t` at a slot. -/
def FieldType.cell (frame : Locals) (slot : Nat) : FieldType → CallParameter
  | .object _ | .array _ =>
      { type := JVM_SIGNATURE_CLASS, value := frame.GetLocalObject slot, slot := slot }
  | .byte | .char | .int | .short | .boolean =>
      { type := JVM_SIGNATURE_INT, iv := frame.GetLocalInt slot, slot := slot }
  | .float => { type := JVM_SIGNATURE_FLOAT, jf := frame.GetLocalFloat slot, slot := slot }
  | .long => { type := JVM_SIGNATURE_LONG, lv := frame.GetLocalLong slot, slot := slot }
  | .double => { type := JVM_SIGNATURE_DOUBLE, jd := frame.GetLocalDouble slot, slot := slot }

theorem readParameter_tag (frame : Locals) (t : FieldType) (slot : Nat) :
    readParameter frame t.tag slot = some (t.cell frame slot, t.slots) := by
  cases t <;> rfl

/-- The cells of the parameters from a slot on. -/
def cellsOf (frame : Locals) : Nat → List FieldType → List CallParameter
  | _, [] => []
  | slot, t :: ts => t.cell frame slot :: cellsOf frame (slot + t.slots) ts

theorem length_cellsOf (frame : Locals) (params : List FieldType) :
    ∀ first : Nat, (cellsOf frame first params).length = params.length := by
  induction params with
  | nil =>
      intro first
      rfl
  | cons t ts ih =>
      intro first
      rw [cellsOf, List.length_cons, ih, List.length_cons]

/-! ## The writes of the filling loop -/

/-- The assignments `parameters[x] = p` that the filling loop makes from `i` and `x` on;
`none` when it has not ended within the fuel. -/
def fillWrites (frame : Locals) (desc : List Char) (stop : Option Nat) :
    Nat → Nat → Nat → Nat → Option (List (Nat × CallParameter))
  | fuel, i, x, slots =>
      if lessThanEnd i stop then
        match fuel with
        | 0 => none
        | fuel + 1 =>
            let (t, i) := readType desc i stop
            match readParameter frame t slots with
            | none => fillWrites frame desc stop fuel i (x + 1) slots
            | some (p, width) =>
                (fillWrites frame desc stop fuel i (x + 1) (slots + width)).map
                  fun writes => (x, p) :: writes
      else some []

/-- Assign to the cells of a table, if it has them all. -/
def applyWrites : List (Nat × CallParameter) → List CallParameter → Option (List CallParameter)
  | [], table => some table
  | (x, p) :: writes, table =>
      if x < table.length then applyWrites writes (table.set x p) else none

/-- The filling loop does nothing to the table but these assignments. -/
theorem fillParameters_eq_applyWrites (frame : Locals) (desc : List Char) (stop : Option Nat) :
    ∀ (fuel i x slots : Nat) (table : List CallParameter),
      fillParameters frame desc stop fuel i x slots table =
        (fillWrites frame desc stop fuel i x slots).bind fun writes =>
          applyWrites writes table := by
  intro fuel
  induction fuel with
  | zero =>
      intro i x slots table
      unfold fillParameters fillWrites
      by_cases hlt : lessThanEnd i stop = true
      · rw [if_pos hlt, if_pos hlt]
        rfl
      · rw [if_neg hlt, if_neg hlt]
        rfl
  | succ fuel ih =>
      intro i x slots table
      unfold fillParameters fillWrites
      by_cases hlt : lessThanEnd i stop = true
      · rw [if_pos hlt, if_pos hlt]
        cases hread : readParameter frame (readType desc i stop).1 slots with
        | none =>
            simp only [hread]
            exact ih _ _ _ table
        | some cell =>
            simp only [hread]
            by_cases hroom : x < table.length
            · rw [if_pos hroom, ih, Option.bind_map]
              congr 1
              funext writes
              exact (if_pos hroom).symm
            · rw [if_neg hroom, Option.bind_map]
              have hnone : ∀ writes, applyWrites ((x, cell.1) :: writes) table = none :=
                fun writes => if_neg hroom
              cases fillWrites frame desc stop fuel (readType desc i stop).2 (x + 1)
                (slots + cell.2) with
              | none => rfl
              | some writes => exact (hnone writes).symm
      · rw [if_neg hlt, if_neg hlt]
        rfl

theorem fillWrites_of_end {frame : Locals} {desc : List Char} {stop : Option Nat} {i : Nat}
    (hend : lessThanEnd i stop = false) (fuel x slots : Nat) :
    fillWrites frame desc stop fuel i x slots = some [] := by
  unfold fillWrites
  rw [hend]
  rfl

/-- One write for each parameter, in order. -/
theorem fillWrites_render {frame : Locals} {desc post : List Char} {stop : Nat}
    (ts : List FieldType) :
    ∀ {fuel i x slots : Nat}, desc.drop i = renderParams ts ++ ')' :: post →
      indexOf desc ')' i = some stop → ts.length ≤ fuel →
      fillWrites frame desc (some stop) fuel i x slots =
        some ((List.range' x (scanned ts).length).zip (cellsOf frame slots (scanned ts))) := by
  induction ts with
  | nil =>
      intro fuel i x slots hdrop hstop _
      exact fillWrites_of_end (walk_end hdrop hstop) fuel x slots
  | cons t ts ih =>
      intro fuel i x slots hdrop hstop hfuel
      obtain ⟨hlt, hread, hlast, hnext⟩ := walk_step hdrop hstop
      cases fuel with
      | zero => exact absurd hfuel (Nat.not_succ_le_zero _)
      | succ fuel =>
          rw [fillWrites, if_pos hlt, hread, scanned]
          simp only [readParameter_tag]
          by_cases hparen : ')' ∈ t.render
          · rw [if_pos hparen, fillWrites_of_end (hlast hparen)]
            rfl
          · obtain ⟨hdrop', hstop'⟩ := hnext hparen
            rw [if_neg hparen, ih hdrop' hstop' (Nat.le_of_succ_le_succ hfuel),
              List.length_cons, List.range'_succ, cellsOf, List.zip_cons_cons,
              Option.map_some]

/-- Writing every cell of a zeroed table, in order. -/
theorem applyWrites_zip (cells : List CallParameter) : ∀ filled : List CallParameter,
    applyWrites ((List.range' filled.length cells.length).zip cells)
        (filled ++ List.replicate cells.length ({} : CallParameter)) =
      some (filled ++ cells) := by
  induction cells with
  | nil =>
      intro filled
      rfl
  | cons p cells ih =>
      intro filled
      have hroom : filled.length <
          (filled ++ List.replicate (cells.length + 1) ({} : CallParameter)).length := by
        simp
      have hset : (filled ++ List.replicate (cells.length + 1) ({} : CallParameter)).set
          filled.length p =
            (filled ++ [p]) ++ List.replicate cells.length ({} : CallParameter) := by
        simp [List.replicate_succ]
      have hnext := ih (filled ++ [p])
      rw [List.length_append, List.length_singleton] at hnext
      rw [List.length_cons, List.range'_succ, List.zip_cons_cons, applyWrites, if_pos hroom, hset,
        hnext, List.append_assoc, List.singleton_append]

/-- The writes of the filling loop on a legal descriptor. -/
theorem fillWrites_scanned (d : MethodDescriptor) (frame : Locals) (slots : Nat) :
    fillWrites frame d.render (indexOf d.render ')' 1) d.render.length 1 0 slots =
      some ((List.range' 0 (scanned d.params).length).zip
        (cellsOf frame slots (scanned d.params))) := by
  obtain ⟨stop, hstop⟩ := exists_indexOf_paren d
  have hdrop : d.render.drop 1 = renderParams d.params ++ ')' :: renderReturn d.ret := rfl
  rw [hstop]
  exact fillWrites_render d.params hdrop hstop d.length_params_le

theorem fillWrites_plain {d : MethodDescriptor} (hplain : d.Plain) (frame : Locals)
    (slots : Nat) :
    fillWrites frame d.render (indexOf d.render ')' 1) d.render.length 1 0 slots =
      some ((List.range' 0 d.params.length).zip (cellsOf frame slots d.params)) := by
  rw [fillWrites_scanned, scanned_of_plain hplain]

theorem applyWrites_cellsOf (frame : Locals) (params : List FieldType) (slots : Nat) :
    applyWrites ((List.range' 0 params.length).zip (cellsOf frame slots params))
      (List.replicate params.length ({} : CallParameter)) =
        some (cellsOf frame slots params) := by
  have hzip := applyWrites_zip (cellsOf frame slots params) []
  rwa [length_cellsOf] at hzip

/-- The parameter table of a legal descriptor: one cell for each parameter that the loops
walk, the first slot being 0 for a static method and 1 for another. -/
theorem readParameters_scanned (d : MethodDescriptor) (frame : Locals) (isStatic : Bool) :
    readParameters frame d.render isStatic =
      some (cellsOf frame (if isStatic then 0 else 1) (scanned d.params)) := by
  unfold readParameters
  simp only [countParameters_scanned d]
  rw [fillParameters_eq_applyWrites, fillWrites_scanned, Option.bind_some,
    applyWrites_cellsOf]

theorem readParameters_render {d : MethodDescriptor} (hplain : d.Plain) (frame : Locals)
    (isStatic : Bool) :
    readParameters frame d.render isStatic =
      some (cellsOf frame (if isStatic then 0 else 1) d.params) := by
  rw [readParameters_scanned, scanned_of_plain hplain]

/-! ## The return type -/

/-- The first character of the return type. -/
def returnTag : Option FieldType → Char
  | none => JVM_SIGNATURE_VOID
  | some t => t.tag

theorem charAt_return (d : MethodDescriptor) :
    charAt d.render d.beforeReturn.length = returnTag d.ret := by
  have hreturn : ∃ rest, renderReturn d.ret = returnTag d.ret :: rest := by
    cases hret : d.ret with
    | none => exact ⟨[], rfl⟩
    | some t => exact t.render_eq_cons
  obtain ⟨rest, hrest⟩ := hreturn
  rw [charAt, d.render_eq_append, hrest, List.getD_eq_getElem?_getD,
    List.getElem?_append_right (Nat.le_refl _), Nat.sub_self]
  rfl

/-- A search from the opening parenthesis finds what a search behind it finds. -/
theorem indexOf_paren_zero (d : MethodDescriptor) :
    indexOf d.render ')' 0 = indexOf d.render ')' 1 := rfl

theorem pastEnd_indexOf {d : MethodDescriptor} (hplain : d.Plain) :
    pastEnd (indexOf d.render ')' 1) = d.beforeReturn.length := by
  rw [indexOf_paren hplain, d.length_beforeReturn, pastEnd]
  omega

/-- Both callbacks find the return type, whether they search from 1 or from 0. -/
theorem charAt_pastEnd {d : MethodDescriptor} (hplain : d.Plain) {begin : Nat}
    (hbegin : begin = 0 ∨ begin = 1) :
    charAt d.render (pastEnd (indexOf d.render ')' begin)) = returnTag d.ret := by
  have hsame : indexOf d.render ')' begin = indexOf d.render ')' 1 := by
    rcases hbegin with rfl | rfl
    · exact indexOf_paren_zero d
    · rfl
  rw [hsame, pastEnd_indexOf hplain, charAt_return]

end JvmHookFramework
