/-
  Native/ParameterSlots.lean --- which cells the filling loop writes, and from which slots.

  The counting loop and the filling loop walk the descriptor apart from each other, and
  the slot counter runs beside the cursor.  On a legal descriptor they agree: one write
  for each parameter, in order, from the slot behind those of the parameters before it.
-/
import JvmHookFramework.Native.WriteBack

set_option autoImplicit false

namespace JvmHookFramework

open MethodDescriptor

/-! ## The slots -/

/-- The number of slots that parameters take together. -/
def slotsOf : List FieldType → Nat
  | [] => 0
  | t :: ts => t.slots + slotsOf ts

/-- A parameter stands behind the slots of all parameters before it. -/
theorem slotAt_eq (params : List FieldType) : ∀ {first x : Nat}, x < params.length →
    slotAt first params x = first + slotsOf (params.take x) := by
  induction params with
  | nil =>
      intro first x hx
      exact absurd hx (Nat.not_lt_zero x)
  | cons t ts ih =>
      intro first x hx
      cases x with
      | zero => rfl
      | succ x =>
          have hlt : x < ts.length := Nat.lt_of_succ_lt_succ hx
          rw [slotAt, ih hlt, List.take_succ_cons, slotsOf, Nat.add_assoc]

/-! ## The table of a legal descriptor -/

/-- The cell `p` was made for a parameter of type `t` in the slot `slot` of the frame. -/
structure ReadAs (frame : Locals) (t : FieldType) (slot : Nat) (p : CallParameter) : Prop where
  type : p.type = match t with
    | .object _ | .array _ => JVM_SIGNATURE_CLASS
    | .byte | .char | .short | .boolean | .int => JVM_SIGNATURE_INT
    | .float => JVM_SIGNATURE_FLOAT
    | .long => JVM_SIGNATURE_LONG
    | .double => JVM_SIGNATURE_DOUBLE
  slot : p.slot = slot
  edited : p.edited = false
  value : match t.kind with
    | .object => p.value = frame.GetLocalObject p.slot
    | .int => p.iv = frame.GetLocalInt p.slot
    | .float => p.jf = frame.GetLocalFloat p.slot
    | .long => p.lv = frame.GetLocalLong p.slot
    | .double => p.jd = frame.GetLocalDouble p.slot

theorem FieldType.readAs_cell (frame : Locals) (slot : Nat) (t : FieldType) :
    ReadAs frame t slot (t.cell frame slot) := by
  cases t <;> exact ⟨rfl, rfl, rfl, rfl⟩

/-- What the two loops of `onMethodEntry` do for a method with the descriptor `d`. -/
structure ParametersRead (frame : Locals) (d : MethodDescriptor) (isStatic : Bool)
    (writes : List (Nat × CallParameter)) (parameters : List CallParameter) : Prop where
  /-- The counting loop ends with the number of parameters. -/
  count : countParameters d.render (indexOf d.render ')' 1) d.render.length 1 0 =
    some d.params.length
  /-- The filling loop ends. -/
  fill : fillWrites frame d.render (indexOf d.render ')' 1) d.render.length 1 0
    (if isStatic then 0 else 1) = some writes
  once : writes.map Prod.fst = List.range d.params.length
  table : readParameters frame d.render isStatic = some parameters
  applied : applyWrites writes (List.replicate d.params.length {}) = some parameters
  length : parameters.length = d.params.length
  cell : ∀ x t, d.params[x]? = some t → ∃ p, parameters[x]? = some p ∧
    ReadAs frame t ((if isStatic then 0 else 1) + slotsOf (d.params.take x)) p

/-- On every legal descriptor without a `)` in the class names of its parameters both
loops end, the count is the number of parameters, every cell is written once and no other,
and each holds its parameter. -/
theorem parameters_read (frame : Locals) (d : MethodDescriptor) (isStatic : Bool)
    (hplain : d.Plain) : ∃ writes parameters, ParametersRead frame d isStatic writes parameters := by
  refine ⟨_, _, countParameters_plain hplain, fillWrites_plain hplain frame _, ?_,
    readParameters_render hplain frame isStatic, applyWrites_cellsOf frame d.params _,
    length_cellsOf frame d.params _, fun x t ht => ?_⟩
  · have hlength : (List.range' 0 d.params.length).length ≤
        (cellsOf frame (if isStatic then 0 else 1) d.params).length := by
      simp only [List.length_range', length_cellsOf, Nat.le_refl]
    rw [List.map_fst_zip hlength, List.range_eq_range']
  · have hlt := (List.getElem?_eq_some_iff.mp ht).1
    refine ⟨_, ?_, t.readAs_cell frame _⟩
    rw [getElem?_cellsOf, ht, slotAt_eq d.params hlt, Option.map_some]

/-- `void m(long[], long, L<name>;, byte)` -/
def mixedDescriptor (name : ClassName) : MethodDescriptor :=
  { params := [.array .long, .long, .object name, .byte], ret := none }

/-- An array of `long` takes one slot and a `long` two, and a class name may hold the
letters of the types. -/
theorem parameters_read_mixed :
    ∃ writes parameters, ParametersRead (fun _ => none)
      (mixedDescriptor ⟨['J', '/', 'L'], nofun, by simp⟩) false writes parameters := by
  refine parameters_read _ _ false fun t ht => ?_
  simp only [mixedDescriptor, List.mem_cons, List.not_mem_nil, or_false] at ht
  rcases ht with rfl | rfl | rfl | rfl
  · trivial
  · trivial
  · exact (by decide : ')' ∉ ['J', '/', 'L'])
  · trivial

end JvmHookFramework
