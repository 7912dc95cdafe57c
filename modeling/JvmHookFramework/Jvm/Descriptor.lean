/-
  Jvm/Descriptor.lean --- the method descriptors of the class file format.

  The grammar is the specification's, independent of the scanner that reads it.  A class
  name carries the proof that it has none of the characters a descriptor may not have in
  one, so an illegal descriptor cannot be built.
-/
import Mathlib.Data.List.Basic
import JvmHookFramework.Jvm.Values
import JvmHookFramework.Native.Utils

set_option autoImplicit false

namespace JvmHookFramework

/-- A class name in internal form. -/
structure ClassName where
  chars : List Char
  nonempty : chars ≠ []
  legal : ∀ c ∈ chars, c ≠ ';' ∧ c ≠ '[' ∧ c ≠ '.'

inductive FieldType where
  | byte | char | double | float | int | long | short | boolean
  | object (name : ClassName)
  | array (component : FieldType)

namespace FieldType

/-- The first character of the descriptor of a type. -/
def tag : FieldType → Char
  | .byte => JVM_SIGNATURE_BYTE
  | .char => JVM_SIGNATURE_CHAR
  | .double => JVM_SIGNATURE_DOUBLE
  | .float => JVM_SIGNATURE_FLOAT
  | .int => JVM_SIGNATURE_INT
  | .long => JVM_SIGNATURE_LONG
  | .short => JVM_SIGNATURE_SHORT
  | .boolean => JVM_SIGNATURE_BOOLEAN
  | .object _ => JVM_SIGNATURE_CLASS
  | .array _ => JVM_SIGNATURE_ARRAY

def render : FieldType → List Char
  | .object name => JVM_SIGNATURE_CLASS :: (name.chars ++ [';'])
  | .array component => JVM_SIGNATURE_ARRAY :: component.render
  | t => [t.tag]

/-- The class name in a type has no `)`. -/
def Plain : FieldType → Prop
  | .object name => ')' ∉ name.chars
  | .array component => component.Plain
  | _ => True

/-- The kind of value that a variable of the type holds. -/
def kind : FieldType → Kind
  | .byte | .char | .int | .short | .boolean => .int
  | .float => .float
  | .long => .long
  | .double => .double
  | .object _ | .array _ => .object

/-- The number of local variable slots of a value. -/
def slots : FieldType → Nat
  | .double | .long => 2
  | _ => 1

/-- A descriptor starts with its tag. -/
theorem render_eq_cons (t : FieldType) : ∃ rest, t.render = t.tag :: rest := by
  cases t with
  | object name => exact ⟨_, rfl⟩
  | array component => exact ⟨_, rfl⟩
  | _ => exact ⟨[], rfl⟩

theorem render_length_pos (t : FieldType) : 0 < t.render.length := by
  obtain ⟨rest, hrest⟩ := t.render_eq_cons
  rw [hrest]
  exact Nat.succ_pos _

/-- Only class names bring a `)` into the descriptor of a type. -/
theorem plain_iff {t : FieldType} : t.Plain ↔ ')' ∉ t.render := by
  induction t with
  | object name => simp [Plain, render, JVM_SIGNATURE_CLASS]
  | array component ih => simp [Plain, render, JVM_SIGNATURE_ARRAY, ih]
  | _ => exact iff_of_true trivial (by decide)

end FieldType

/-- A method descriptor; a null return type is `void`. -/
structure MethodDescriptor where
  params : List FieldType
  ret : Option FieldType

namespace MethodDescriptor

def renderParams (params : List FieldType) : List Char := params.flatMap FieldType.render

def renderReturn : Option FieldType → List Char
  | none => [JVM_SIGNATURE_VOID]
  | some t => t.render

def render (d : MethodDescriptor) : List Char :=
  '(' :: (renderParams d.params ++ ')' :: renderReturn d.ret)

/-- What stands before the return type. -/
def beforeReturn (d : MethodDescriptor) : List Char := '(' :: (renderParams d.params ++ [')'])

/-- No class name of the parameters has a `)`. -/
def Plain (d : MethodDescriptor) : Prop := ∀ t ∈ d.params, t.Plain

theorem renderParams_cons (t : FieldType) (ts : List FieldType) :
    renderParams (t :: ts) = t.render ++ renderParams ts :=
  List.flatMap_cons

theorem render_eq_append (d : MethodDescriptor) :
    d.render = d.beforeReturn ++ renderReturn d.ret := by
  simp [render, beforeReturn]

theorem length_beforeReturn (d : MethodDescriptor) :
    d.beforeReturn.length = (renderParams d.params).length + 2 := by
  simp [beforeReturn]

theorem plain_iff {d : MethodDescriptor} : d.Plain ↔ ')' ∉ renderParams d.params := by
  simp only [Plain, FieldType.plain_iff, renderParams, List.mem_flatMap, not_exists, not_and]

/-- Every type takes at least one character. -/
theorem length_le_renderParams (params : List FieldType) :
    params.length ≤ (renderParams params).length := by
  induction params with
  | nil => exact Nat.le_refl 0
  | cons t ts ih =>
      have hpos := t.render_length_pos
      rw [renderParams_cons, List.length_append, List.length_cons]
      omega

theorem length_params_le (d : MethodDescriptor) : d.params.length ≤ d.render.length := by
  have hlength := length_le_renderParams d.params
  simp only [render, List.length_cons, List.length_append]
  omega

end MethodDescriptor

end JvmHookFramework
