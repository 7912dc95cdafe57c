/-
  Jvm/Values.lean --- values, references and frames as the native code handles them.

  A `Cell` is the content of a C++ variable that may not have been written.  Java
  values are bit patterns of the width of their JNI type.  The locals of the hooked
  frame are read and written through the JVMTI functions `GetLocal*` and `SetLocal*`,
  which fail, and then store nothing, on a slot that holds another type.
-/
import Mathlib.Logic.Function.Basic
import JvmHookFramework.Jvm.Interface

set_option autoImplicit false

namespace JvmHookFramework

open Foundation

/-- The content of a C++ variable: `none` until something is stored in it. -/
abbrev Cell (α : Type) := Option α

/-- A `jobject`: null, a local reference, or a global reference by number. -/
inductive Jobject where
  | null
  | localRef (o : Obj)
  | globalRef (r : Nat)
  deriving DecidableEq, Repr

/-- The member of a `jvalue` that carries the value. -/
inductive Jvalue where
  | z (v : BitVec 8)
  | b (v : BitVec 8)
  | c (v : BitVec 16)
  | s (v : BitVec 16)
  | i (v : BitVec 32)
  | j (v : BitVec 64)
  | f (v : BitVec 32)
  | d (v : BitVec 64)
  | l (v : Jobject)
  deriving DecidableEq, Repr

/-! ## The global references of the callbacks

References that `putObject` and `returnObject` create.  They meet those of
`registerHook` nowhere in the code, so the two kinds are numbered apart. -/

/-- The references, and the deletions of something that is not one of them. -/
structure JniRefs where
  table : RefTable Obj := {}
  misused : List (Cell Jobject) := []
  deriving Repr

namespace JniRefs

/-- `NewGlobalRef` -/
def new (refs : JniRefs) (obj : Option Obj) : Jobject × JniRefs :=
  match obj with
  | none => (.null, refs)
  | some o => (.globalRef refs.table.next, { refs with table := refs.table.newRef o })

/-- `DeleteGlobalRef` -/
def delete (refs : JniRefs) : Cell Jobject → JniRefs
  | some .null => refs
  | some (.globalRef r) => { refs with table := refs.table.delete r }
  | v => { refs with misused := refs.misused ++ [v] }

/-- The object a reference denotes. -/
def denote (refs : JniRefs) : Jobject → Option Obj
  | .null => none
  | .localRef o => some o
  | .globalRef r => refs.table.get? r

theorem denote_new (refs : JniRefs) (obj : Option Obj) :
    (refs.new obj).2.denote (refs.new obj).1 = obj := by
  cases obj with
  | none => rfl
  | some o => exact RefTable.get?_newRef_next refs.table o

@[simp] theorem denote_delete (refs : JniRefs) (v : Cell Jobject) (jo : Jobject) :
    (refs.delete v).denote jo = refs.denote jo := by
  rcases v with _ | (_ | _ | _) <;> cases jo <;> rfl

/-- The reference is null, local, or a global one that exists. -/
def Known (refs : JniRefs) : Jobject → Prop
  | .globalRef r => r < refs.table.next
  | _ => True

theorem Known.new {refs : JniRefs} {jo : Jobject} (h : refs.Known jo) (obj : Option Obj) :
    (refs.new obj).2.Known jo := by
  cases obj with
  | none => exact h
  | some o =>
      cases jo with
      | null => trivial
      | localRef _ => trivial
      | globalRef r =>
          have hlt : r < refs.table.next := h
          have hsucc : (refs.table.newRef o).next = refs.table.next + 1 :=
            RefTable.next_newRef refs.table o
          have hgoal : r < (refs.table.newRef o).next := by omega
          exact hgoal

theorem Known.delete {refs : JniRefs} {jo : Jobject} (h : refs.Known jo) (v : Cell Jobject) :
    (refs.delete v).Known jo := by
  rcases v with _ | (_ | _ | _) <;> cases jo <;> exact h

theorem known_new_self (refs : JniRefs) (obj : Option Obj) :
    (refs.new obj).2.Known (refs.new obj).1 := by
  cases obj with
  | none => trivial
  | some o =>
      have hsucc : (refs.table.newRef o).next = refs.table.next + 1 :=
        RefTable.next_newRef refs.table o
      have hgoal : refs.table.next < (refs.table.newRef o).next := by omega
      exact hgoal

theorem denote_new_of_known {refs : JniRefs} {jo : Jobject} (h : refs.Known jo)
    (obj : Option Obj) : (refs.new obj).2.denote jo = refs.denote jo := by
  cases obj with
  | none => rfl
  | some o =>
      cases jo with
      | null => rfl
      | localRef _ => rfl
      | globalRef r => exact RefTable.get?_newRef_of_lt o h

/-- Later references: those that were known still are, and denote what they did. -/
def Extends (refs refs' : JniRefs) : Prop :=
  ∀ jo, refs.Known jo → refs'.Known jo ∧ refs'.denote jo = refs.denote jo

theorem Extends.refl (refs : JniRefs) : refs.Extends refs := fun _ h => ⟨h, rfl⟩

theorem Extends.trans {refs₁ refs₂ refs₃ : JniRefs} (h : refs₁.Extends refs₂)
    (h' : refs₂.Extends refs₃) : refs₁.Extends refs₃ := by
  intro jo hjo
  obtain ⟨hknown, hdenote⟩ := h jo hjo
  obtain ⟨hknown', hdenote'⟩ := h' jo hknown
  exact ⟨hknown', hdenote'.trans hdenote⟩

theorem extends_new (refs : JniRefs) (obj : Option Obj) : refs.Extends (refs.new obj).2 :=
  fun _ h => ⟨h.new obj, denote_new_of_known h obj⟩

theorem extends_delete (refs : JniRefs) (v : Cell Jobject) : refs.Extends (refs.delete v) :=
  fun _ h => ⟨h.delete v, denote_delete refs v _⟩

end JniRefs

/-! ## The locals of a frame -/

/-- A value in a local variable slot; a two-slot value stands in its first slot. -/
inductive Local where
  | int (v : BitVec 32)
  | float (v : BitVec 32)
  | long (v : BitVec 64)
  | double (v : BitVec 64)
  | object (o : Option Obj)
  deriving DecidableEq, Repr

/-- The kinds of values that the virtual machine tells apart. -/
inductive Kind where
  | int | float | long | double | object
  deriving DecidableEq, Repr

def Local.kind : Local → Kind
  | .int _ => .int
  | .float _ => .float
  | .long _ => .long
  | .double _ => .double
  | .object _ => .object

/-- The default value of a kind. -/
def Kind.zero : Kind → Local
  | .int => .int 0
  | .float => .float 0
  | .long => .long 0
  | .double => .double 0
  | .object => .object none

/-- `none` is a slot that JVMTI cannot read, as every slot of a native method is. -/
abbrev Locals := Nat → Option Local

namespace Locals

def GetLocalObject (frame : Locals) (slot : Nat) : Cell Jobject :=
  match frame slot with
  | some (.object none) => some .null
  | some (.object (some o)) => some (.localRef o)
  | _ => none

def GetLocalInt (frame : Locals) (slot : Nat) : Cell (BitVec 32) :=
  match frame slot with
  | some (.int v) => some v
  | _ => none

def GetLocalFloat (frame : Locals) (slot : Nat) : Cell (BitVec 32) :=
  match frame slot with
  | some (.float v) => some v
  | _ => none

def GetLocalLong (frame : Locals) (slot : Nat) : Cell (BitVec 64) :=
  match frame slot with
  | some (.long v) => some v
  | _ => none

def GetLocalDouble (frame : Locals) (slot : Nat) : Cell (BitVec 64) :=
  match frame slot with
  | some (.double v) => some v
  | _ => none

def SetLocalObject (frame : Locals) (slot : Nat) (v : Cell (Option Obj)) : Locals :=
  match frame slot with
  | some (.object _) => Function.update frame slot (v.map .object)
  | _ => frame

def SetLocalInt (frame : Locals) (slot : Nat) (v : Cell (BitVec 32)) : Locals :=
  match frame slot with
  | some (.int _) => Function.update frame slot (v.map .int)
  | _ => frame

def SetLocalFloat (frame : Locals) (slot : Nat) (v : Cell (BitVec 32)) : Locals :=
  match frame slot with
  | some (.float _) => Function.update frame slot (v.map .float)
  | _ => frame

def SetLocalLong (frame : Locals) (slot : Nat) (v : Cell (BitVec 64)) : Locals :=
  match frame slot with
  | some (.long _) => Function.update frame slot (v.map .long)
  | _ => frame

def SetLocalDouble (frame : Locals) (slot : Nat) (v : Cell (BitVec 64)) : Locals :=
  match frame slot with
  | some (.double _) => Function.update frame slot (v.map .double)
  | _ => frame

end Locals

end JvmHookFramework
