/-
  Jvm/Interface.lean --- what the native code sees of the virtual machine.

  Methods, classes and objects are opaque identities.  A `Jvm` holds the answers of
  the JVMTI and JNI queries that never change while methods run: the metadata of a
  method, the loader of a class, and the two class loaders the framework compares
  against.  Global references live in a `RefTable`.
-/
import JvmHookFramework.Foundation.RefTable

set_option autoImplicit false

namespace JvmHookFramework

open Foundation

/-- A `jmethodID`, a pointer that JVMTI hands out. -/
structure JmethodID where
  ptr : Nat
  deriving DecidableEq, Repr, Inhabited

/-- A Java object, by identity. -/
structure Obj where
  id : Nat
  deriving DecidableEq, Repr, Inhabited

/-- A loaded class, by identity. -/
structure Klass where
  id : Nat
  deriving DecidableEq, Repr, Inhabited

/-- `JVM_ACC_STATIC` of classfile_constants.h. -/
def JVM_ACC_STATIC : BitVec 32 := 0x0008

/-- The fixed answers of the virtual machine.  The last two fields are the globals
`classLoaderX`, set by `initializeNative`, and `extClassLoader`, set while the
extensions load; both are settled before method events are enabled. -/
structure Jvm where
  /-- `*((void **) m)` -/
  deref : JmethodID → Nat
  GetMethodDeclaringClass : JmethodID → Klass
  /-- `none` is the bootstrap loader, which JVMTI reports as null. -/
  GetClassLoader : Klass → Option Obj
  methodName : JmethodID → List Char
  methodDesc : JmethodID → List Char
  GetMethodModifiers : JmethodID → BitVec 32
  classLoaderX : Option Obj
  extClassLoader : Option Obj

namespace Jvm

/-- A machine for tests: every method `m` is `static void m()` of one class, and the
framework's loaders load none of them. -/
def plain : Jvm where
  deref m := m.ptr
  GetMethodDeclaringClass _ := ⟨0⟩
  GetClassLoader _ := some ⟨10⟩
  methodName _ := ['m']
  methodDesc _ := ['(', ')', 'V']
  GetMethodModifiers _ := JVM_ACC_STATIC
  classLoaderX := some ⟨20⟩
  extClassLoader := some ⟨30⟩

end Jvm

/-! ## Global references

A global reference is the number the table gave it; a null `jobject` is `none`. -/

/-- `NewGlobalRef`: a null object gives a null reference. -/
def NewGlobalRef (obj : Option Obj) (refs : RefTable Obj) : Option Nat × RefTable Obj :=
  match obj with
  | none => (none, refs)
  | some o => (some refs.next, refs.newRef o)

/-- `DeleteGlobalRef`, which ignores null. -/
def DeleteGlobalRef (ref : Option Nat) (refs : RefTable Obj) : RefTable Obj :=
  match ref with
  | none => refs
  | some r => refs.delete r

/-- The object a possibly null reference denotes. -/
def denote (refs : RefTable Obj) (ref : Option Nat) : Option Obj :=
  ref.bind refs.get?

@[simp] theorem denote_DeleteGlobalRef (ref other : Option Nat) (refs : RefTable Obj) :
    denote (DeleteGlobalRef ref refs) other = denote refs other := by
  cases ref <;> rfl

theorem denote_NewGlobalRef (obj : Option Obj) (refs : RefTable Obj) :
    denote (NewGlobalRef obj refs).2 (NewGlobalRef obj refs).1 = obj := by
  cases obj with
  | none => rfl
  | some o => exact RefTable.get?_newRef_next refs o

/-- References that exist keep their meaning when another one is created. -/
theorem denote_NewGlobalRef_of_lt {refs : RefTable Obj} {ref : Option Nat} (obj : Option Obj)
    (h : ∀ r ∈ ref, r < refs.next) :
    denote (NewGlobalRef obj refs).2 ref = denote refs ref := by
  cases obj with
  | none => rfl
  | some o =>
      cases ref with
      | none => rfl
      | some r => exact RefTable.get?_newRef_of_lt o (h r rfl)

end JvmHookFramework
