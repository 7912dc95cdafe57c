/-
  Native/Handles.lean --- the Java objects that a callback creates for the hooks.

  An `ArgumentsNative`, `ForceEarlyReturnNative`, `JvmReturnValueImpl` or
  `MethodInfoImpl` reaches the variables of the callback that created it through its
  field `address` (or `pointer`).  An address is the number of the callback; 0 is
  `none`.  The variables live in a `Callback`, which stays recorded, marked as
  returned, after its stack frame is gone.
-/
import JvmHookFramework.Native.ArgumentNative
import JvmHookFramework.Native.ForceEarlyReturnNative

set_option autoImplicit false

namespace JvmHookFramework

/-- The number of one execution of `onMethodEntry` or `onMethodExit` past its guards. -/
abbrev CallbackId := Nat

/-- The number of a Java object that a callback created. -/
abbrev HandleId := Nat

/-- A `jstring` from `NewStringUTF`: a local reference of the callback that made it. -/
structure Jstring where
  callback : CallbackId
  chars : List Char
  deriving DecidableEq, Repr

/-- The C++ variables of a callback that its handles point to. -/
structure Callback where
  method : JmethodID
  parameters : List CallParameter := []
  returnForce : CallParameter := {}
  return_value : Option Jvalue := none
  /-- The stack frame is gone. -/
  returned : Bool := false
  deriving Repr

/-- The class of a handle with its fields, the address apart. -/
inductive HandleClass where
  | argumentsNative (size : Int) (thisObj : Cell Jobject)
  | forceEarlyReturnNative
  | jvmReturnValueImpl (e : Option Obj) (isE : Bool)
  | methodInfoImpl (c : Klass) (n desc : Option Jstring) (modi : BitVec 32)
  deriving DecidableEq, Repr

structure Handle where
  cls : HandleClass
  address : Option CallbackId
  /-- The callback that created the object; no code reads it. -/
  creator : CallbackId
  deriving DecidableEq, Repr

/-- `MethodCallImpl`, the argument of the hooks. -/
structure MethodCallImpl where
  owner : Klass
  metName : Option Jstring
  metDesc : Option Jstring
  modifiers : BitVec 32
  /-- `none` is `NoopArguments.I`. -/
  args : Option HandleId
  fer : HandleId
  mi : HandleId
  deriving DecidableEq, Repr

/-! ## JvmReturnValueImpl -/

namespace JvmReturnValueImpl

inductive AsOp where
  | asInt | asByte | asBoolean | asChar | asShort | asLong | asFloat | asDouble | asObject
  deriving DecidableEq, Repr

/-- What an accessor returns when `getJv` is null. -/
def AsOp.default : AsOp → Jvalue
  | .asInt => .i 0
  | .asByte => .b 0
  | .asBoolean => .z 0
  | .asChar => .c 0
  | .asShort => .s 0
  | .asLong => .j 0
  | .asFloat => .f 0
  | .asDouble => .d 0
  | .asObject => .l .null

/-- The member of the union that the accessor reads: its value, or bits of a member
that was not the one stored. -/
def AsOp.read : AsOp → Jvalue → Cell Jvalue
  | .asInt, .i v => some (.i v)
  | .asByte, .b v => some (.b v)
  | .asBoolean, .z v => some (.z v)
  | .asChar, .c v => some (.c v)
  | .asShort, .s v => some (.s v)
  | .asLong, .j v => some (.j v)
  | .asFloat, .f v => some (.f v)
  | .asDouble, .d v => some (.d v)
  | .asObject, .l v => some (.l v)
  | _, _ => none

/-- The body the accessors share; the outer option is the null of `getJv`, the inner
one a `jvalue` that JVMTI left undefined. -/
def AsOp.call (op : AsOp) (v : Option (Option Jvalue)) : Result :=
  match v with
  | none => .value (some op.default)
  | some v => .value (v.bind op.read)

end JvmReturnValueImpl

/-! ## Calls on a handle -/

/-- A native method of one of the four classes, with its arguments. -/
inductive HandleOp where
  | get (op : ArgumentsNative.GetOp) (index : Int)
  | put (op : ArgumentsNative.PutOp) (index : Int)
  | ret (op : ForceEarlyReturnNative.ReturnOp)
  | as (op : JvmReturnValueImpl.AsOp)
  | toMethod
  deriving DecidableEq, Repr

/-- What a call leaves: its result, the variables it reached and the references. -/
abbrev CallOutcome := Result × Option Callback × JniRefs

/-- A native method on an object of class `cls` whose address leads to `callback`;
`none` when the class has no such method. -/
def HandleOp.call (op : HandleOp) (cls : HandleClass) (callback : Option Callback)
    (refs : JniRefs) : Option CallOutcome :=
  match cls, op with
  | .argumentsNative size _, .get op index =>
      some (op.call (callback.map Callback.parameters) size index, callback, refs)
  | .argumentsNative size _, .put op index =>
      let (result, table, refs) := op.call (callback.map Callback.parameters) size index refs
      some (result,
        callback.map fun cb => { cb with parameters := table.getD cb.parameters }, refs)
  | .forceEarlyReturnNative, .ret op =>
      let (c, refs) := op.call (callback.map Callback.returnForce) refs
      some (.void,
        callback.map fun cb => { cb with returnForce := c.getD cb.returnForce }, refs)
  | .jvmReturnValueImpl _ _, .as op =>
      some (op.call (callback.map Callback.return_value), callback, refs)
  | .methodInfoImpl c _ _ modi, .toMethod =>
      match callback with
      | none => some (.value (some (.l .null)), none, refs)
      | some cb =>
          some (.reflected c cb.method (modi &&& JVM_ACC_STATIC != 0), callback, refs)
  | _, _ => none

/-- What a call returns when the object's address is 0: a link failure for `putInt`,
which never reaches native code, else the default. -/
def HandleOp.inert : HandleOp → Result
  | .get .getAsInt _ => .value (some (.i (-1)))
  | .get .getAsByte _ => .value (some (.b (-1)))
  | .get .getAsDouble _ => .value (some (.d 0xBFF0000000000000))
  | .get .getAsFloat _ => .value (some (.f 0xBF800000))
  | .get .getAsShort _ => .value (some (.s (-1)))
  | .get .getAsBoolean _ => .value (some (.z 0))
  | .get .getAsLong _ => .value (some (.j (-1)))
  | .get .getAsChar _ => .value (some (.c (-1)))
  | .get .getAsObject _ => .value (some (.l .null))
  | .put (.putInt _) _ => .thrown .unsatisfiedLinkError
  | .put _ _ => .void
  | .ret _ => .void
  | .as op => .value (some op.default)
  | .toMethod => .value (some (.l .null))

/-- A null address makes every native method inert: the default is returned and no
variable and no reference changes. -/
theorem HandleOp.call_of_null {op : HandleOp} {cls : HandleClass} {refs : JniRefs}
    {outcome : CallOutcome} (h : op.call cls none refs = some outcome) :
    outcome = (op.inert, none, refs) := by
  cases op with
  | get getOp index =>
      cases cls with
      | argumentsNative size thisObj =>
          obtain rfl := Option.some.inj h
          cases getOp <;>
            simp only [ArgumentsNative.GetOp.call, ArgumentsNative.getAsInt,
              ArgumentsNative.getAsByte, ArgumentsNative.getAsDouble,
              ArgumentsNative.getAsFloat, ArgumentsNative.getAsShort,
              ArgumentsNative.getAsBoolean, ArgumentsNative.getAsLong,
              ArgumentsNative.getAsChar, ArgumentsNative.getAsObject, ArgumentsNative.getAs,
              Option.map_none, ite_self, HandleOp.inert]
      | _ => cases h
  | put putOp index =>
      cases cls with
      | argumentsNative size thisObj =>
          obtain rfl := Option.some.inj h
          cases putOp <;>
            simp only [ArgumentsNative.putByte,
              ArgumentsNative.putFloat, ArgumentsNative.putShort, ArgumentsNative.putBoolean,
              ArgumentsNative.putDouble, ArgumentsNative.putLong, ArgumentsNative.putChar,
              ArgumentsNative.putObject, ArgumentsNative.put, Option.map_none, ite_self,
              HandleOp.inert]
      | _ => cases h
  | ret retOp =>
      cases cls with
      | forceEarlyReturnNative =>
          obtain rfl := Option.some.inj h
          cases retOp <;> rfl
      | _ => cases h
  | as asOp =>
      cases cls with
      | jvmReturnValueImpl e isE =>
          obtain rfl := Option.some.inj h
          rfl
      | _ => cases h
  | toMethod =>
      cases cls with
      | methodInfoImpl c n desc modi =>
          obtain rfl := Option.some.inj h
          rfl
      | _ => cases h

end JvmHookFramework
