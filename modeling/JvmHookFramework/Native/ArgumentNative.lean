/-
  Native/ArgumentNative.lean --- the native methods of `ArgumentsNative`.

  Every function takes the table that `getParameters` finds through the object's
  `address` (null when the address is 0), the object's `size`, and the index.  The
  getters share one body, and so do the setters; each keeps its own tag, field and
  conversion.  `putInt` is declared native in Java, but no function is exported for it.
-/
import JvmHookFramework.Native.CallParameter

set_option autoImplicit false

namespace JvmHookFramework

inductive Throwable where
  | illegalArgumentException
  | unsatisfiedLinkError
  deriving DecidableEq, Repr

/-- How a call of a native method ends. -/
inductive Result where
  | void
  | value (v : Cell Jvalue)
  /-- `ToReflectedMethod` of a method with a class and a static flag -/
  | reflected (c : Klass) (m : JmethodID) (isStatic : Bool)
  | thrown (e : Throwable)
  deriving DecidableEq, Repr

namespace ArgumentsNative

/-! ## Getters -/

/-- The body the getters share: `getParameters`, the bounds, the tag, the field. -/
def getAs (default : Jvalue) (tag : Char) (field : CallParameter → Cell Jvalue)
    (p : Option (List CallParameter)) (size index : Int) : Result :=
  if index < 0 then .value (some default)
  else
    match p with
    | none => .value (some default)
    | some p =>
        if index < size then
          match p[index.toNat]? with
          | none => .value none
          | some px =>
              if px.type ≠ tag then .thrown .illegalArgumentException
              else .value (field px)
        else .value (some default)

def getAsInt := getAs (.i (-1)) JVM_SIGNATURE_INT fun px => px.iv.map .i

def getAsByte :=
  getAs (.b (-1)) JVM_SIGNATURE_INT fun px => px.iv.map fun iv => .b (iv.truncate 8)

def getAsDouble := getAs (.d 0xBFF0000000000000) JVM_SIGNATURE_DOUBLE fun px => px.jd.map .d

def getAsFloat := getAs (.f 0xBF800000) JVM_SIGNATURE_FLOAT fun px => px.jf.map .f

def getAsShort :=
  getAs (.s (-1)) JVM_SIGNATURE_INT fun px => px.iv.map fun iv => .s (iv.truncate 16)

def getAsBoolean :=
  getAs (.z 0) JVM_SIGNATURE_INT fun px => px.iv.map fun iv => .z (iv.truncate 8)

def getAsLong := getAs (.j (-1)) JVM_SIGNATURE_LONG fun px => px.lv.map .j

def getAsChar :=
  getAs (.c (-1)) JVM_SIGNATURE_INT fun px => px.iv.map fun iv => .c (iv.truncate 16)

def getAsObject := getAs (.l .null) JVM_SIGNATURE_CLASS fun px => px.value.map .l

/-! ## Setters -/

/-- What a setter leaves: its result, the table and the global references. -/
abbrev PutOutcome := Result × Option (List CallParameter) × JniRefs

/-- The body the setters share; `store` makes the new cell. -/
def put (tag : Char) (store : CallParameter → JniRefs → CallParameter × JniRefs)
    (p : Option (List CallParameter)) (size index : Int) (refs : JniRefs) : PutOutcome :=
  if index < 0 then (.void, p, refs)
  else
    match p with
    | none => (.void, p, refs)
    | some table =>
        if index < size then
          match table[index.toNat]? with
          | none => (.void, p, refs)
          | some px =>
              if px.type ≠ tag then (.thrown .illegalArgumentException, p, refs)
              else
                let (px, refs) := store px refs
                (.void, some (table.set index.toNat px), refs)
        else (.void, p, refs)

def putByte (value : BitVec 8) := put JVM_SIGNATURE_INT fun px refs =>
  ({ px with edited := true, iv := some (value.signExtend 32) }, refs)

def putFloat (value : BitVec 32) := put JVM_SIGNATURE_FLOAT fun px refs =>
  ({ px with edited := true, jf := some value }, refs)

def putShort (value : BitVec 16) := put JVM_SIGNATURE_INT fun px refs =>
  ({ px with edited := true, iv := some (value.signExtend 32) }, refs)

def putBoolean (value : BitVec 8) := put JVM_SIGNATURE_INT fun px refs =>
  ({ px with edited := true, iv := some (value.zeroExtend 32) }, refs)

def putDouble (value : BitVec 64) := put JVM_SIGNATURE_DOUBLE fun px refs =>
  ({ px with edited := true, jd := some value }, refs)

def putLong (value : BitVec 64) := put JVM_SIGNATURE_LONG fun px refs =>
  ({ px with edited := true, lv := some value }, refs)

def putChar (value : BitVec 16) := put JVM_SIGNATURE_INT fun px refs =>
  ({ px with edited := true, iv := some (value.zeroExtend 32) }, refs)

def putObject (value : Option Obj) := put JVM_SIGNATURE_CLASS fun px refs =>
  let refs := if px.edited then refs.delete px.value else refs
  let (ref, refs) := refs.new value
  ({ px with edited := true, value := some ref }, refs)

/-! ## The operations of the `Arguments` interface -/

inductive GetOp where
  | getAsInt | getAsByte | getAsDouble | getAsFloat | getAsShort | getAsBoolean
  | getAsLong | getAsChar | getAsObject
  deriving DecidableEq, Repr

inductive PutOp where
  | putInt (value : BitVec 32)
  | putByte (value : BitVec 8)
  | putFloat (value : BitVec 32)
  | putShort (value : BitVec 16)
  | putBoolean (value : Bool)
  | putDouble (value : BitVec 64)
  | putLong (value : BitVec 64)
  | putChar (value : BitVec 16)
  | putObject (value : Option Obj)
  deriving DecidableEq, Repr

def GetOp.call : GetOp → Option (List CallParameter) → Int → Int → Result
  | .getAsInt => ArgumentsNative.getAsInt
  | .getAsByte => ArgumentsNative.getAsByte
  | .getAsDouble => ArgumentsNative.getAsDouble
  | .getAsFloat => ArgumentsNative.getAsFloat
  | .getAsShort => ArgumentsNative.getAsShort
  | .getAsBoolean => ArgumentsNative.getAsBoolean
  | .getAsLong => ArgumentsNative.getAsLong
  | .getAsChar => ArgumentsNative.getAsChar
  | .getAsObject => ArgumentsNative.getAsObject

/-- The virtual machine links a native method to its exported function. -/
def PutOp.call (op : PutOp) (p : Option (List CallParameter)) (size index : Int)
    (refs : JniRefs) : PutOutcome :=
  match op with
  | .putInt _ => (.thrown .unsatisfiedLinkError, p, refs)
  | .putByte value => ArgumentsNative.putByte value p size index refs
  | .putFloat value => ArgumentsNative.putFloat value p size index refs
  | .putShort value => ArgumentsNative.putShort value p size index refs
  | .putBoolean value => ArgumentsNative.putBoolean (if value then 1 else 0) p size index refs
  | .putDouble value => ArgumentsNative.putDouble value p size index refs
  | .putLong value => ArgumentsNative.putLong value p size index refs
  | .putChar value => ArgumentsNative.putChar value p size index refs
  | .putObject value => ArgumentsNative.putObject value p size index refs

end ArgumentsNative

end JvmHookFramework
