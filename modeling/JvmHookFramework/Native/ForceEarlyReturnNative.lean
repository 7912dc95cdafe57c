/-
  Native/ForceEarlyReturnNative.lean --- the `return*` methods of
  `ForceEarlyReturnNative`, and the switch that both callbacks end with.

  The native setters write one `CallParameter` that lives in the callback; `returnShort`,
  `returnChar`, `returnByte` and `returnBoolean` are Java methods that widen their
  argument and call `returnInt`.
-/
import Mathlib.Algebra.Group.Nat.Defs
import JvmHookFramework.Native.CallParameter

set_option autoImplicit false

namespace JvmHookFramework

/-! ## The conversion of `jdouble` to `jfloat` -/

/-- `m / 2 ^ k` rounded to the nearest integer, a tie to the even one. -/
def roundShift (m k : Nat) : Nat :=
  let q := m / 2 ^ k
  let r := m % 2 ^ k
  if 2 ^ k < 2 * r ∨ (2 * r = 2 ^ k ∧ q % 2 = 1) then q + 1 else q

/-- The assignment of a `jdouble` to a `jfloat`: IEEE 754 rounding to nearest, with
infinity past the range and a quiet NaN for a NaN. -/
def jdoubleToJfloat (d : BitVec 64) : BitVec 32 :=
  let sign := d.toNat / 2 ^ 63
  let exponent := d.toNat / 2 ^ 52 % 2 ^ 11
  let fraction := d.toNat % 2 ^ 52
  let magnitude :=
    if exponent = 2047 then
      if fraction = 0 then 0x7F800000
      else 0x7FC00000 ||| fraction / 2 ^ 29
    else if exponent = 0 then 0
    else if 897 ≤ exponent then
      -- the implicit bit of the significand adds one to the exponent field
      min ((exponent - 897) * 2 ^ 23 + roundShift (2 ^ 52 + fraction) 29) 0x7F800000
    else roundShift (2 ^ 52 + fraction) (29 + (897 - exponent))
  BitVec.ofNat 32 (sign * 2 ^ 31 + magnitude)

-- 1.0, 0.1, the largest double, and the smallest subnormal float
example : jdoubleToJfloat 0x3FF0000000000000 = 0x3F800000 := by decide
example : jdoubleToJfloat 0x3FB999999999999A = 0x3DCCCCCD := by decide
example : jdoubleToJfloat 0x7FEFFFFFFFFFFFFF = 0x7F800000 := by decide
example : jdoubleToJfloat 0x36A0000000000000 = 0x00000001 := by decide

namespace ForceEarlyReturnNative

/-! ## Setters

The argument `c` is what `getCP` finds through the object's `address`. -/

/-- What a setter leaves: the record and the global references. -/
abbrev ReturnOutcome := Option CallParameter × JniRefs

def returnVoid (c : Option CallParameter) (refs : JniRefs) : ReturnOutcome :=
  match c with
  | none => (none, refs)
  | some c => (some { c with edited := true }, refs)

def returnInt (value : BitVec 32) (c : Option CallParameter) (refs : JniRefs) :
    ReturnOutcome :=
  match c with
  | none => (none, refs)
  | some c => (some { c with edited := true, iv := some value }, refs)

def returnFloat (value : BitVec 32) (c : Option CallParameter) (refs : JniRefs) :
    ReturnOutcome :=
  match c with
  | none => (none, refs)
  | some c => (some { c with edited := true, jf := some value }, refs)

/-- The code stores into `jf`. -/
def returnDouble (value : BitVec 64) (c : Option CallParameter) (refs : JniRefs) :
    ReturnOutcome :=
  match c with
  | none => (none, refs)
  | some c => (some { c with edited := true, jf := some (jdoubleToJfloat value) }, refs)

def returnLong (value : BitVec 64) (c : Option CallParameter) (refs : JniRefs) :
    ReturnOutcome :=
  match c with
  | none => (none, refs)
  | some c => (some { c with edited := true, lv := some value }, refs)

def returnObject (value : Option Obj) (c : Option CallParameter) (refs : JniRefs) :
    ReturnOutcome :=
  match c with
  | none => (none, refs)
  | some c =>
      let refs := if c.edited then refs.delete c.value else refs
      let (ref, refs) := refs.new value
      (some { c with edited := true, value := some ref }, refs)

/-! ## The operations of the `ForceEarlyReturn` interface -/

inductive ReturnOp where
  | returnVoid
  | returnInt (value : BitVec 32)
  | returnFloat (value : BitVec 32)
  | returnDouble (value : BitVec 64)
  | returnLong (value : BitVec 64)
  | returnShort (value : BitVec 16)
  | returnChar (value : BitVec 16)
  | returnByte (value : BitVec 8)
  | returnBoolean (value : Bool)
  | returnObject (value : Option Obj)
  deriving DecidableEq, Repr

def ReturnOp.call : ReturnOp → Option CallParameter → JniRefs → ReturnOutcome
  | .returnVoid => ForceEarlyReturnNative.returnVoid
  | .returnInt value => ForceEarlyReturnNative.returnInt value
  | .returnFloat value => ForceEarlyReturnNative.returnFloat value
  | .returnDouble value => ForceEarlyReturnNative.returnDouble value
  | .returnLong value => ForceEarlyReturnNative.returnLong value
  | .returnShort value => ForceEarlyReturnNative.returnInt (value.signExtend 32)
  | .returnChar value => ForceEarlyReturnNative.returnInt (value.zeroExtend 32)
  | .returnByte value => ForceEarlyReturnNative.returnInt (value.signExtend 32)
  | .returnBoolean value => ForceEarlyReturnNative.returnInt (if value then 1 else 0)
  | .returnObject value => ForceEarlyReturnNative.returnObject value

end ForceEarlyReturnNative

/-! ## Forcing the return -/

/-- A call of one of the JVMTI `ForceEarlyReturn*` functions. -/
inductive ForceCall where
  | ForceEarlyReturnObject (value : Cell Jobject)
  | ForceEarlyReturnInt (value : Cell (BitVec 32))
  | ForceEarlyReturnVoid
  | ForceEarlyReturnFloat (value : Cell (BitVec 32))
  | ForceEarlyReturnDouble (value : Cell (BitVec 64))
  | ForceEarlyReturnLong (value : Cell (BitVec 64))
  deriving DecidableEq, Repr

/-- The `if (returnForce.edited)` of both callbacks, for the first character of the
return type that the callback found. -/
def forceReturn (t : Char) (returnForce : CallParameter) (refs : JniRefs) :
    List ForceCall × JniRefs :=
  if returnForce.edited then
    if t ∈ [JVM_SIGNATURE_CLASS, JVM_SIGNATURE_ARRAY] then
      ([.ForceEarlyReturnObject returnForce.value], refs.delete returnForce.value)
    else if t ∈ [JVM_SIGNATURE_INT, JVM_SIGNATURE_SHORT, JVM_SIGNATURE_CHAR,
        JVM_SIGNATURE_BOOLEAN, JVM_SIGNATURE_BYTE] then
      ([.ForceEarlyReturnInt returnForce.iv], refs)
    else if t = JVM_SIGNATURE_VOID then ([.ForceEarlyReturnVoid], refs)
    else if t = JVM_SIGNATURE_FLOAT then ([.ForceEarlyReturnFloat returnForce.jf], refs)
    else if t = JVM_SIGNATURE_DOUBLE then ([.ForceEarlyReturnDouble returnForce.jd], refs)
    else if t = JVM_SIGNATURE_LONG then ([.ForceEarlyReturnLong returnForce.lv], refs)
    else ([], refs)
  else ([], refs)

end JvmHookFramework
