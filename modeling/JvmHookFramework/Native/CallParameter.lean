/-
  Native/CallParameter.lean --- the record `CallParameter` and the switches that fill
  it from a frame and write it back (lib.cpp, `onMethodEntry`).
-/
import JvmHookFramework.Jvm.Values
import JvmHookFramework.Native.Utils

set_option autoImplicit false

namespace JvmHookFramework

/-- `CallParameter()`, which zeroes every field, is the default value. -/
structure CallParameter where
  type : Char := '\x00'
  value : Cell Jobject := some .null
  edited : Bool := false
  iv : Cell (BitVec 32) := some 0
  slot : Nat := 0
  lv : Cell (BitVec 64) := some 0
  jd : Cell (BitVec 64) := some 0
  jf : Cell (BitVec 32) := some 0
  deriving DecidableEq, Repr

/-- The `type` of a cell that carries a value of the kind. -/
def Kind.tag : Kind → Char
  | .int => JVM_SIGNATURE_INT
  | .float => JVM_SIGNATURE_FLOAT
  | .long => JVM_SIGNATURE_LONG
  | .double => JVM_SIGNATURE_DOUBLE
  | .object => JVM_SIGNATURE_CLASS

/-- The value in the field of a kind. -/
def CallParameter.read (c : CallParameter) (refs : JniRefs) : Kind → Option Local
  | .int => c.iv.map .int
  | .float => c.jf.map .float
  | .long => c.lv.map .long
  | .double => c.jd.map .double
  | .object => c.value.map fun jo => .object (refs.denote jo)

/-- The reference in the record exists. -/
def CallParameter.Known (c : CallParameter) (refs : JniRefs) : Prop :=
  ∀ jo ∈ c.value, refs.Known jo

theorem CallParameter.read_extends {c : CallParameter} {refs refs' : JniRefs}
    (hextends : refs.Extends refs') (hknown : c.Known refs) (k : Kind) :
    c.read refs' k = c.read refs k := by
  cases k with
  | object =>
      simp only [read]
      cases hvalue : c.value with
      | none => rfl
      | some jo =>
          rw [Option.map_some, Option.map_some, (hextends jo (hknown jo hvalue)).2]
  | _ => rfl

theorem CallParameter.Known.extends {c : CallParameter} {refs refs' : JniRefs}
    (hknown : c.Known refs) (hextends : refs.Extends refs') : c.Known refs' :=
  fun jo hjo => (hextends jo (hknown jo hjo)).1

/-- Both object setters drop the reference of an edited record before they store. -/
theorem CallParameter.extends_drop (c : CallParameter) (refs : JniRefs) :
    refs.Extends (if c.edited then refs.delete c.value else refs) := by
  cases c.edited with
  | true => exact JniRefs.extends_delete refs c.value
  | false => exact JniRefs.Extends.refl refs

/-! ## Reading the arguments of the hooked frame -/

/-- One pass of the filling loop's `switch`: the cell and the slots it takes.  A
character that no case names leaves the cell and the slot counter alone. -/
def readParameter (frame : Locals) (t : Char) (slots : Nat) : Option (CallParameter × Nat) :=
  if t ∈ [JVM_SIGNATURE_ARRAY, JVM_SIGNATURE_CLASS] then
    some ({ type := JVM_SIGNATURE_CLASS, value := frame.GetLocalObject slots,
            slot := slots, edited := false }, 1)
  else if t ∈ [JVM_SIGNATURE_BYTE, JVM_SIGNATURE_CHAR, JVM_SIGNATURE_INT,
      JVM_SIGNATURE_SHORT, JVM_SIGNATURE_BOOLEAN] then
    some ({ type := JVM_SIGNATURE_INT, iv := frame.GetLocalInt slots,
            slot := slots, edited := false }, 1)
  else if t = JVM_SIGNATURE_FLOAT then
    some ({ type := JVM_SIGNATURE_FLOAT, jf := frame.GetLocalFloat slots,
            slot := slots, edited := false }, 1)
  else if t = JVM_SIGNATURE_LONG then
    some ({ type := JVM_SIGNATURE_LONG, lv := frame.GetLocalLong slots,
            slot := slots, edited := false }, 2)
  else if t = JVM_SIGNATURE_DOUBLE then
    some ({ type := JVM_SIGNATURE_DOUBLE, jd := frame.GetLocalDouble slots,
            slot := slots, edited := false }, 2)
  else none

/-- The counting loop from `i` on; `none` when it has not ended within the fuel. -/
def countParameters (desc : List Char) (stop : Option Nat) : Nat → Nat → Nat → Option Nat
  | fuel, i, size =>
      if lessThanEnd i stop then
        match fuel with
        | 0 => none
        | fuel + 1 => countParameters desc stop fuel (readType desc i stop).2 (size + 1)
      else some size

/-- The filling loop from `i` and `x` on; `none` when it has not ended within the fuel
or writes past the allocated cells. -/
def fillParameters (frame : Locals) (desc : List Char) (stop : Option Nat) :
    Nat → Nat → Nat → Nat → List CallParameter → Option (List CallParameter)
  | fuel, i, x, slots, parameters =>
      if lessThanEnd i stop then
        match fuel with
        | 0 => none
        | fuel + 1 =>
            let (t, i) := readType desc i stop
            match readParameter frame t slots with
            | none => fillParameters frame desc stop fuel i (x + 1) slots parameters
            | some (p, width) =>
                if x < parameters.length then
                  fillParameters frame desc stop fuel i (x + 1) (slots + width)
                    (parameters.set x p)
                else none
      else some parameters

/-- The parameter table that `onMethodEntry` builds.  Every pass of a loop that ends
moves its cursor, so the length of the descriptor is fuel enough. -/
def readParameters (frame : Locals) (desc : List Char) (isStatic : Bool) :
    Option (List CallParameter) :=
  let slots := if isStatic then 0 else 1
  let stop := indexOf desc ')' 1
  match countParameters desc stop desc.length 1 0 with
  | none => none
  | some size =>
      fillParameters frame desc stop desc.length 1 0 slots (List.replicate size {})

/-! ## Writing the table back -/

/-- One pass of the write-back loop. -/
def writeParameter (state : Locals × JniRefs) (p : CallParameter) : Locals × JniRefs :=
  let (frame, refs) := state
  if p.edited then
    if p.type = JVM_SIGNATURE_INT then (frame.SetLocalInt p.slot p.iv, refs)
    else if p.type = JVM_SIGNATURE_FLOAT then (frame.SetLocalFloat p.slot p.jf, refs)
    else if p.type = JVM_SIGNATURE_DOUBLE then (frame.SetLocalDouble p.slot p.jd, refs)
    else if p.type = JVM_SIGNATURE_CLASS then
      (frame.SetLocalObject p.slot (p.value.map refs.denote), refs.delete p.value)
    else if p.type = JVM_SIGNATURE_LONG then (frame.SetLocalLong p.slot p.lv, refs)
    else (frame, refs)
  else (frame, refs)

def writeParameters (parameters : List CallParameter) (frame : Locals) (refs : JniRefs) :
    Locals × JniRefs :=
  parameters.foldl writeParameter (frame, refs)

end JvmHookFramework
