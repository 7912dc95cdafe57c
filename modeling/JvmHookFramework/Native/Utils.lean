/-
  Native/Utils.lean --- the descriptor scanner of utils.cpp.

  A C string is its list of `char`s without the terminating zero, which `charAt`
  supplies.  Names are UTF-8 there; only single ASCII bytes are ever compared.
-/
import Mathlib.Init

set_option autoImplicit false

namespace JvmHookFramework

/-! ## The signature characters of classfile_constants.h -/

abbrev JVM_SIGNATURE_ARRAY : Char := '['
abbrev JVM_SIGNATURE_BYTE : Char := 'B'
abbrev JVM_SIGNATURE_CHAR : Char := 'C'
abbrev JVM_SIGNATURE_CLASS : Char := 'L'
abbrev JVM_SIGNATURE_FLOAT : Char := 'F'
abbrev JVM_SIGNATURE_DOUBLE : Char := 'D'
abbrev JVM_SIGNATURE_INT : Char := 'I'
abbrev JVM_SIGNATURE_LONG : Char := 'J'
abbrev JVM_SIGNATURE_SHORT : Char := 'S'
abbrev JVM_SIGNATURE_VOID : Char := 'V'
abbrev JVM_SIGNATURE_BOOLEAN : Char := 'Z'

/-- `string[i]`, with the zero that ends a C string. -/
def charAt (string : List Char) (i : Nat) : Char := string.getD i '\x00'

def indexOf.go (c : Char) : List Char → Nat → Option Nat
  | [], _ => none
  | x :: rest, begin => if x = c then some begin else indexOf.go c rest (begin + 1)

/-- The first index from `begin` on that holds `c`; `none` is `(size_t) -1`. -/
def indexOf (string : List Char) (c : Char) (begin : Nat) : Option Nat :=
  indexOf.go c (string.drop begin) begin

/-- `i < end` for an index `end` that `indexOf` returned. -/
def lessThanEnd (i : Nat) : Option Nat → Bool
  | some stop => decide (i < stop)
  | none => true

/-- `end + 1` for an index `end` that `indexOf` returned. -/
def pastEnd : Option Nat → Nat
  | some stop => stop + 1
  | none => 0

/-- `readType` where `desc` continues with the given characters at `*begin`; the
result is the returned character and the new `*begin`. -/
def readType.go (desc : List Char) (stop : Option Nat) : List Char → Nat → Char × Nat
  | [], begin => ('\x00', begin)
  | c :: rest, begin =>
      if c = JVM_SIGNATURE_ARRAY then
        (JVM_SIGNATURE_ARRAY, (readType.go desc stop rest (begin + 1)).2)
      else if c ∈ [JVM_SIGNATURE_BYTE, JVM_SIGNATURE_CHAR, JVM_SIGNATURE_FLOAT,
          JVM_SIGNATURE_DOUBLE, JVM_SIGNATURE_INT, JVM_SIGNATURE_LONG, JVM_SIGNATURE_SHORT,
          JVM_SIGNATURE_BOOLEAN] then
        (c, begin + 1)
      else if c = JVM_SIGNATURE_CLASS then
        match indexOf desc ';' begin with
        | some ind => (JVM_SIGNATURE_CLASS, ind + 1)
        | none => (JVM_SIGNATURE_CLASS, pastEnd stop)
      else (c, begin)

/-- Read one type at `begin`, with the `end` that a class name without `;` runs to. -/
def readType (desc : List Char) (begin : Nat) (stop : Option Nat) : Char × Nat :=
  readType.go desc stop (desc.drop begin) begin

end JvmHookFramework
