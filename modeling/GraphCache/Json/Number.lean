import GraphCache.Decimal.Layout

/-!
# JSON numbers

A JSON number is an integer from `-2 ^ 63` to `2 ^ 64 - 1` or a finite binary64 value. Integers
and floating-point numbers are never equal.

## Main definitions

* `Number`: the two kinds of numbers.
* `Number.same`: equality of numbers.
* `Number.chars`: the text of a number.
* `Number.ofLiteral?`: the number that a literal denotes.
-/

namespace GraphCache

/-- A JSON number. -/
inductive Number where
  /-- An integer that fits 64 bits, signed or unsigned. -/
  | integer (value : Int) (lower : -0x8000000000000000 ≤ value)
    (upper : value < 0x10000000000000000)
  /-- A finite floating-point number. -/
  | float (value : Binary64)
  deriving DecidableEq

/-- The parts of a number literal: sign, digits and, where a fraction or an exponent is written,
the power of ten that scales all its digits. -/
structure NumberLiteral where
  /-- Whether a minus sign is written. -/
  negative : Bool
  /-- The digits before and after the point, as one natural number. -/
  digits : Nat
  /-- The scale of the digits, absent from an integer literal. -/
  scale : Option Int
  deriving DecidableEq

namespace Number

/-- The integer as a number, if it is in range. -/
def ofInt? (value : Int) : Option Number :=
  if h : -0x8000000000000000 ≤ value ∧ value < 0x10000000000000000 then
    some (.integer value h.1 h.2)
  else none

/-- The integer when it fits a signed 64-bit word. -/
def toInt64? : Number → Option Int
  | .integer value _ _ => if value < 0x8000000000000000 then some value else none
  | .float _ => none

/-- Equality of numbers: an integer is never a floating-point number, and both zeros are one. -/
def same : Number → Number → Bool
  | .integer a _ _, .integer b _ _ => a == b
  | .float a, .float b => a.sameValue b
  | _, _ => false

/-- Floating-point numbers are written positionally from `0.00001` to below `1e+16`. -/
def layout : DecimalLayout :=
  ⟨-5, 16⟩

/-- The text of a number; floating-point numbers have the fewest digits that read back. -/
def chars : Number → List Char
  | .integer value _ _ => (if value < 0 then ['-'] else []) ++ Nat.toDigits 10 value.natAbs
  | .float x =>
    let (coefficient, p) := x.shortest
    (if x.negative then ['-'] else []) ++ layout.write coefficient p

/-- The number that a literal denotes: an integer where that is possible, else the nearest
floating-point number. Negative zero is a floating-point number. -/
def ofLiteral? (literal : NumberLiteral) : Option Number :=
  match literal.scale with
  | some p => (Binary64.ofDecimal? literal.negative literal.digits p).map .float
  | none =>
    let value : Int := if literal.negative then -literal.digits else literal.digits
    if literal.negative ∧ literal.digits = 0 then some (.float (Binary64.zero true))
    else
      match ofInt? value with
      | some n => some n
      | none => (Binary64.ofDecimal? literal.negative literal.digits 0).map .float

@[simp] theorem same_self (n : Number) : n.same n = true := by
  cases n <;> simp [same]

theorem same_comm (m n : Number) : m.same n = n.same m := by
  cases m <;> cases n <;> simp [same, Binary64.sameValue_comm, Bool.beq_comm]

example : (ofLiteral? ⟨true, 0, none⟩).map chars = some ['-', '0', '.', '0'] := by decide +kernel

example :
    (ofLiteral? ⟨false, 0xFFFFFFFFFFFFFFFF, none⟩).map chars =
      some "18446744073709551615".toList := by
  decide +kernel

example : (ofLiteral? ⟨false, 15, some 299⟩).map chars = some "1.5e+300".toList := by
  decide +kernel

example : (ofLiteral? ⟨false, 1, some (-5)⟩).map chars = some "0.00001".toList := by
  decide +kernel

end Number

end GraphCache
