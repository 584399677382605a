/-!
# Finite binary64 values

A finite binary64 value is a sign and a rank: the number of non-negative finite values below its
magnitude. Rank and value are related without any rounding, so decimal text can be read and
written in exact arithmetic on natural numbers.

## Main definitions

* `Binary64`: sign and rank.
* `Binary64.mantissa`, `Binary64.exponent`: the magnitude is `mantissa * 2 ^ exponent`.
* `Binary64.ofRatio?`: the value nearest to a quotient, a tie going to the even mantissa.
* `Binary64.ofDecimal?`: the value nearest to `digits * 10 ^ exponent`.
-/

namespace GraphCache

/-- A finite binary64 value: its sign, and the rank of its magnitude among the finite ones. -/
structure Binary64 where
  /-- Whether the sign bit is set; zero has both signs. -/
  negative : Bool
  /-- The number of finite magnitudes below this one. -/
  rank : Nat
  /-- Ranks from here on belong to infinity and to what is not a number. -/
  finite : rank < 0x7FF0000000000000
  deriving DecidableEq

namespace Binary64

/-- Zero with the given sign. -/
def zero (negative : Bool) : Binary64 :=
  ⟨negative, 0, by decide⟩

/-- The significand of a power of two in the normal range, which is also the number of magnitudes
from one power of two to the next. -/
def leadingBit : Nat :=
  0x10000000000000

/-- The integer significand of the magnitude. -/
def mantissa (x : Binary64) : Nat :=
  if x.rank < leadingBit then x.rank else x.rank % leadingBit + leadingBit

/-- The power of two that scales the significand. -/
def exponent (x : Binary64) : Int :=
  if x.rank < leadingBit then -1074 else (x.rank / leadingBit : Nat) - 1075

/-- Equality of numbers: the two zeros are the same number. -/
def sameValue (x y : Binary64) : Bool :=
  x.rank == y.rank && (x.rank == 0 || x.negative == y.negative)

/-- The integer nearest to a quotient, a tie going to the even one. -/
def roundHalfEven (num den : Nat) : Nat :=
  let q := num / den
  let r := num % den
  if 2 * r < den then q
  else if den < 2 * r then q + 1
  else q + q % 2

/-- Numerator and denominator of `num / den / 2 ^ e`. -/
def scaled (num den : Nat) (e : Int) : Nat × Nat :=
  if 0 ≤ e then (num, den <<< e.toNat) else (num <<< (-e).toNat, den)

/-- The value nearest to `num / den`, or `none` when that is beyond the largest finite one. -/
def ofRatio? (negative : Bool) (num den : Nat) : Option Binary64 :=
  if num = 0 then some (zero negative)
  else
    -- the quotient lies between 2 ^ (guess + 52) and 2 ^ (guess + 54), or below the normal range
    let guess : Int := max ((num.log2 : Int) - den.log2 - 53) (-1074)
    let (n, d) := scaled num den guess
    let e := if n / d < 2 * leadingBit then guess else guess + 1
    let (n, d) := scaled num den e
    let rank := (e + 1074).toNat * leadingBit + roundHalfEven n d
    if h : rank < 0x7FF0000000000000 then some ⟨negative, rank, h⟩ else none

/-- The value nearest to `digits * 10 ^ exponent`, or `none` when it overflows. The exponent is
compared with the range of finite values first, so a huge one costs nothing. -/
def ofDecimal? (negative : Bool) (digits : Nat) (exponent : Int) : Option Binary64 :=
  if digits = 0 then some (zero negative)
  else if 310 < exponent then none
  else if exponent + (Nat.toDigits 10 digits).length < -330 then some (zero negative)
  else if 0 ≤ exponent then ofRatio? negative (digits * Nat.pow 10 exponent.toNat) 1
  else ofRatio? negative digits (Nat.pow 10 (-exponent).toNat)

/-- Every value is the same number as itself. -/
@[simp] theorem sameValue_self (x : Binary64) : x.sameValue x = true := by
  simp [sameValue]

theorem sameValue_comm (x y : Binary64) : x.sameValue y = y.sameValue x := by
  rw [Bool.eq_iff_iff]
  simp only [sameValue, Bool.and_eq_true, Bool.or_eq_true, beq_iff_eq]
  constructor <;> rintro ⟨h, h'⟩ <;> exact ⟨h.symm, h'.imp (h ▸ ·) Eq.symm⟩

/-- One is the rank of the binade `1023`. -/
example : ofDecimal? false 1 0 = some ⟨false, 1023 * leadingBit, by decide⟩ := by decide +kernel

/-- Half of the smallest magnitude is a tie and goes to zero. -/
example : ofRatio? true 1 (1 <<< 1075) = some (zero true) := by decide +kernel

/-- Halfway between the largest finite value and the next power of two is beyond the range. -/
example : ofRatio? false (1 <<< 1024 - 1 <<< 970) 1 = none := by decide +kernel

end Binary64

end GraphCache
