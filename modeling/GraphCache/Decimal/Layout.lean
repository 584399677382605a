import GraphCache.Decimal.Shortest

/-!
# Decimal notation

How the shortest digits of a number are laid out: positionally in a range of exponents, with a
power of ten outside it.

## Main definitions

* `DecimalLayout`: the range of exponents written positionally.
* `DecimalLayout.write`: the text of a coefficient and an exponent.
-/

namespace GraphCache

/-- Which numbers are written positionally. The exponent of a number is that of its first digit. -/
structure DecimalLayout where
  /-- The smallest exponent written positionally. -/
  positionalFrom : Int
  /-- The first exponent that is too large for positional notation. -/
  positionalBelow : Int

namespace DecimalLayout

/-- Digits with a point before the last `-p` of them, `0.` in front where it is needed and `.0`
behind an integer. -/
def positional (digits : List Char) (p : Int) : List Char :=
  if 0 ≤ p then digits ++ List.replicate p.toNat '0' ++ ['.', '0']
  else
    let places := (-p).toNat
    if places < digits.length then
      digits.take (digits.length - places) ++ '.' :: digits.drop (digits.length - places)
    else '0' :: '.' :: (List.replicate (places - digits.length) '0' ++ digits)

/-- One digit, the others behind a point, and a signed power of ten. -/
def scientific (digits : List Char) (e : Int) : List Char :=
  let head := digits.take 1 ++ if digits.length ≤ 1 then [] else '.' :: digits.drop 1
  head ++ 'e' :: (if e < 0 then '-' else '+') :: Nat.toDigits 10 e.natAbs

/-- The text of `coefficient * 10 ^ p`. -/
def write (layout : DecimalLayout) (coefficient : Nat) (p : Int) : List Char :=
  let digits := Nat.toDigits 10 coefficient
  let e := p + digits.length - 1
  if layout.positionalFrom ≤ e ∧ e < layout.positionalBelow then positional digits p
  else scientific digits e

end DecimalLayout

end GraphCache
