import GraphCache.Decimal.Binary64

/-!
# The shortest decimal that reads back

Every real number in an interval around a binary64 value is rounded to that value. Among the
decimals `c * 10 ^ p` of that interval, the shortest has the largest `p`; of two such decimals the
nearer one is taken, and of two equally near ones the even one.

## Main definitions

* `Binary64.RoundingInterval`: the interval, scaled to integers.
* `Binary64.shortest`: coefficient and exponent of the shortest decimal.
-/

namespace GraphCache.Binary64

/-- The reals that round to a value, as multiples of a quarter of the unit in its last place. -/
structure RoundingInterval where
  /-- Lower end, in quarter units. -/
  low : Nat
  /-- The value itself, in quarter units. -/
  middle : Nat
  /-- Upper end, in quarter units. -/
  high : Nat
  /-- Whether the ends round to the value: they are ties, which go to the even mantissa. -/
  closed : Bool
  /-- The power of two of a quarter unit. -/
  exponent : Int

/-- The interval of reals that round to the magnitude of a value. Below a power of two the
neighbour is half as far away as above it. -/
def roundingInterval (x : Binary64) : RoundingInterval :=
  let m := x.mantissa
  { low := 4 * m - (if m = leadingBit ∧ 2 * leadingBit ≤ x.rank then 1 else 2)
    middle := 4 * m
    high := 4 * m + 2
    closed := m % 2 == 0
    exponent := x.exponent - 2 }

namespace RoundingInterval

/-- Naturals `a` and `b` with `2 ^ exponent / 10 ^ p = a / b`. -/
def scale (i : RoundingInterval) (p : Int) : Nat × Nat :=
  (Nat.pow 10 (-p).toNat <<< i.exponent.toNat, Nat.pow 10 p.toNat <<< (-i.exponent).toNat)

/-- Whether `c * 10 ^ p` rounds to the value. -/
def holds (i : RoundingInterval) (p : Int) (c : Nat) : Bool :=
  let (a, b) := i.scale p
  if i.closed then i.low * a ≤ c * b && c * b ≤ i.high * a
  else i.low * a < c * b && c * b < i.high * a

/-- The multiple of `10 ^ p` that is nearest to the value. -/
def nearest (i : RoundingInterval) (p : Int) : Nat :=
  let (a, b) := i.scale p
  roundHalfEven (i.middle * a) b

/-- The multiple of `10 ^ p` in the interval that is nearest to the value, if there is one.
Only the two neighbours of the value need to be tried. -/
def pointAt? (i : RoundingInterval) (p : Int) : Option Nat :=
  let (a, b) := i.scale p
  let below := i.middle * a / b
  match i.holds p below, i.holds p (below + 1) with
  | true, true => some (i.nearest p)
  | true, false => some below
  | false, true => some (below + 1)
  | false, false => none

/-- Tries the grids `10 ^ p`, `10 ^ (p - 1)`, … and takes the first one that meets the interval. -/
def firstPoint (i : RoundingInterval) : Nat → Int → Nat × Int
  | 0, p => (i.nearest p, p)
  | grids + 1, p =>
    match i.pointAt? p with
    | some c => (c, p)
    | none => firstPoint i grids (p - 1)

end RoundingInterval

/-- Coefficient and exponent of the shortest decimal that reads back as the magnitude. The search
starts above the value, since `30103 / 100000` exceeds the logarithm of two, and seventeen digits
always suffice. -/
def shortest (x : Binary64) : Nat × Int :=
  if x.rank = 0 then (0, 0)
  else
    let top : Int := (x.mantissa.log2 + x.exponent + 1) * 30103 / 100000 + 1
    x.roundingInterval.firstPoint 20 top

/-- The smallest magnitude has one digit. -/
example : shortest ⟨false, 1, by decide⟩ = (5, -324) := by decide +kernel

/-- A power of two has a nearer neighbour below. -/
example : (ofDecimal? false 9007199254740993 0).map shortest = some (9007199254740992, 0) := by
  decide +kernel

end GraphCache.Binary64
