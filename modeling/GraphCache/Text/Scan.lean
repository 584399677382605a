/-!
# Scanning

What the readers of JSON, GraphQL documents and configuration files share: repetition of a step
over a text or a list of tokens, runs of digits, hexadecimal digits and surrogate pairs.

## Main definitions

* `Scan.all?`: cuts a list into pieces by repeating a step.
* `Scan.naturalValue`: the value of a run of decimal digits.
* `Scan.joinSurrogates?`: the text of a sequence of code points and surrogates.
-/

namespace GraphCache.Scan

/-- Cuts a list into pieces by repeating a step until nothing is left. There is no result when the
step fails or takes nothing from the list. -/
def all? {α β : Type} (step : List β → Option (α × List β)) (items : List β) : Option (List α) :=
  match items with
  | [] => some []
  | item :: items =>
    match step (item :: items) with
    | none => none
    | some (piece, rest) =>
      if rest.length < (item :: items).length then (all? step rest).map (piece :: ·) else none
termination_by items.length
decreasing_by assumption

/-- The value of a run of decimal digits, the first one leading. -/
def naturalValue (digits : List Char) : Nat :=
  digits.foldl (fun n c => 10 * n + (c.toNat - 48)) 0

/-- The value of a hexadecimal digit of either case. -/
def hexValue? (c : Char) : Option Nat :=
  if '0' ≤ c ∧ c ≤ '9' then some (c.toNat - 48)
  else if 'a' ≤ c ∧ c ≤ 'f' then some (c.toNat - 87)
  else if 'A' ≤ c ∧ c ≤ 'F' then some (c.toNat - 55)
  else none

/-- The value of a run of hexadecimal digits, the first one leading. -/
def hexValues? (digits : List Char) : Option Nat :=
  digits.foldlM (fun n c => (hexValue? c).map (16 * n + ·)) 0

/-- The first half of a surrogate pair. -/
def isHighSurrogate (unit : Nat) : Bool :=
  0xD800 ≤ unit && unit < 0xDC00

/-- The second half of a surrogate pair. -/
def isLowSurrogate (unit : Nat) : Bool :=
  0xDC00 ≤ unit && unit < 0xE000

/-- The characters of a sequence of code points and surrogates; a high surrogate must be followed
by a low one, which must follow a high one. -/
def joinSurrogates? : List Nat → Option (List Char)
  | [] => some []
  | high :: low :: rest =>
    if isHighSurrogate high then
      if isLowSurrogate low then
        (joinSurrogates? rest).map
          (Char.ofNat (0x10000 + (high - 0xD800) * 0x400 + (low - 0xDC00)) :: ·)
      else none
    else if isLowSurrogate high then none
    else (joinSurrogates? (low :: rest)).map (Char.ofNat high :: ·)
  | [unit] =>
    if isHighSurrogate unit || isLowSurrogate unit then none else some [Char.ofNat unit]

example : joinSurrogates? [0x61, 0xD83D, 0xDE00] = some ['a', '😀'] := by decide +kernel

example : joinSurrogates? [0xDE00, 0xD83D] = none := by decide +kernel

end GraphCache.Scan
