import GraphCache.Yaml.Spot

/-!
# Block scalars

The lines below a vertical bar or a greater-than sign, as far as they are indented. Behind a bar the
line ends are kept; behind a greater-than sign a single line end between two lines becomes a blank,
unless one of them begins with a blank.

The mark may be followed by the indentation and by what becomes of the line ends behind the last
line.

## Main definitions

* `Yaml.BlockHeader`: what is said behind the mark.
* `Yaml.blockScalar?`: the block scalar behind its mark.
-/

namespace GraphCache.Yaml

/-- What becomes of the line ends behind the last line. -/
inductive Chomping where
  /-- They are dropped. -/
  | strip
  /-- The first one is kept. -/
  | clip
  /-- They are kept. -/
  | keep
  deriving DecidableEq

/-- What is said behind the mark of a block scalar. -/
structure BlockHeader where
  /-- What becomes of the line ends behind the last line. -/
  chomping : Chomping := .clip
  /-- The indentation against the surrounding collection; zero if the first line decides. -/
  increment : Nat := 0

namespace BlockHeader

/-- The sign of a kind of chomping. -/
def chomping? (c : Char) : Option Chomping :=
  match c with
  | '+' => some .keep
  | '-' => some .strip
  | _ => none

/-- The indicators behind the mark, in either order, and what follows them. -/
def read? : List Spot → Option (BlockHeader × List Spot)
  | [] => some ({}, [])
  | first :: rest =>
    match chomping? first.char, rest with
    | some chomping, second :: rest =>
      if second.char == '0' then none
      else if second.char.isDigit then some (⟨chomping, second.char.toNat - 48⟩, rest)
      else some ({ chomping }, second :: rest)
    | some chomping, [] => some ({ chomping }, [])
    | none, rest =>
      if first.char == '0' then none
      else if first.char.isDigit then
        let increment := first.char.toNat - 48
        match rest with
        | second :: rest =>
          match chomping? second.char with
          | some chomping => some (⟨chomping, increment⟩, rest)
          | none => some ({ increment }, second :: rest)
        | [] => some ({ increment }, [])
      else some ({}, first :: rest)

end BlockHeader

/-- Passes over blank lines and indentation: counts the line ends, and looks for the deepest column.
The indentation is zero as long as it is not known. Tabs do not indent. -/
def blankLines? (indent breaks deepest : Nat) : List Spot → Option (Nat × Nat × List Spot)
  | [] => some (breaks, deepest, [])
  | spot :: rest =>
    let isIndent := indent = 0 ∨ spot.col < indent
    if isIndent ∧ spot.char = ' ' then blankLines? indent breaks deepest rest
    else if isIndent ∧ spot.char = '\t' then none
    else if spot.isBreak then blankLines? indent (breaks + 1) (max deepest spot.col) rest
    else some (breaks, max deepest spot.col, spot :: rest)

/-- What stands in front of a line of a block scalar. -/
structure LineGap where
  /-- Whether a line was ended in front. -/
  isEnded : Bool := false
  /-- The number of blank lines. -/
  blankLines : Nat := 0
  /-- Whether the line in front begins with a blank. -/
  isIndented : Bool := false

/-- What remains of a gap; it may become a blank if the line ends can be folded. -/
def LineGap.text (gap : LineGap) (canFold : Bool) : List Char :=
  let ending :=
    if !gap.isEnded then []
    else if canFold && !gap.isIndented then if gap.blankLines = 0 then [' '] else []
    else ['\n']
  ending ++ List.replicate gap.blankLines '\n'

/-- The lines of a block scalar with some indentation, what stands behind the last one, and the rest
of the text. -/
def blockLines? (isLiteral : Bool) (indent : Nat) (gap : LineGap) (text : List Spot) :
    Option (List Char × LineGap × List Spot) :=
  match text with
  | [] => some ([], gap, [])
  | first :: rest =>
    if first.col ≠ indent then some ([], gap, first :: rest)
    else
      let line := (first :: rest).takeWhile (!·.isBreak)
      let front := gap.text (!isLiteral && !first.isBlank) ++ line.map Spot.char
      match Spot.skipLine (first :: rest) with
      | [] => some (front, {}, [])
      | _ :: rest' =>
        match blankLines? indent 0 0 rest' with
        | none => none
        | some (blankLines, _, rest') =>
          if rest'.length < (first :: rest).length then
            let gap : LineGap := { isEnded := true, blankLines, isIndented := first.isBlank }
            (blockLines? isLiteral indent gap rest').map fun (body, last, rest) =>
              (front ++ body, last, rest)
          else none
termination_by text.length
decreasing_by assumption

/-- The block scalar behind its mark, and what follows it. The margin is the column right of the
beginning of the surrounding collection. -/
def blockScalar? (isLiteral : Bool) (margin : Nat) (text : List Spot) :
    Option (List Char × List Spot) := do
  let (header, rest) ← BlockHeader.read? text
  let rest ← Spot.restOfLine? rest
  let known := if header.increment = 0 then 0 else margin - 1 + header.increment
  let (breaks, deepest, rest) ← blankLines? known 0 0 rest.tail
  let indent := if known = 0 then max (max deepest margin) 1 else known
  let (body, last, rest) ← blockLines? isLiteral indent { blankLines := breaks } rest
  let ending :=
    (if last.isEnded && header.chomping != .strip then ['\n'] else []) ++
      if header.chomping = .keep then List.replicate last.blankLines '\n' else []
  return (body ++ ending, rest)

/-- A single line end is folded, and the last one is kept. -/
example : (blockScalar? false 0 (Spot.ofText "\n  a\n  b\n\n  c\n\n")).map Prod.fst =
    some "a b\nc\n".toList := by
  decide +kernel

/-- All line ends are kept behind a bar and a plus sign. -/
example : (blockScalar? true 0 (Spot.ofText "+\n a\n  b\n\n")).map Prod.fst =
    some "a\n b\n\n".toList := by
  decide +kernel

end GraphCache.Yaml
