import GraphCache.Json.Lexeme
import GraphCache.Yaml.Spot

/-!
# Quoted and plain scalars

Both may go over several lines. What stands between two words is kept when it holds no line end;
otherwise the blanks are dropped, a single line end becomes a blank, and of several line ends all
but the first are kept. In a double-quoted scalar a backslash in front of a line end removes it.

## Main definitions

* `Yaml.Gap`: what stands between two words of a scalar.
* `Yaml.singleQuoted?`, `Yaml.doubleQuoted?`: the scalar behind its opening quotation mark.
* `Yaml.plain?`: the plain scalar at the front.
-/

namespace GraphCache.Yaml

/-- What stands between two words of a scalar. -/
structure Gap where
  /-- The blanks in front of the first line end. -/
  blanks : List Char := []
  /-- The number of line ends. -/
  breaks : Nat := 0
  /-- Whether there is an escaped line end in front. -/
  isEscaped : Bool := false
  deriving DecidableEq

namespace Gap

/-- A gap and one more blank or line end. -/
def add (gap : Gap) (spot : Spot) : Gap :=
  if spot.isBreak then { gap with breaks := gap.breaks + 1 }
  else if gap.breaks = 0 then { gap with blanks := gap.blanks ++ [spot.char] }
  else gap

/-- What remains of a gap. -/
def text (gap : Gap) : List Char :=
  if gap.isEscaped then List.replicate gap.breaks '\n'
  else
    match gap.breaks with
    | 0 => gap.blanks
    | 1 => [' ']
    | more + 1 => List.replicate more '\n'

/-- Whether there is nothing between two characters. -/
def isEmpty (gap : Gap) : Bool :=
  gap.blanks.isEmpty && gap.breaks == 0

end Gap

/-! ### Quoted scalars -/

/-- The code point that a single-character escape stands for. -/
def simpleEscape? (c : Char) : Option Nat :=
  match c with
  | '0' => some 0
  | 'a' => some 0x07
  | 'v' => some 0x0B
  | 'e' => some 0x1B
  | ' ' => some 0x20
  | '\'' => some 0x27
  | 'N' => some 0x85
  | '_' => some 0xA0
  | 'L' => some 0x2028
  | 'P' => some 0x2029
  | '\t' => some 0x09
  | '/' => none
  | c => Json.Lexeme.escape? c

/-- The character of an escape in a double-quoted scalar, and what follows it. -/
def escape? : List Spot → Option (Char × List Spot)
  | [] => none
  | spot :: rest => do
    let digits := match spot.char with
      | 'x' => 2
      | 'u' => 4
      | 'U' => 8
      | _ => 0
    let code ←
      if digits = 0 then simpleEscape? spot.char
      else if rest.length < digits then none
      else Scan.hexValues? ((rest.take digits).map Spot.char)
    if code.isValidChar then some (Char.ofNat code, rest.drop digits) else none

/-- The rest of a double-quoted scalar behind a gap, and what follows it. -/
def doubleQuoted? (gap : Gap) (text : List Spot) : Option (List Char × List Spot) :=
  match text with
  | [] => none
  | spot :: rest =>
    if spot.isSpace then doubleQuoted? (gap.add spot) rest
    else if Spot.isDocumentMark (spot :: rest) then none
    else if spot.char == '"' then some (gap.text, rest)
    else if spot.char == '\\' then
      match rest with
      | [] => none
      | next :: after =>
        if next.isBreak then
          (doubleQuoted? { isEscaped := true } after).map fun (body, rest) =>
            (gap.text ++ body, rest)
        else
          match escape? (next :: after) with
          | some (c, rest') =>
            if rest'.length < (next :: after).length then
              (doubleQuoted? {} rest').map fun (body, rest) => (gap.text ++ c :: body, rest)
            else none
          | none => none
    else (doubleQuoted? {} rest).map fun (body, rest) => (gap.text ++ spot.char :: body, rest)
termination_by text.length
decreasing_by all_goals simp only [List.length_cons] at *; omega

/-- The rest of a single-quoted scalar behind a gap, and what follows it. A quotation mark is
written twice. -/
def singleQuoted? (gap : Gap) : List Spot → Option (List Char × List Spot)
  | [] => none
  | spot :: rest =>
    if spot.isSpace then singleQuoted? (gap.add spot) rest
    else if Spot.isDocumentMark (spot :: rest) then none
    else if spot.char == '\'' then
      match rest with
      | [] => some (gap.text, [])
      | next :: after =>
        if next.char == '\'' then
          (singleQuoted? {} after).map fun (body, rest) => (gap.text ++ '\'' :: body, rest)
        else some (gap.text, next :: after)
    else (singleQuoted? {} rest).map fun (body, rest) => (gap.text ++ spot.char :: body, rest)

/-! ### Plain scalars -/

/-- Whether a character ends a plain scalar: a colon with nothing behind it, and in flow style the
marks of collections. -/
def endsPlain (inFlow : Bool) (spot : Spot) (rest : List Spot) : Bool :=
  spot.char == ':' && (Spot.atSpace rest || inFlow && Spot.startsWith Spot.isFlowMark rest) ||
    inFlow && spot.isFlowMark

/-- The rest of a plain scalar behind a gap, whether it was followed by a line end, and the text
behind it. In block style the lines below the first one must not begin left of the margin. -/
def plain? (inFlow : Bool) (margin : Nat) (gap : Gap) :
    List Spot → Option (List Char × Bool × List Spot)
  | [] => some ([], 0 < gap.breaks, [])
  | spot :: rest =>
    if spot.isSpace then
      if spot.char == '\t' && 0 < gap.breaks && spot.col < margin then none
      else plain? inFlow margin (gap.add spot) rest
    else if endsPlain inFlow spot rest || Spot.isDocumentMark (spot :: rest) ||
        !gap.isEmpty && (spot.char == '#' || !inFlow && spot.col < margin) then
      some ([], 0 < gap.breaks, spot :: rest)
    else
      (plain? inFlow margin {} rest).map fun (body, ended, rest) =>
        (gap.text ++ spot.char :: body, ended, rest)

/-- Two line ends leave one. -/
example : (singleQuoted? {} (Spot.ofText "a \n\n  it''s'")).map Prod.fst =
    some "a\nit's".toList := by
  decide +kernel

/-- A number sign begins a comment only behind a blank. -/
example : (plain? false 0 {} (Spot.ofText "a#b\n c #d")).map Prod.fst = some "a#b c".toList := by
  decide +kernel

end GraphCache.Yaml
