import GraphCache.Text.Scan
import GraphCache.Yaml.Basic
import GraphCache.Yaml.Spot

/-!
# Tags and directives

A tag begins with an exclamation mark: verbatim between angle brackets, or a handle and a suffix.
Directives are lines in front of a document; they are checked and have no effect.

## Main definitions

* `Yaml.Tag.read?`: the tag behind its exclamation mark.
* `Yaml.directive?`: passes over the directive behind its percent sign.
-/

namespace GraphCache.Yaml

/-- The text of some characters. -/
def Spot.toString (text : List Spot) : String :=
  String.ofList (text.map Spot.char)

namespace Tag

/-- The characters of suffixes that stand for themselves. -/
def isSuffixChar (spot : Spot) : Bool :=
  spot.isNameChar || ";/?:@&=+$,.!~*'()[]".toList.contains spot.char

/-- The octet that two hexadecimal digits behind a percent sign denote. -/
def octet? : List Spot → Option (Nat × List Spot)
  | percent :: high :: low :: rest =>
    if percent.char == '%' then
      (Scan.hexValues? [high.char, low.char]).map (·, rest)
    else none
  | _ => none

/-- The character of an escape: an octet below 128, or a leading and a trailing octet, which stand
side by side in its code point. -/
def escaped? (text : List Spot) : Option (Char × List Spot) := do
  let (first, rest) ← octet? text
  if first < 0x80 then some (Char.ofNat first, rest)
  else if first < 0xC0 ∨ 0xE0 ≤ first then none
  else
    let (second, rest) ← octet? rest
    let code := 256 * first + second
    if 0x80 ≤ second ∧ second < 0xC0 ∧ code.isValidChar then some (Char.ofNat code, rest) else none

/-- The suffix at the front, and what follows it. -/
def suffix? (text : List Spot) : Option (List Char × List Spot) :=
  match text with
  | [] => some ([], [])
  | spot :: rest =>
    if isSuffixChar spot then
      (suffix? rest).map fun (body, rest) => (spot.char :: body, rest)
    else if spot.char == '%' then
      match escaped? (spot :: rest) with
      | some (c, rest') =>
        if rest'.length ≤ rest.length then
          (suffix? rest').map fun (body, rest) => (c :: body, rest)
        else none
      | none => none
    else some ([], spot :: rest)
termination_by text.length
decreasing_by all_goals (simp only [List.length_cons]; omega)

/-- A suffix that is not empty. -/
def nonemptySuffix? (text : List Spot) : Option (List Char × List Spot) :=
  (suffix? text).filter (!·.1.isEmpty)

/-- The tag behind its exclamation mark, and what follows it. -/
def read? (text : List Spot) : Option (Tag × List Spot) :=
  let name := text.takeWhile Spot.isNameChar
  match text, text.dropWhile Spot.isNameChar with
  | first :: rest, after =>
    if first.char == '<' then do
      let (suffix, rest) ← nonemptySuffix? rest
      match rest with
      | last :: rest => if last.char == '>' then some (⟨"", String.ofList suffix⟩, rest) else none
      | [] => none
    else if Spot.startsWith (·.char == '!') after then do
      let (suffix, rest) ← nonemptySuffix? after.tail
      return (⟨"!" ++ Spot.toString name ++ "!", String.ofList suffix⟩, rest)
    else do
      let (more, rest) ← suffix? after
      let suffix := Spot.toString name ++ String.ofList more
      return (if suffix.isEmpty then ⟨"", "!"⟩ else ⟨"!", suffix⟩, rest)
  | [], _ => some (⟨"", "!"⟩, [])

end Tag

/-! ### Directives -/

/-- Passes over a number of at most nine digits. -/
def skipVersionNumber? (text : List Spot) : Option (List Spot) :=
  let digits := (text.takeWhile (·.char.isDigit)).length
  if 0 < digits ∧ digits ≤ 9 then some (text.drop digits) else none

/-- Passes over a version: two numbers with a point between them. -/
def skipVersion? (text : List Spot) : Option (List Spot) := do
  match ← skipVersionNumber? (Spot.skipBlanks text) with
  | point :: rest => if point.char == '.' then skipVersionNumber? rest else none
  | [] => none

/-- Passes over the handle and the prefix of a tag directive. -/
def skipTagDirective? (text : List Spot) : Option (List Spot) := do
  match Spot.skipBlanks text with
  | [] => none
  | first :: rest =>
    if first.char != '!' then none
    else
      let after := rest.dropWhile Spot.isNameChar
      let isHandle := Spot.startsWith (·.char == '!') after
      if !isHandle && after.length < rest.length then none
      else
        let (_, rest) ←
          Tag.nonemptySuffix? (Spot.skipBlanks (if isHandle then after.tail else after))
        if Spot.atSpace rest then some rest else none

/-- Passes over the directive behind its percent sign, and over the end of its line. -/
def directive? (text : List Spot) : Option (List Spot) := do
  let name := text.takeWhile Spot.isNameChar
  let rest := text.dropWhile Spot.isNameChar
  if name.isEmpty || !Spot.atSpace rest then none
  else
    let rest ←
      match Spot.toString name with
      | "YAML" => skipVersion? rest
      | "TAG" => skipTagDirective? rest
      | _ => some (Spot.skipLine rest)
    (Spot.restOfLine? rest).map List.tail

end GraphCache.Yaml
