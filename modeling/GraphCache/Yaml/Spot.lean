/-!
# The places of a text

Indentation has a meaning in YAML, so every character is read together with its line and column.

A line ends with a line feed, a carriage return or both; each of these becomes one line feed. Lines
are counted by line feeds alone: a carriage return on its own ends a line without beginning a new
line or column count. A text ends at the character `U+0000`.

## Main definitions

* `Yaml.Spot`: a character and where it stands.
* `Yaml.Spot.ofText`: the characters of a text.
* `Yaml.Spot.isDocumentMark`: whether a text begins with three dashes or three points.
-/

namespace GraphCache.Yaml

/-- A character and where it stands. -/
structure Spot where
  /-- The character. -/
  char : Char
  /-- The number of characters in front of it. -/
  index : Nat
  /-- The number of line feeds in front of it. -/
  line : Nat
  /-- The number of characters between the last line feed and this one. -/
  col : Nat

namespace Spot

/-- The characters of a text that begins at a place. -/
def ofChars (index line col : Nat) : List Char → List Spot
  | [] => []
  | '\r' :: '\n' :: rest => ⟨'\n', index, line, col⟩ :: ofChars (index + 2) (line + 1) 0 rest
  | c :: rest =>
    if c == '\n' then ⟨'\n', index, line, col⟩ :: ofChars (index + 1) (line + 1) 0 rest
    else
      ⟨if c == '\r' then '\n' else c, index, line, col⟩ :: ofChars (index + 1) line (col + 1) rest

/-- The characters of a text. -/
def ofText (text : String) : List Spot :=
  ofChars 0 0 0 (text.toList.takeWhile (· != '\x00'))

/-- The blanks within a line. -/
def isBlank (spot : Spot) : Bool :=
  spot.char == ' ' || spot.char == '\t'

/-- The end of a line. -/
def isBreak (spot : Spot) : Bool :=
  spot.char == '\n'

/-- Blanks and line ends. -/
def isSpace (spot : Spot) : Bool :=
  spot.isBlank || spot.isBreak

/-- The marks that separate the entries of collections in flow style. -/
def isFlowMark (spot : Spot) : Bool :=
  spot.char ∈ [',', '[', ']', '\x7b', '\x7d']

/-- Latin letters, digits, the underscore and the dash: the characters of names. -/
def isNameChar (spot : Spot) : Bool :=
  let c := spot.char
  ('a' ≤ c && c ≤ 'z') || ('A' ≤ c && c ≤ 'Z') || c.isDigit || c == '_' || c == '-'

/-- Whether a property holds of the first character. -/
def startsWith (p : Spot → Bool) (text : List Spot) : Bool :=
  (text.head?.map p).getD false

/-- Whether there is a blank, a line end or nothing at the front. -/
def atSpace (text : List Spot) : Bool :=
  (text.head?.map isSpace).getD true

/-- Whether a line begins with a character three times, and nothing behind it. -/
def isMark (c : Char) : List Spot → Bool
  | first :: second :: third :: rest =>
    first.col == 0 && first.char == c && second.char == c && third.char == c && atSpace rest
  | _ => false

/-- Whether a document begins or ends here. -/
def isDocumentMark (text : List Spot) : Bool :=
  isMark '-' text || isMark '.' text

/-- The text from the next line end on. -/
def skipLine (text : List Spot) : List Spot :=
  text.dropWhile (!isBreak ·)

/-- The text from the next character on that is not a blank. -/
def skipBlanks (text : List Spot) : List Spot :=
  text.dropWhile isBlank

/-- The text from the end of the line on, if only blanks and a comment stand in front of it. -/
def restOfLine? (text : List Spot) : Option (List Spot) :=
  match skipBlanks text with
  | [] => some []
  | spot :: rest =>
    if spot.char == '#' then some (skipLine rest)
    else if spot.isBreak then some (spot :: rest)
    else none

end Spot

end GraphCache.Yaml
