import GraphCache.Json.Lexeme

/-!
# The tokens of GraphQL documents

Blanks, line ends, commas, byte order marks and comments separate tokens. Only commas leave a trace:
a token knows whether one follows it, because a few pairs of tokens must not be separated by a
comma. A number must not run into a name, a digit or a point.

## Main definitions

* `Token`: punctuators, names, variables, numbers and strings.
* `Token.Placed`: a token, and whether a comma follows it.
* `Token.blockStringValue`: the text that a block string denotes.
* `Token.readAll?`: the tokens of a document.
-/

namespace GraphCache

/-- A token of a GraphQL document. -/
inductive Token where
  | bang
  | ampersand
  | openParen
  | closeParen
  | spread
  | colon
  | equals
  | atSign
  | openBracket
  | closeBracket
  | openBrace
  | pipe
  | closeBrace
  | dollar
  | name (text : String)
  /-- A dollar sign and the name behind it. -/
  | var (name : String)
  | int (value : Int)
  | float (literal : NumberLiteral)
  | string (text : String)
  deriving DecidableEq

namespace Token

/-- Letters of the Latin alphabet and the underscore. -/
def isNameStart (c : Char) : Bool :=
  ('a' ≤ c && c ≤ 'z') || ('A' ≤ c && c ≤ 'Z') || c == '_'

/-- The characters of names: name starts and digits. -/
def isNameChar (c : Char) : Bool :=
  isNameStart c || c.isDigit

/-! ### Strings -/

/-- The code point of a braced escape: hexadecimal digits that denote a character. -/
def bracedEscape? (digits : List Char) : Option Nat :=
  if digits.isEmpty then none
  else
    match Scan.hexValues? digits with
    | some code => if code < 0xD800 ∨ 0xDFFF < code ∧ code ≤ 0x10FFFF then some code else none
    | none => none

/-- What follows the first character that ends a run is shorter than the whole. -/
theorem length_lt_of_dropWhile_eq {p : Char → Bool} {text rest : List Char} {c : Char}
    (h : text.dropWhile p = c :: rest) : rest.length < text.length := by
  have := (List.dropWhile_sublist (l := text) p).length_le
  rw [h, List.length_cons] at this
  omega

/-- The rest of a string up to its closing quotation mark, as code points and surrogates. Only line
ends cannot stand for themselves. -/
def stringTail? (text : List Char) : Option (List Nat × List Char) :=
  match text with
  | [] => none
  | '"' :: rest => some ([], rest)
  | '\\' :: 'u' :: '\x7b' :: rest =>
    match bracedEscape? (rest.takeWhile (· != '\x7d')), h : rest.dropWhile (· != '\x7d') with
    | some code, _ :: rest' =>
      have := length_lt_of_dropWhile_eq h
      (stringTail? rest').map fun (units, rest) => (code :: units, rest)
    | _, _ => none
  | '\\' :: 'u' :: a :: b :: c :: d :: rest => do
    let unit ← Scan.hexValues? [a, b, c, d]
    let (units, rest) ← stringTail? rest
    return (unit :: units, rest)
  | '\\' :: c :: rest => do
    let unit ← Json.Lexeme.escape? c
    let (units, rest) ← stringTail? rest
    return (unit :: units, rest)
  | c :: rest =>
    if c == '\n' || c == '\r' || c == '\\' then none
    else do
      let (units, rest) ← stringTail? rest
      return (c.toNat :: units, rest)
termination_by text.length
decreasing_by all_goals simp only [List.length_cons]; omega

/-- The string behind its opening quotation mark. A line end can stand for itself in front of
everything else. -/
def stringBody? : List Char → Option (List Nat × List Char)
  | [] => none
  | c :: rest =>
    if c == '\n' || c == '\r' then
      (stringTail? rest).map fun (units, rest) => (c.toNat :: units, rest)
    else stringTail? (c :: rest)

/-- The rest of a block string up to its closing quotation marks; three quotation marks behind a
backslash stand for themselves. -/
def blockTail? : List Char → Option (List Char × List Char)
  | '"' :: '"' :: '"' :: rest => some ([], rest)
  | '\\' :: '"' :: '"' :: '"' :: rest =>
    (blockTail? rest).map fun (body, rest) => ('"' :: '"' :: '"' :: body, rest)
  | c :: rest => (blockTail? rest).map fun (body, rest) => (c :: body, rest)
  | [] => none

/-- The lines of a text; a line ends with a line feed, a carriage return or both. -/
def lines : List Char → List (List Char)
  | [] => [[]]
  | '\r' :: '\n' :: rest => [] :: lines rest
  | c :: rest =>
    if c == '\n' || c == '\r' then [] :: lines rest
    else
      match lines rest with
      | [] => [[c]]
      | line :: more => (c :: line) :: more

/-- The blanks that indent a line. -/
def isIndent (c : Char) : Bool :=
  c == ' ' || c == '\t'

/-- The number of blanks in front of a line. -/
def indentation (line : List Char) : Nat :=
  (line.takeWhile isIndent).length

/-- The text of a block string: the common indentation of all lines but the first is removed, and
so are blank lines at both ends. -/
def blockStringValue (body : List Char) : List Char :=
  let isBlank (line : List Char) : Bool := line.all isIndent
  match lines body with
  | [] => []
  | first :: others =>
    let common := (((others.filter (!isBlank ·)).map indentation).min?).getD 0
    let kept := (first :: others.map (·.drop common)).dropWhile isBlank
    let kept := (kept.reverse.dropWhile isBlank).reverse
    (kept.intersperse ['\n']).flatten

/-! ### Numbers -/

/-- A number token; what follows must not continue it. -/
def number? (text : List Char) : Option (Token × List Char) := do
  let (literal, rest) ← Json.Lexeme.number? text
  if (rest.head?.map fun c => isNameChar c || c == '.').getD false then none
  else
    match literal.scale with
    | none =>
      let value : Int := literal.digits
      return (int (if literal.negative then -value else value), rest)
    | some _ => return (float literal, rest)

/-! ### Tokens -/

/-- What stands at one place of a text. -/
inductive Piece where
  | token (token : Token)
  | comma
  /-- A blank, a line end, a byte order mark or a comment. -/
  | blank

/-- The piece at the front of a text. -/
def nextPiece? : List Char → Option (Piece × List Char)
  | [] => none
  | '.' :: '.' :: '.' :: rest => some (.token spread, rest)
  | '"' :: '"' :: '"' :: rest =>
    (blockTail? rest).map fun (body, rest) =>
      (.token (string (String.ofList (blockStringValue body))), rest)
  | '"' :: rest => do
    let (units, rest) ← stringBody? rest
    let body ← Scan.joinSurrogates? units
    return (.token (string (String.ofList body)), rest)
  | c :: rest =>
    match c with
    | ' ' | '\t' | '\n' | '\r' | '\uFEFF' => some (.blank, rest)
    | '#' => some (.blank, rest.dropWhile fun c => c != '\n' && c != '\r')
    | ',' => some (.comma, rest)
    | '!' => some (.token bang, rest)
    | '$' => some (.token dollar, rest)
    | '&' => some (.token ampersand, rest)
    | '(' => some (.token openParen, rest)
    | ')' => some (.token closeParen, rest)
    | ':' => some (.token colon, rest)
    | '=' => some (.token equals, rest)
    | '@' => some (.token atSign, rest)
    | '[' => some (.token openBracket, rest)
    | ']' => some (.token closeBracket, rest)
    | '\x7b' => some (.token openBrace, rest)
    | '|' => some (.token pipe, rest)
    | '\x7d' => some (.token closeBrace, rest)
    | c =>
      if isNameStart c then
        some (.token (name (String.ofList (c :: rest.takeWhile isNameChar))),
          rest.dropWhile isNameChar)
      else number? (c :: rest) |>.map fun (token, rest) => (.token token, rest)

/-- A token at its place. -/
structure Placed where
  /-- The token. -/
  token : Token
  /-- Whether a comma stands between this token and the next one. -/
  beforeComma : Bool
  deriving DecidableEq

/-- The tokens among the pieces of a text, and whether a comma stands in front of the first one. -/
def placeAll : List Piece → List Placed × Bool
  | [] => ([], false)
  | .token token :: pieces =>
    let (placed, beforeComma) := placeAll pieces
    (⟨token, beforeComma⟩ :: placed, false)
  | .comma :: pieces => ((placeAll pieces).1, true)
  | .blank :: pieces => placeAll pieces

/-- Joins every dollar sign with the name behind it. -/
def joinVariables? : List Placed → Option (List Placed)
  | [] => some []
  | ⟨dollar, _⟩ :: ⟨name text, beforeComma⟩ :: rest =>
    (joinVariables? rest).map (⟨var text, beforeComma⟩ :: ·)
  | ⟨dollar, _⟩ :: _ => none
  | placed :: rest => (joinVariables? rest).map (placed :: ·)

/-- The tokens of a document. -/
def readAll? (text : String) : Option (List Placed) := do
  let pieces ← Scan.all? nextPiece? text.toList
  joinVariables? (placeAll pieces).1

/-- A comma in a comment is none. -/
example : readAll? "a, b #,\nc" =
    some [⟨name "a", true⟩, ⟨name "b", false⟩, ⟨name "c", false⟩] := by
  decide +kernel

/-- The first line keeps its indentation and blank lines at the end are dropped. -/
example : blockStringValue " a\r\n  b\r\n    c\n  ".toList = " a\nb\n  c".toList := by
  decide +kernel

end Token

end GraphCache
