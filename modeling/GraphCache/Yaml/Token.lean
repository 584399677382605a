import GraphCache.Yaml.BlockScalar
import GraphCache.Yaml.Scalar
import GraphCache.Yaml.Tag

/-!
# The tokens of YAML texts

Collections in block style have no brackets: they are opened where an entry is indented deeper than
the surrounding collection, and closed where the indentation goes back. A key without a question
mark is recognised by the colon behind it, on the same line and not too far away, and marked
afterwards.

## Main definitions

* `Yaml.Token`: marks, names, tags and scalars.
* `Yaml.Scanner`: the tokens so far, the open collections and the places where keys may have begun.
* `Yaml.Token.readAll?`: the tokens of a text.
-/

namespace GraphCache.Yaml

/-- A token of a YAML text. -/
inductive Token where
  | directive
  | documentStart
  | documentEnd
  /-- The beginning of a sequence in block style. -/
  | beginSequence
  /-- The beginning of a mapping in block style. -/
  | beginMapping
  /-- The end of a sequence or mapping in block style. -/
  | endBlock
  /-- The dash of a sequence item. -/
  | dash
  | openBracket
  | closeBracket
  | openBrace
  | closeBrace
  /-- The comma between entries in flow style. -/
  | comma
  /-- What stands in front of a key. -/
  | key
  /-- The colon in front of a value. -/
  | colon
  /-- A reference to the node with a name. -/
  | reference (name : String)
  /-- The name of the node that follows. -/
  | anchor (name : String)
  | tag (tag : Tag)
  | scalar (text : String) (isPlain : Bool)
  deriving DecidableEq

/-- A place where a key may have begun. -/
structure PossibleKey where
  /-- The first character. -/
  spot : Spot
  /-- The number of tokens in front of it. -/
  position : Nat
  /-- Whether nothing but a key can stand there. -/
  isRequired : Bool

/-- Whether a place is too far away for the colon behind a key: a key lies on one line and is no
longer than 1024 characters. -/
def PossibleKey.isStale (key : PossibleKey) (spot : Spot) : Bool :=
  key.spot.line < spot.line || key.spot.index + 1024 < spot.index

/-- The tokens so far, and what is needed to go on. -/
structure Scanner where
  /-- What has not been read. -/
  rest : List Spot
  /-- The tokens, the last one first. -/
  tokens : List Token := []
  /-- The columns in which the open collections in block style begin, the innermost first. -/
  blocks : List Nat := []
  /-- Where a key may have begun in the innermost collection in flow style, or outside of all. -/
  key : Option PossibleKey := none
  /-- The same for what surrounds each open collection in flow style, the innermost first. -/
  outerKeys : List (Option PossibleKey) := []
  /-- Whether a key may begin here. -/
  keyAllowed : Bool := true
  /-- The index behind the last quoted scalar, where a colon needs no blank. -/
  valueIndex : Option Nat := none

namespace Scanner

/-- Whether a collection in flow style is open. -/
def inFlow (scanner : Scanner) : Bool :=
  !scanner.outerKeys.isEmpty

/-- The column right of the beginning of the innermost collection in block style. -/
def margin (scanner : Scanner) : Nat :=
  match scanner.blocks with
  | [] => 0
  | col :: _ => col + 1

/-- Adds a token. -/
def emit (scanner : Scanner) (token : Token) : Scanner :=
  { scanner with tokens := token :: scanner.tokens }

/-! ### Blanks and indentation -/

/-- Passes over blanks, line ends and comments. In block style a key may begin behind a line end,
and a tab where a key may begin is no blank. -/
def skipSpace (inFlow : Bool) (inComment keyAllowed : Bool) : List Spot → Bool × List Spot
  | [] => (keyAllowed, [])
  | spot :: rest =>
    if spot.isBreak then skipSpace inFlow false (keyAllowed || !inFlow) rest
    else if inComment then skipSpace inFlow true keyAllowed rest
    else if spot.char == ' ' || spot.char == '\t' && (inFlow || !keyAllowed) then
      skipSpace inFlow false keyAllowed rest
    else if spot.char == '#' then skipSpace inFlow true keyAllowed rest
    else (keyAllowed, spot :: rest)

/-- Opens a collection in block style at a column, if it is indented. -/
def openBlock (scanner : Scanner) (col : Nat) (token : Token) : Scanner :=
  if scanner.inFlow || col < scanner.margin then scanner
  else { scanner with blocks := col :: scanner.blocks, tokens := token :: scanner.tokens }

/-- Closes the innermost collections in block style whose columns have some property. -/
def closeBlocks (scanner : Scanner) (isClosed : Nat → Bool) : Scanner :=
  if scanner.inFlow then scanner
  else
    let closed := (scanner.blocks.takeWhile isClosed).length
    { scanner with
      blocks := scanner.blocks.drop closed
      tokens := List.replicate closed .endBlock ++ scanner.tokens }

/-! ### Possible keys -/

/-- Gives up the possible key; it must not be required. -/
def dropKey? (scanner : Scanner) : Option Scanner :=
  if scanner.key.any (·.isRequired) then none else some { scanner with key := none }

/-- Notes that a key may begin here. -/
def saveKey? (scanner : Scanner) (spot : Spot) : Option Scanner :=
  if scanner.keyAllowed then do
    let scanner ← scanner.dropKey?
    let isRequired := scanner.inFlow && scanner.margin == spot.col + 1
    return { scanner with key := some ⟨spot, scanner.tokens.length, isRequired⟩ }
  else some scanner

/-- Gives up the possible keys that are too far away; they must not be required. -/
def dropStaleKeys? (scanner : Scanner) (spot : Spot) : Option Scanner :=
  let isStale (key : PossibleKey) : Bool := key.isStale spot
  let keys := scanner.key :: scanner.outerKeys
  if keys.any fun key => key.any fun key => isStale key && key.isRequired then none
  else
    some { scanner with
      key := scanner.key.filter (!isStale ·)
      outerKeys := scanner.outerKeys.map fun key => key.filter (!isStale ·) }

/-! ### Marks -/

/-- Begins or ends a document. -/
def documentMark? (scanner : Scanner) (token : Token) (rest : List Spot) : Option Scanner := do
  let scanner ← (scanner.closeBlocks fun _ => true).dropKey?
  return { scanner.emit token with rest, keyAllowed := false }

/-- The number of collections in flow style that may be open. -/
def flowLimit : Nat :=
  255

/-- Opens a collection in flow style. -/
def openFlow? (scanner : Scanner) (token : Token) (spot : Spot) (rest : List Spot) :
    Option Scanner := do
  let scanner ← scanner.saveKey? spot
  if flowLimit ≤ scanner.outerKeys.length then none
  else
    some { scanner.emit token with
      rest
      key := none
      outerKeys := scanner.key :: scanner.outerKeys
      keyAllowed := true }

/-- Closes a collection in flow style. -/
def closeFlow? (scanner : Scanner) (token : Token) (rest : List Spot) : Option Scanner := do
  let scanner ← scanner.dropKey?
  let (key, outerKeys) := match scanner.outerKeys with
    | key :: outerKeys => (key, outerKeys)
    | [] => (scanner.key, [])
  return { scanner.emit token with rest, key, outerKeys, keyAllowed := false }

/-- Reads the comma between entries. -/
def comma? (scanner : Scanner) (rest : List Spot) : Option Scanner := do
  let scanner ← scanner.dropKey?
  return { scanner.emit .comma with rest, keyAllowed := true }

/-- Reads the dash of a sequence item, which stands where a key may begin. -/
def dash? (scanner : Scanner) (spot : Spot) (rest : List Spot) : Option Scanner :=
  if scanner.inFlow || !scanner.keyAllowed then none
  else do
    let scanner ← (scanner.openBlock spot.col .beginSequence).dropKey?
    return { scanner.emit .dash with rest, keyAllowed := true }

/-- Reads the question mark in front of a key. -/
def questionMark? (scanner : Scanner) (spot : Spot) (rest : List Spot) : Option Scanner :=
  if !scanner.inFlow && !scanner.keyAllowed then none
  else do
    let scanner ← (scanner.openBlock spot.col .beginMapping).dropKey?
    return { scanner.emit .key with rest, keyAllowed := !scanner.inFlow }

/-- Adds tokens in front of those that were read since there were so many. -/
def insertTokens (position : Nat) (inserted tokens : List Token) : List Token :=
  let later := tokens.length - position
  tokens.take later ++ inserted ++ tokens.drop later

/-- Marks what began at a place as a key, which may open a mapping. -/
def markKey (scanner : Scanner) (key : PossibleKey) : Scanner :=
  let col := key.spot.col
  if scanner.inFlow || col < scanner.margin then
    { scanner with tokens := insertTokens key.position [.key] scanner.tokens }
  else
    { scanner with
      blocks := col :: scanner.blocks
      tokens := insertTokens key.position [.key, .beginMapping] scanner.tokens }

/-- Reads the colon in front of a value. -/
def colon? (scanner : Scanner) (spot : Spot) (rest : List Spot) : Option Scanner :=
  match scanner.key with
  | some key =>
    some { (scanner.markKey key).emit .colon with rest, key := none, keyAllowed := false }
  | none =>
    if !scanner.inFlow && !scanner.keyAllowed then none
    else
      let scanner := scanner.openBlock spot.col .beginMapping
      some { scanner.emit .colon with rest, keyAllowed := !scanner.inFlow }

/-! ### Nodes -/

/-- Reads a token with which a node may begin. -/
def nodeToken? (scanner : Scanner) (spot : Spot) (token : Token) (rest : List Spot) :
    Option Scanner := do
  let scanner ← scanner.saveKey? spot
  return { scanner.emit token with rest, keyAllowed := false }

/-- The name behind an ampersand or an asterisk, and what follows it. -/
def name? (text : List Spot) : Option (String × List Spot) :=
  let name := text.takeWhile Spot.isNameChar
  let rest := text.dropWhile Spot.isNameChar
  let isEnd (spot : Spot) : Bool :=
    spot.isSpace || spot.char ∈ ['?', ':', ',', ']', '\x7d', '%', '@', '\x60']
  if name.isEmpty || Spot.startsWith (!isEnd ·) rest then none
  else some (Spot.toString name, rest)

/-- Reads a tag, which nothing may follow directly. -/
def tag? (scanner : Scanner) (spot : Spot) (text : List Spot) : Option Scanner := do
  let (tag, rest) ← Tag.read? text
  if Spot.atSpace rest then scanner.nodeToken? spot (.tag tag) rest else none

/-- Reads a quoted scalar. -/
def quoted? (scanner : Scanner) (spot : Spot) (result : Option (List Char × List Spot)) :
    Option Scanner := do
  let (body, rest) ← result
  let scanner ← scanner.nodeToken? spot (.scalar (String.ofList body) false) rest
  return { scanner with valueIndex := rest.head?.map Spot.index }

/-- Reads a block scalar; a key may begin behind it. -/
def block? (scanner : Scanner) (isLiteral : Bool) (spot : Spot) (text : List Spot) :
    Option Scanner := do
  let (body, rest) ← blockScalar? isLiteral scanner.margin text
  let scanner ← scanner.nodeToken? spot (.scalar (String.ofList body) false) rest
  return { scanner with keyAllowed := true }

/-- Reads a plain scalar; a key may begin behind it if a line ended in between. -/
def plainScalar? (scanner : Scanner) (spot : Spot) (rest : List Spot) : Option Scanner := do
  let (body, ended, rest) ← plain? scanner.inFlow scanner.margin {} (spot :: rest)
  let scanner ← scanner.nodeToken? spot (.scalar (String.ofList body) true) rest
  return { scanner with keyAllowed := ended }

/-! ### Texts -/

/-- Reads the token that begins with a character. -/
def token? (scanner : Scanner) (spot : Spot) (rest : List Spot) : Option Scanner :=
  let standsAlone := Spot.atSpace rest
  match spot.char with
  | '[' => scanner.openFlow? .openBracket spot rest
  | ']' => scanner.closeFlow? .closeBracket rest
  | '\x7b' => scanner.openFlow? .openBrace spot rest
  | '\x7d' => scanner.closeFlow? .closeBrace rest
  | ',' => scanner.comma? rest
  | '-' => if standsAlone then scanner.dash? spot rest else scanner.plainScalar? spot rest
  | '?' => if standsAlone then scanner.questionMark? spot rest else scanner.plainScalar? spot rest
  | ':' =>
    let isAdjacent := Spot.startsWith Spot.isFlowMark rest || scanner.valueIndex == some spot.index
    if standsAlone || scanner.inFlow && isAdjacent then scanner.colon? spot rest
    else scanner.plainScalar? spot rest
  | '*' => (name? rest).bind fun (name, rest) => scanner.nodeToken? spot (.reference name) rest
  | '&' => (name? rest).bind fun (name, rest) => scanner.nodeToken? spot (.anchor name) rest
  | '!' => scanner.tag? spot rest
  | '|' => if scanner.inFlow then scanner.plainScalar? spot rest else scanner.block? true spot rest
  | '>' => if scanner.inFlow then scanner.plainScalar? spot rest else scanner.block? false spot rest
  | '\'' => scanner.quoted? spot (singleQuoted? {} rest)
  | '"' => scanner.quoted? spot (doubleQuoted? {} rest)
  | '%' | '@' | '\x60' => none
  | _ => scanner.plainScalar? spot rest

/-- Reads what stands at the front: the mark of a document, a directive or a token. -/
def next? (scanner : Scanner) (spot : Spot) (rest : List Spot) : Option Scanner := do
  let scanner ← scanner.dropStaleKeys? spot
  let scanner := scanner.closeBlocks (spot.col < ·)
  if spot.col == 0 && spot.char == '%' then
    scanner.documentMark? .directive (← directive? rest)
  else if Spot.isMark '-' (spot :: rest) then scanner.documentMark? .documentStart (rest.drop 2)
  else if Spot.isMark '.' (spot :: rest) then scanner.documentMark? .documentEnd (rest.drop 2)
  else scanner.token? spot rest

/-- The tokens of the whole text, the first one first. -/
def tokens? (scanner : Scanner) : Option (List Token) :=
  match skipSpace scanner.inFlow false scanner.keyAllowed scanner.rest with
  | (_, []) =>
    if scanner.key.any (·.isRequired) then none
    else some (scanner.closeBlocks fun _ => true).tokens.reverse
  | (keyAllowed, spot :: rest) =>
    match { scanner with keyAllowed }.next? spot rest with
    | none => none
    | some after =>
      if after.rest.length < scanner.rest.length then after.tokens? else none
termination_by scanner.rest.length
decreasing_by assumption

end Scanner

/-- The tokens of a text. -/
def Token.readAll? (text : String) : Option (List Token) :=
  { rest := Spot.ofText text : Scanner }.tokens?

/-- A key opens a mapping once its colon is read. -/
example : Token.readAll? "a: [b]" =
    some [.beginMapping, .key, .scalar "a" true, .colon, .openBracket, .scalar "b" true,
      .closeBracket, .endBlock] := by
  decide +kernel

end GraphCache.Yaml
