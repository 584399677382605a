import GraphCache.Document.Token

/-!
# Bracketed tokens

A document is first read as a forest whose inner nodes are pairs of brackets, so that the grammar
can be stated by recursion on the nesting of brackets.

## Main definitions

* `TokenTree`: a token, or what stands between a pair of brackets.
* `TokenTree.ofTokens?`: the forest of a list of tokens.
-/

namespace GraphCache

/-- A pair of brackets. -/
inductive Bracket where
  | paren
  | square
  | curly
  deriving DecidableEq

/-- A token, or what stands between a pair of brackets. -/
inductive TokenTree where
  /-- A token, and whether a comma follows it. -/
  | leaf (token : Token) (beforeComma : Bool)
  | group (bracket : Bracket) (inner : List TokenTree)

namespace TokenTree

/-- The brackets that a token opens. -/
def opens? : Token → Option Bracket
  | .openParen => some .paren
  | .openBracket => some .square
  | .openBrace => some .curly
  | _ => none

/-- The brackets that a token closes. -/
def closes? : Token → Option Bracket
  | .closeParen => some .paren
  | .closeBracket => some .square
  | .closeBrace => some .curly
  | _ => none

/-- The forest read so far: the trees of the innermost open pair, the last one first, and each
enclosing pair with the trees in front of it. -/
structure Reading where
  /-- The trees of the innermost open pair of brackets, the last one first. -/
  current : List TokenTree
  /-- The open pairs from the inside out, each with the trees in front of it. -/
  enclosing : List (Bracket × List TokenTree)

/-- Selection sets, lists, objects and list types nest no deeper than this; the parentheses around
arguments are not counted. -/
def nestingLimit : Nat :=
  500

/-- Reads one token. -/
def Reading.step (reading : Reading) (placed : Token.Placed) : Option Reading :=
  match opens? placed.token, closes? placed.token with
  | some bracket, _ =>
    let enclosing := (bracket, reading.current) :: reading.enclosing
    if nestingLimit < (enclosing.filter (·.1 != .paren)).length then none
    else some ⟨[], enclosing⟩
  | none, some bracket =>
    match reading.enclosing with
    | (opened, before) :: enclosing =>
      if opened = bracket then some ⟨group bracket reading.current.reverse :: before, enclosing⟩
      else none
    | [] => none
  | none, none =>
    some { reading with current := leaf placed.token placed.beforeComma :: reading.current }

/-- The forest of a list of tokens in which all brackets match. -/
def ofTokens? (tokens : List Token.Placed) : Option (List TokenTree) := do
  let reading ← tokens.foldlM Reading.step ⟨[], []⟩
  if reading.enclosing.isEmpty then some reading.current.reverse else none

end TokenTree

end GraphCache
