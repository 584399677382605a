import GraphCache.Yaml.Token

/-!
# The grammar of YAML documents

Reads values from the front of a list of tokens. A node may be given a name, by which later nodes
refer to it; a reference stands for the node that was given the name last, which must be complete.

Where a key, a value or an item is missing, it is absent. In a sequence in flow style, a key without
a value behind it takes the place of an item, as a mapping with one entry.

## Main definitions

* `Yaml.Reader`: the tokens that are left, and the nodes with names.
* `Yaml.node?`: the node at the front.
* `Yaml.ofText?`: the value of a text that holds one document.
-/

namespace GraphCache.Yaml

/-- What is left to read, and the nodes that were given names. -/
structure Reader where
  /-- The tokens that are left. -/
  tokens : List Token
  /-- The names, the last one given first, and their nodes as far as they are complete. -/
  anchors : List (String × Option Yaml) := []

namespace Reader

/-- The reader behind the token at the front. -/
def next (reader : Reader) : Reader :=
  { reader with tokens := reader.tokens.tail }

/-- Reads as many pieces as there are. A step that returns no piece was the last one. -/
def many? {α : Type} (step : Reader → Option (Option α × Reader)) (reader : Reader) :
    Option (List α × Reader) :=
  match step reader with
  | none => none
  | some (none, after) => some ([], after)
  | some (some piece, after) =>
    if after.tokens.length < reader.tokens.length then
      (many? step after).map fun (pieces, after) => (piece :: pieces, after)
    else none
termination_by reader.tokens.length
decreasing_by assumption

/-- Gives a name to the node that is read. While it is read, the name has no complete node. -/
def named? (reader : Reader) (name : Option String)
    (read : Reader → Option (Yaml × Reader)) : Option (Yaml × Reader) :=
  match name with
  | none => read reader
  | some name => do
    let older := reader.anchors.length
    let (value, after) ← read { reader with anchors := (name, none) :: reader.anchors }
    let position := after.anchors.length - older - 1
    return (value, { after with anchors := after.anchors.set position (name, some value) })

/-- The node that has a name. -/
def lookup? (reader : Reader) (name : String) : Option Yaml :=
  (reader.anchors.find? (·.1 == name)).bind Prod.snd

end Reader

/-- Reads a node. The first argument tells whether it may be in block style, the second one whether
it may be a sequence whose dashes are not indented. -/
abbrev NodeReader := Bool → Bool → Reader → Option (Yaml × Reader)

/-! ### Block style -/

/-- Reads a node in block style, unless one of some tokens stands there. -/
def blockNode? (node? : NodeReader) (isIndentless : Bool) (isEnd : Token → Bool)
    (reader : Reader) : Option (Yaml × Reader) :=
  match reader.tokens with
  | token :: _ => if isEnd token then some (absent, reader) else node? true isIndentless reader
  | [] => none

/-- The tokens that end an entry of a mapping in block style. -/
def endsBlockPart (token : Token) : Bool :=
  token == .key || token == .colon || token == .endBlock

/-- Reads the value of an entry in block style. -/
def blockValue? (node? : NodeReader) (reader : Reader) : Option (Yaml × Reader) :=
  match reader.tokens with
  | .colon :: _ => blockNode? node? true endsBlockPart reader.next
  | _ => some (absent, reader)

/-- Reads an entry of a mapping in block style, or its end. -/
def blockPair? (node? : NodeReader) (reader : Reader) :
    Option (Option (Yaml × Yaml) × Reader) :=
  match reader.tokens with
  | .endBlock :: _ => some (none, reader.next)
  | .key :: _ => do
    let (key, reader) ← blockNode? node? true endsBlockPart reader.next
    let (value, reader) ← blockValue? node? reader
    return (some (key, value), reader)
  | .colon :: _ => do
    let (value, reader) ← blockValue? node? reader
    return (some (absent, value), reader)
  | _ => none

/-- Reads an item of a sequence in block style, or its end. -/
def blockItem? (node? : NodeReader) (reader : Reader) : Option (Option Yaml × Reader) :=
  match reader.tokens with
  | .endBlock :: _ => some (none, reader.next)
  | .dash :: _ => do
    let isEnd (token : Token) : Bool := token == .dash || token == .endBlock
    let (item, reader) ← blockNode? node? false isEnd reader.next
    return (some item, reader)
  | _ => none

/-- Reads an item of a sequence whose dashes are not indented, if there is one. -/
def indentlessItem? (node? : NodeReader) (reader : Reader) : Option (Option Yaml × Reader) :=
  match reader.tokens with
  | .dash :: _ => do
    let isEnd (token : Token) : Bool := token == .dash || endsBlockPart token
    let (item, reader) ← blockNode? node? false isEnd reader.next
    return (some item, reader)
  | _ => some (none, reader)

/-! ### Flow style -/

/-- Reads a node in flow style, unless one of some tokens stands there. -/
def flowNode? (node? : NodeReader) (isEnd : Token → Bool) (reader : Reader) :
    Option (Yaml × Reader) :=
  match reader.tokens with
  | token :: _ => if isEnd token then some (absent, reader) else node? false false reader
  | [] => none

/-- Reads the value of an entry in flow style, which some mark may end. -/
def flowValue? (node? : NodeReader) (closing : Token) (reader : Reader) : Option (Yaml × Reader) :=
  match reader.tokens with
  | .colon :: _ =>
    flowNode? node? (fun token => token == .comma || token == closing) reader.next
  | _ => some (absent, reader)

/-- Reads the key of an item with one entry. What stands in the place of a missing key is passed
over. -/
def itemKey? (node? : NodeReader) (reader : Reader) : Option (Yaml × Reader) :=
  match reader.tokens with
  | .colon :: _ | .comma :: _ | .closeBracket :: _ => some (absent, reader.next)
  | _ => node? false false reader

/-- Reads an item of a sequence in flow style, or the end of the sequence. -/
def flowItem? (node? : NodeReader) (reader : Reader) : Option (Option Yaml × Reader) :=
  match reader.tokens with
  | .closeBracket :: _ => some (none, reader.next)
  | .key :: _ => do
    let (key, reader) ← itemKey? node? reader.next
    let (value, reader) ← flowValue? node? .closeBracket reader
    return (some (.mapping [(key, value)]), reader)
  | _ => (node? false false reader).map fun (item, reader) => (some item, reader)

/-- Reads an entry of a mapping in flow style, or the end of the mapping. -/
def flowPair? (node? : NodeReader) (reader : Reader) : Option (Option (Yaml × Yaml) × Reader) :=
  match reader.tokens with
  | .closeBrace :: _ => some (none, reader.next)
  | .key :: _ => do
    let isEnd (token : Token) : Bool :=
      token == .colon || token == .comma || token == .closeBrace
    let (key, reader) ← flowNode? node? isEnd reader.next
    let (value, reader) ← flowValue? node? .closeBrace reader
    return (some (key, value), reader)
  | .colon :: _ => do
    let (value, reader) ← flowValue? node? .closeBrace reader
    return (some (absent, value), reader)
  | _ => (node? false false reader).map fun (key, reader) => (some (key, absent), reader)

/-- Reads what stands between brackets. A comma separates the pieces, and may follow the last
one. -/
def flowCollection? {α : Type} (closing : Token)
    (piece? : Reader → Option (Option α × Reader)) (reader : Reader) :
    Option (List α × Reader) := do
  let further? (reader : Reader) : Option (Option α × Reader) :=
    match reader.tokens with
    | .comma :: _ => piece? reader.next
    | token :: _ => if token = closing then some (none, reader.next) else none
    | [] => none
  match ← piece? reader with
  | (none, reader) => return ([], reader)
  | (some piece, reader) =>
    let (pieces, reader) ← reader.many? further?
    return (piece :: pieces, reader)

/-! ### Nodes and documents -/

/-- Reads what follows the name and the tag of a node. With one of them, there may be nothing. -/
def content? (node? : NodeReader) (inBlock isIndentless : Bool) (tag : Option Tag)
    (mayBeEmpty : Bool) (reader : Reader) : Option (Yaml × Reader) := do
  match reader.tokens with
  | .scalar text isPlain :: _ => return (.scalar text isPlain tag, reader.next)
  | .openBracket :: _ =>
    let (items, reader) ← flowCollection? .closeBracket (flowItem? node?) reader.next
    return (.sequence items, reader)
  | .openBrace :: _ =>
    let (entries, reader) ← flowCollection? .closeBrace (flowPair? node?) reader.next
    return (.mapping entries, reader)
  | token :: _ =>
    if token = .dash ∧ isIndentless then
      let (items, reader) ← reader.many? (indentlessItem? node?)
      return (.sequence items, reader)
    else if token = .beginSequence ∧ inBlock then
      let (items, reader) ← reader.next.many? (blockItem? node?)
      return (.sequence items, reader)
    else if token = .beginMapping ∧ inBlock then
      let (entries, reader) ← reader.next.many? (blockPair? node?)
      return (.mapping entries, reader)
    else if mayBeEmpty then return (.scalar "" true tag, reader)
    else none
  | [] => if mayBeEmpty then return (.scalar "" true tag, reader) else none

/-- The name and the tag in front of a node, in either order, and what follows them. -/
def properties : List Token → Option String × Option Tag × List Token
  | .anchor name :: .tag tag :: rest => (some name, some tag, rest)
  | .tag tag :: .anchor name :: rest => (some name, some tag, rest)
  | .anchor name :: rest => (some name, none, rest)
  | .tag tag :: rest => (none, some tag, rest)
  | rest => (none, none, rest)

/-- Reads the node at the front, nested no deeper than some number of levels. -/
def node? : Nat → NodeReader
  | 0, _, _, _ => none
  | levels + 1, inBlock, isIndentless, reader =>
    match reader.tokens with
    | .reference name :: _ => (reader.lookup? name).map (·, reader.next)
    | tokens =>
      let (name, tag, rest) := properties tokens
      Reader.named? { reader with tokens := rest } name
        (content? (node? levels) inBlock isIndentless tag (name.isSome || tag.isSome))

/-- The value of the document at the front, and the tokens behind it. Three dashes stand in front of
it, unless there are no directives. -/
def document? (tokens : List Token) : Option (Yaml × List Token) :=
  let root? (tokens : List Token) : Option (Yaml × List Token) :=
    (node? tokens.length true false { tokens }).map fun (value, reader) => (value, reader.tokens)
  match tokens with
  | [] => none
  | .directive :: _ | .documentStart :: _ =>
    match tokens.dropWhile (· == .directive) with
    | .documentStart :: rest =>
      match rest with
      | [] | .directive :: _ | .documentStart :: _ | .documentEnd :: _ => some (absent, rest)
      | _ => root? rest
    | _ => none
  | _ => root? tokens

/-- The value of a list of tokens, which must hold one document. -/
def ofTokens? (tokens : List Token) : Option Yaml := do
  let (value, rest) ← document? tokens
  if rest.all (· == .documentEnd) then some value else none

/-- The value of a text, which must hold one document. -/
def ofText? (text : String) : Option Yaml :=
  (Token.readAll? text).bind ofTokens?

end GraphCache.Yaml
