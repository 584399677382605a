import GraphCache.Document.Basic
import GraphCache.Document.Bracket

/-!
# The grammar of GraphQL documents

Each recogniser takes a forest of tokens and returns what it has read from the front together with
the rest. Values and types recur on the nesting of brackets; a selection set is given the number of
levels that may still be opened below it.

An argument or object field that is only a name, without a colon, is passed over when another name
or the end follows.

## Main definitions

* `Document.valueOf?`, `Document.entriesOf?`: values, and lists of arguments or object fields.
* `Document.selectionSet?`: the selections between a pair of braces.
* `Document.ofText?`: the document that a text denotes.
-/

namespace GraphCache.Document

open TokenTree (leaf group)

/-! ### Values and directives -/

/-- The value of a name: a keyword, or the name of an enumeration value. -/
def nameValue : String → Value
  | "true" => .boolean true
  | "false" => .boolean false
  | "null" => .null
  | name => .enum name

mutual

/-- The value that one tree denotes. -/
def valueOf? : TokenTree → Option Value
  | .leaf (.var name) _ => some (.var name)
  | .leaf (.int value) _ => some (.int value)
  | .leaf (.float literal) _ => some (.float literal)
  | .leaf (.string text) _ => some (.string text)
  | .leaf (.name text) _ => some (nameValue text)
  | .leaf _ _ => none
  | .group .square inner => (valuesOf? inner).map .list
  | .group .curly inner => (entriesOf? inner).map .object
  | .group .paren _ => none

/-- The values that the listed trees denote. -/
def valuesOf? : List TokenTree → Option (List Value)
  | [] => some []
  | tree :: rest => do
    let value ← valueOf? tree
    let values ← valuesOf? rest
    return value :: values

/-- The named values between a pair of brackets. -/
def entriesOf? : List TokenTree → Option (List (String × Value))
  | [] => some []
  | .leaf (.name name) _ :: .leaf .colon _ :: tree :: rest => do
    let value ← valueOf? tree
    let entries ← entriesOf? rest
    return (name, value) :: entries
  | [.leaf (.name _) _] => some []
  | .leaf (.name _) _ :: .leaf (.name next) beforeComma :: rest =>
    entriesOf? (.leaf (.name next) beforeComma :: rest)
  | _ => none

end

/-- The arguments at the front, if there are any: at least one token between parentheses. -/
def arguments? : List TokenTree → Option (List (String × Value) × List TokenTree)
  | .group .paren [] :: _ => none
  | .group .paren inner :: rest => (entriesOf? inner).map (·, rest)
  | rest => some ([], rest)

/-- The directives at the front. -/
def directives? : List TokenTree → Option (List Directive × List TokenTree)
  | .leaf .atSign _ :: .leaf (.name _) _ :: .group .paren [] :: _ => none
  | .leaf .atSign _ :: .leaf (.name name) _ :: .group .paren inner :: rest => do
    let arguments ← entriesOf? inner
    let (directives, rest) ← directives? rest
    return (⟨name, arguments⟩ :: directives, rest)
  | .leaf .atSign _ :: .leaf (.name name) _ :: rest => do
    let (directives, rest) ← directives? rest
    return (⟨name, []⟩ :: directives, rest)
  | .leaf .atSign _ :: _ => none
  | rest => some ([], rest)

/-- The directives at the front, whose arguments must not refer to variables. -/
def constantDirectives? (trees : List TokenTree) : Option (List Directive × List TokenTree) := do
  let (directives, rest) ← directives? trees
  if directives.any fun directive => anyFieldVariable directive.arguments then none
  else some (directives, rest)

/-- The value behind an equals sign at the front, which must not refer to variables. -/
def default? : List TokenTree → Option (Option Value × List TokenTree)
  | .leaf .equals _ :: tree :: rest => do
    let value ← valueOf? tree
    if value.hasVariable then none else some (some value, rest)
  | .leaf .equals _ :: [] => none
  | rest => some (none, rest)

/-! ### Types and variables -/

mutual

/-- Whether a tree is a type without the exclamation mark. -/
def isTypeBody : TokenTree → Bool
  | .leaf (.name _) _ => true
  | .group .square inner => isType inner
  | _ => false

/-- Whether a forest is one type. -/
def isType : List TokenTree → Bool
  | [body] => isTypeBody body
  | [body, .leaf .bang _] => isTypeBody body
  | _ => false

end

/-- Passes over the type at the front. -/
def skipType? : List TokenTree → Option (List TokenTree)
  | body :: .leaf .bang _ :: rest => if isTypeBody body then some rest else none
  | body :: rest => if isTypeBody body then some rest else none
  | [] => none

/-- The variable definition at the front. -/
def variableDefinition? : List TokenTree → Option (VariableDefinition × List TokenTree)
  | .leaf (.var name) _ :: .leaf .colon _ :: rest => do
    let rest ← skipType? rest
    let (value, rest) ← default? rest
    let (_, rest) ← constantDirectives? rest
    return (⟨name, value⟩, rest)
  | _ => none

/-- The variable definitions at the front, if there are any: at least one between parentheses. -/
def variableDefinitions? :
    List TokenTree → Option (List VariableDefinition × List TokenTree)
  | .group .paren [] :: _ => none
  | .group .paren inner :: rest => (Scan.all? variableDefinition? inner).map (·, rest)
  | rest => some ([], rest)

/-! ### Selections -/

/-- The field at the front; `nested?` reads the selections inside a pair of braces. -/
def field? (nested? : List TokenTree → Option (List Selection)) (name : String)
    (aliasName : Option String) (trees : List TokenTree) : Option (Selection × List TokenTree) := do
  let (arguments, rest) ← arguments? trees
  let (directives, rest) ← directives? rest
  match rest with
  | .group .curly inner :: rest =>
    let selections ← nested? inner
    return (.field name aliasName arguments directives selections, rest)
  | rest => return (.field name aliasName arguments directives [], rest)

/-- The inline fragment whose directives are at the front. -/
def inlineFragment? (nested? : List TokenTree → Option (List Selection))
    (typeCondition : Option String) (trees : List TokenTree) :
    Option (Selection × List TokenTree) := do
  let (directives, rest) ← directives? trees
  match rest with
  | .group .curly inner :: rest =>
    let selections ← nested? inner
    return (.inlineFragment typeCondition directives selections, rest)
  | _ => none

/-- The selection at the front. No comma stands between an alias and its colon, nor behind a
spread. -/
def selection? (nested? : List TokenTree → Option (List Selection)) :
    List TokenTree → Option (Selection × List TokenTree)
  | .leaf (.name aliasName) false :: .leaf .colon _ :: .leaf (.name name) _ :: rest =>
    field? nested? name (some aliasName) rest
  | .leaf (.name name) _ :: rest => field? nested? name none rest
  | .leaf .spread false :: .leaf (.name "on") _ :: .leaf (.name typeCondition) _ :: rest =>
    inlineFragment? nested? (some typeCondition) rest
  | .leaf .spread false :: .leaf (.name "on") _ :: _ => none
  | .leaf .spread false :: .leaf (.name name) _ :: rest =>
    (directives? rest).map fun (directives, rest) => (.fragmentSpread name directives, rest)
  | .leaf .spread false :: rest => inlineFragment? nested? none rest
  | _ => none

/-- The selections between a pair of braces, of which there is at least one. -/
def selectionSet? : Nat → List TokenTree → Option (List Selection)
  | 0, _ => none
  | levels + 1, trees =>
    if trees.isEmpty then none else Scan.all? (selection? (selectionSet? levels)) trees

/-! ### Type-system definitions -/

/-- Passes over a description at the front. -/
def skipDescription : List TokenTree → List TokenTree
  | .leaf (.string _) _ :: rest => rest
  | rest => rest

/-- Passes over names at the front that are separated by a punctuator, which may also come first. -/
def skipNames? (separator : Token) (isAllowed : String → Bool) (trees : List TokenTree) :
    Option (List TokenTree) :=
  let rec more : List TokenTree → Option (List TokenTree)
    | .leaf token beforeComma :: .leaf (.name name) beforeComma' :: rest =>
      if token = separator then if isAllowed name then more rest else none
      else some (.leaf token beforeComma :: .leaf (.name name) beforeComma' :: rest)
    | rest => some rest
  match trees with
  | .leaf (.name name) beforeComma :: rest =>
    more (.leaf separator false :: .leaf (.name name) beforeComma :: rest)
  | .leaf token beforeComma :: rest =>
    if token = separator then more (.leaf token beforeComma :: rest) else none
  | _ => none

/-- Passes over the input value definition at the front. -/
def skipInputValue? (trees : List TokenTree) : Option (Unit × List TokenTree) :=
  match skipDescription trees with
  | .leaf (.name _) _ :: .leaf .colon _ :: rest => do
    let rest ← skipType? rest
    let (_, rest) ← default? rest
    let (_, rest) ← constantDirectives? rest
    return ((), rest)
  | _ => none

/-- Passes over the argument definitions at the front, if there are any. -/
def skipArgumentDefinitions? : List TokenTree → Option (List TokenTree)
  | .group .paren [] :: _ => none
  | .group .paren inner :: rest => (Scan.all? skipInputValue? inner).map fun _ => rest
  | rest => some rest

/-- Passes over the field definition at the front. -/
def skipFieldDefinition? (trees : List TokenTree) : Option (Unit × List TokenTree) :=
  match skipDescription trees with
  | .leaf (.name _) _ :: rest => do
    match ← skipArgumentDefinitions? rest with
    | .leaf .colon _ :: rest =>
      let rest ← skipType? rest
      let (_, rest) ← constantDirectives? rest
      return ((), rest)
    | _ => none
  | _ => none

/-- Passes over the enumeration value at the front. -/
def skipEnumValue? (trees : List TokenTree) : Option (Unit × List TokenTree) :=
  match skipDescription trees with
  | .leaf (.name name) _ :: rest =>
    match nameValue name with
    | .enum _ => (constantDirectives? rest).map fun (_, rest) => ((), rest)
    | _ => none
  | _ => none

/-- The kind of operation that a keyword starts. -/
def operationKind? : String → Option OperationKind
  | "query" => some .query
  | "mutation" => some .mutation
  | "subscription" => some .subscription
  | _ => none

/-- Passes over the root operation type at the front. -/
def skipRootOperation? : List TokenTree → Option (Unit × List TokenTree)
  | .leaf (.name keyword) _ :: .leaf .colon _ :: .leaf (.name _) _ :: rest =>
    (operationKind? keyword).map fun _ => ((), rest)
  | _ => none

/-- Passes over a list of definitions between braces, if there is one. -/
def skipBody? (item? : List TokenTree → Option (Unit × List TokenTree)) :
    List TokenTree → Option (List TokenTree)
  | .group .curly [] :: _ => none
  | .group .curly inner :: rest => (Scan.all? item? inner).map fun _ => rest
  | rest => some rest

/-- Passes over the interfaces that a type implements, if there are any. -/
def skipInterfaces? : List TokenTree → Option (List TokenTree)
  | .leaf (.name "implements") _ :: rest => skipNames? .ampersand (fun _ => true) rest
  | rest => some rest

/-- Passes over the members of a union, if there are any. -/
def skipMembers? : List TokenTree → Option (List TokenTree)
  | .leaf .equals _ :: rest => skipNames? .pipe (fun _ => true) rest
  | rest => some rest

/-- Where directives can be applied. -/
def directiveLocations : List String :=
  ["QUERY", "MUTATION", "SUBSCRIPTION", "FIELD", "FRAGMENT_DEFINITION", "FRAGMENT_SPREAD",
   "INLINE_FRAGMENT", "VARIABLE_DEFINITION", "SCHEMA", "SCALAR", "OBJECT", "FIELD_DEFINITION",
   "ARGUMENT_DEFINITION", "INTERFACE", "UNION", "ENUM", "ENUM_VALUE", "INPUT_OBJECT",
   "INPUT_FIELD_DEFINITION"]

/-- Passes over what is said of a named type: the interfaces of an object type or an interface,
directives, and the members, fields or values. A name behind that of an object type can only begin
its interfaces. -/
def skipTypeBody? (keyword : String) (trees : List TokenTree) : Option (List TokenTree) := do
  let rest ← if keyword = "type" ∨ keyword = "interface" then skipInterfaces? trees else some trees
  let (_, rest) ← constantDirectives? rest
  match keyword, trees with
  | "scalar", _ => some rest
  | "type", .leaf (.name name) _ :: _ =>
    if name = "implements" then skipBody? skipFieldDefinition? rest else none
  | "type", _ | "interface", _ => skipBody? skipFieldDefinition? rest
  | "union", _ => skipMembers? rest
  | "enum", _ => skipBody? skipEnumValue? rest
  | "input", _ => skipBody? skipInputValue? rest
  | _, _ => none

/-- Passes over the directive definition behind its keyword. -/
def skipDirectiveDefinition? : List TokenTree → Option (List TokenTree)
  | .leaf .atSign _ :: .leaf (.name _) _ :: rest => do
    match ← skipArgumentDefinitions? rest with
    | .leaf (.name "repeatable") _ :: .leaf (.name "on") _ :: rest
    | .leaf (.name "on") _ :: rest => skipNames? .pipe (directiveLocations.contains ·) rest
    | _ => none
  | _ => none

/-- Passes over the type-system definition at the front, which starts with its keyword. A schema
names its root operations. -/
def skipTypeSystem? : List TokenTree → Option (List TokenTree)
  | .leaf (.name "schema") _ :: rest => do
    let (_, rest) ← constantDirectives? rest
    let rest' ← skipBody? skipRootOperation? rest
    if rest'.length < rest.length then some rest' else none
  | .leaf (.name "directive") _ :: rest => skipDirectiveDefinition? rest
  | .leaf (.name keyword) _ :: .leaf (.name _) _ :: rest => skipTypeBody? keyword rest
  | _ => none

/-- Passes over the type-system extension behind its keyword, which must say something. -/
def skipExtension? : List TokenTree → Option (List TokenTree)
  | .leaf (.name "schema") _ :: rest => do
    let (_, rest') ← constantDirectives? rest
    let rest' ← skipBody? skipRootOperation? rest'
    if rest'.length < rest.length then some rest' else none
  | .leaf (.name keyword) _ :: .leaf (.name _) _ :: rest => do
    let rest' ← skipTypeBody? keyword rest
    if rest'.length < rest.length then some rest' else none
  | _ => none

/-! ### Definitions -/

/-- The levels that a selection set may open: the nesting of brackets is limited already. -/
def levels : Nat :=
  TokenTree.nestingLimit + 1

/-- The operation behind its keyword. -/
def operation? (kind : OperationKind) (trees : List TokenTree) :
    Option (Definition × List TokenTree) := do
  let (name, rest) := match trees with
    | .leaf (.name text) _ :: rest => (some text, rest)
    | rest => (none, rest)
  let (definitions, rest) ← variableDefinitions? rest
  let (_, rest) ← directives? rest
  match rest with
  | .group .curly inner :: rest =>
    let selections ← selectionSet? levels inner
    return (.operation ⟨name, kind, definitions, selections⟩, rest)
  | _ => none

/-- The fragment definition behind its keyword. -/
def fragment? : List TokenTree → Option (Definition × List TokenTree)
  | .leaf (.name name) _ :: .leaf (.name "on") _ :: .leaf (.name typeCondition) _ :: rest => do
    if name = "on" then none
    else
      let (_, rest) ← directives? rest
      match rest with
      | .group .curly inner :: rest =>
        let selections ← selectionSet? levels inner
        return (.fragment ⟨name, typeCondition, selections⟩, rest)
      | _ => none
  | _ => none

/-- The definition at the front. A description stands in front of a type-system definition, and no
comma between them. In front of a fragment it takes the place of the keyword, so that the fragment
is called `fragment`. -/
def definition? : List TokenTree → Option (Definition × List TokenTree)
  | .group .curly inner :: rest =>
    (selectionSet? levels inner).map fun selections =>
      (.operation ⟨none, .query, [], selections⟩, rest)
  | .leaf (.name "fragment") _ :: rest => fragment? rest
  | .leaf (.name "extend") false :: rest => (skipExtension? rest).map (.typeSystem, ·)
  | .leaf (.name keyword) beforeComma :: rest =>
    match operationKind? keyword with
    | some kind => operation? kind rest
    | none => (skipTypeSystem? (.leaf (.name keyword) beforeComma :: rest)).map (.typeSystem, ·)
  | .leaf (.string _) false :: .leaf (.name "fragment") beforeComma :: rest =>
    fragment? (.leaf (.name "fragment") beforeComma :: rest)
  | .leaf (.string _) false :: rest => (skipTypeSystem? rest).map (.typeSystem, ·)
  | _ => none

/-- The document that a text denotes; it has at least one definition. -/
def ofText? (text : String) : Option Document := do
  let tokens ← Token.readAll? text
  let trees ← TokenTree.ofTokens? tokens
  if trees.isEmpty then none else Scan.all? definition? trees

end GraphCache.Document
