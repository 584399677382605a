import GraphCache.Json.Number

/-!
# GraphQL documents

The syntax tree of an executable document, as far as planning looks at it: operations and fragments
with their selections, arguments and directives. Types of variables and type-system definitions are
checked by the grammar and not kept.

## Main definitions

* `Document.Value`: an argument or default value.
* `Document.Directive`: a directive and its arguments.
* `Document.Selection`: a field, an inline fragment or a fragment spread.
* `Document.Operation`, `Document.Fragment`, `Document.Definition`: what a document consists of.
-/

namespace GraphCache

/-- The kind of an operation. -/
inductive OperationKind where
  | query
  | mutation
  | subscription
  deriving DecidableEq

namespace Document

/-- A value as it is written. -/
inductive Value where
  /-- A reference to a variable. -/
  | var (name : String)
  | int (value : Int)
  | float (literal : NumberLiteral)
  | string (text : String)
  | boolean (value : Bool)
  | null
  | enum (name : String)
  | list (items : List Value)
  | object (fields : List (String × Value))

mutual

/-- Whether a variable occurs in a value. -/
def Value.hasVariable : Value → Bool
  | .var _ => true
  | .list items => anyVariable items
  | .object fields => anyFieldVariable fields
  | _ => false

/-- Whether a variable occurs in one of the listed values. -/
def anyVariable : List Value → Bool
  | [] => false
  | value :: values => value.hasVariable || anyVariable values

/-- Whether a variable occurs in the value of one of the listed fields. -/
def anyFieldVariable : List (String × Value) → Bool
  | [] => false
  | (_, value) :: fields => value.hasVariable || anyFieldVariable fields

end

/-- A directive and its arguments. -/
structure Directive where
  /-- The name behind the at sign. -/
  name : String
  /-- The arguments, in order. -/
  arguments : List (String × Value)

/-- A node of a selection set. -/
inductive Selection where
  /-- A field; the list of nested selections is empty when there is no selection set. -/
  | field (name : String) (aliasName : Option String) (arguments : List (String × Value))
      (directives : List Directive) (selections : List Selection)
  /-- A selection set that applies to one type, or to any. -/
  | inlineFragment (typeCondition : Option String) (directives : List Directive)
      (selections : List Selection)
  /-- The selections of a named fragment. -/
  | fragmentSpread (name : String) (directives : List Directive)

/-- A declared variable and its default value. -/
structure VariableDefinition where
  /-- The name behind the dollar sign. -/
  name : String
  /-- The default value, if one is written. -/
  default : Option Value

/-- An operation as it is written. -/
structure Operation where
  /-- The name; operations may be anonymous. -/
  name : Option String
  /-- Whether the operation is a query, a mutation or a subscription. -/
  kind : OperationKind
  /-- The declared variables, in order. -/
  variableDefinitions : List VariableDefinition
  /-- The selection set. -/
  selections : List Selection

/-- A fragment definition as it is written. -/
structure Fragment where
  /-- The name that spreads refer to. -/
  name : String
  /-- The type to which the fragment applies. -/
  typeCondition : String
  /-- The selection set. -/
  selections : List Selection

/-- A definition of a document. -/
inductive Definition where
  | operation (definition : Operation)
  | fragment (definition : Fragment)
  /-- A definition of the type system, which plays no part in execution. -/
  | typeSystem

end Document

/-- A document is the list of its definitions. -/
abbrev Document := List Document.Definition

end GraphCache
