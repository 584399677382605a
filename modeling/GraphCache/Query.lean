import GraphCache.Document.Grammar
import GraphCache.Selection.Basic

/-!
# Queries

A query is a document prepared for planning: its operations in order, and its fragments by name. No
schema is involved; the shapes found in the cache and returned by resolvers are trusted.

## Main definitions

* `Operation`, `Fragment`, `Fragments`: the parts of a query.
* `Query.ofText`: reads a query.
* `Query.operation`: selects the operation to execute.
-/

namespace GraphCache

namespace OperationKind

/-- The keyword of the kind. -/
def keyword : OperationKind → String
  | query => "query"
  | mutation => "mutation"
  | subscription => "subscription"

/-- The type from which operations of the kind select. -/
def rootType : OperationKind → String
  | query => "Query"
  | mutation => "Mutation"
  | subscription => "Subscription"

/-- The key of the record that holds the root fields of operations of the kind. -/
def rootKey : OperationKind → String
  | query => "ROOT_QUERY"
  | mutation => "ROOT_MUTATION"
  | subscription => "ROOT_SUBSCRIPTION"

end OperationKind

/-- An operation of a query. -/
structure Operation where
  /-- The name; operations may be anonymous. -/
  name : Option String
  /-- Whether the operation is a query, a mutation or a subscription. -/
  kind : OperationKind
  /-- The default values of the declared variables. -/
  variableDefaults : Object
  /-- The selection set. -/
  selections : List Selection

/-- A named fragment of a query. -/
structure Fragment where
  /-- The type to which the fragment applies. -/
  typeCondition : String
  /-- The selection set. -/
  selections : List Selection

/-- The fragments of a query by name. -/
abbrev Fragments := Dict Fragment

/-- A query: its text, its operations in order and its fragments. -/
structure Query where
  /-- The text that was read. -/
  text : String
  /-- The operations, in order. -/
  operations : List Operation
  /-- The fragments; of fragments with one name the last one counts. -/
  fragments : Fragments

namespace Operation

/-- The default values of declared variables. A default that has no JSON value is left out. -/
def defaultsOf (definitions : List Document.VariableDefinition) : Object :=
  Dict.ofPairs <| definitions.filterMap fun definition => do
    let value ← definition.default
    let constant ← value.constant?
    return (definition.name, constant)

/-- Prepares an operation of a document. -/
def ofDocument (localDirective : String) (operation : Document.Operation) :
    Except PlanningError Operation := do
  let selections ← Selection.ofDocumentSet localDirective 0 operation.selections
  return ⟨operation.name, operation.kind, defaultsOf operation.variableDefinitions, selections⟩

end Operation

namespace Query

/-- The directive that marks local fields unless another one is configured. -/
def defaultLocalDirective : String :=
  "client"

/-- Adds a definition of a document to a query. -/
def addDefinition (localDirective : String) (query : Query) :
    Document.Definition → Except PlanningError Query
  | .operation definition => do
    let operation ← Operation.ofDocument localDirective definition
    return { query with operations := query.operations ++ [operation] }
  | .fragment definition => do
    let selections ← Selection.ofDocumentSet localDirective 0 definition.selections
    let fragment := ⟨definition.typeCondition, selections⟩
    return { query with fragments := Dict.insert query.fragments definition.name fragment }
  | .typeSystem => .ok query

/-- Prepares a document, in the order of its definitions. -/
def ofDocument (localDirective text : String) (document : Document) :
    Except PlanningError Query :=
  document.foldlM (addDefinition localDirective) ⟨text, [], []⟩

/-- Reads a query; fields with the given directive are local. -/
def ofText (text localDirective : String) : Except PlanningError Query :=
  match Document.ofText? text with
  | some document => ofDocument localDirective text document
  | none => .error (.parsing "the text does not follow the grammar of documents")

/-- The operation to execute. Without a name the query must have exactly one operation; of
operations with one name the first one counts. -/
def operation (query : Query) (name : Option String) : Except PlanningError Operation :=
  match name with
  | some name =>
    match query.operations.find? (·.name == some name) with
    | some operation => .ok operation
    | none => .error (.unknownOperation name)
  | none =>
    match query.operations with
    | [] => .error .noOperation
    | [operation] => .ok operation
    | _ => .error .ambiguousOperation

end Query

end GraphCache
