import GraphCache.Plan.Basic
import GraphCache.Selection.Encoding

/-!
# Plans as JSON

## Main definitions

* `QueryPlan.toJson`: the plan with all it holds.
* `QueryPlan.fieldSummary`: the fields of a plan, an outer one before the inner ones, with what
  their arguments and storage names are for given variables.
-/

namespace GraphCache

/-- The name of a kind of operation in a plan. -/
def OperationKind.title : OperationKind → String
  | query => "Query"
  | mutation => "Mutation"
  | subscription => "Subscription"

/-- The parts of a planned field other than its nested selections. -/
def PlannedField.parts (field : PlannedField) : List (String × Json) :=
  [("name", .string field.name),
    ("response_key", .string field.responseKey),
    ("kind", .string (if field.isLocal then "Local" else "Remote")),
    ("arguments", ArgumentValue.argumentsToJson field.arguments),
    ("static_arguments", match field.staticArguments with
      | some arguments => .object arguments
      | none => .null),
    ("storage_key", Json.ofString? field.staticStorageName),
    ("parent_type", Json.ofString? field.parentType),
    ("type_conditions", .array (field.typeConditions.map .string)),
    ("conditions", .array (field.conditions.map IncludeSkip.toJson))]

/-- What a field of the selection set with the given number is for these variables. -/
def PlannedField.row (field : PlannedField) (vars : Object) (id : Nat) : Json :=
  .array [Json.ofNat id, .string field.responseKey, .string field.name, .bool field.isLocal,
    Json.ofString? field.parentType, .string (field.storageNameFor vars),
    .string (Json.object (field.boundArguments vars)).text]

namespace FieldPlan

mutual

/-- The planned field as JSON. -/
def toJson : FieldPlan → Json
  | leaf field => .object (field.parts ++ [("selection", .null)])
  | nested field id fields =>
    .object (field.parts ++ [("selection",
      .object [("id", Json.ofNat id), ("fields", .array (listToJson fields))])])

/-- The listed fields as JSON. -/
def listToJson : List FieldPlan → List Json
  | [] => []
  | plan :: plans => toJson plan :: listToJson plans

end

mutual

/-- The summary of a field of the selection set with the given number, and of the fields below. -/
def summary (vars : Object) (id : Nat) : FieldPlan → List Json
  | leaf field => [field.row vars id]
  | nested field inner fields => field.row vars id :: listSummary vars inner fields

/-- The summaries of the listed fields, in order. -/
def listSummary (vars : Object) (id : Nat) : List FieldPlan → List Json
  | [] => []
  | plan :: plans => summary vars id plan ++ listSummary vars id plans

end

end FieldPlan

/-- The plan of a selection set as JSON. -/
def SelectionPlan.toJson (plan : SelectionPlan) : Json :=
  .object [("id", Json.ofNat plan.id), ("fields", .array (FieldPlan.listToJson plan.fields))]

namespace QueryPlan

/-- The plan as JSON. -/
def toJson (plan : QueryPlan) : Json :=
  .object [("kind", .string plan.kind.title),
    ("operation_name", Json.ofString? plan.operationName),
    ("root_type", .string plan.rootType),
    ("variable_defaults", .object plan.variableDefaults),
    ("selection", plan.selection.toJson)]

/-- What each field of the plan is for the given variables, an outer field before the inner ones. -/
def fieldSummary (plan : QueryPlan) (vars : Object) : Json :=
  .array (FieldPlan.listSummary vars plan.selection.id plan.selection.fields)

end QueryPlan

end GraphCache
