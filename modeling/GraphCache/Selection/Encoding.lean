import GraphCache.Selection.Basic

/-!
# Selections as JSON

A node is an object with one key, the name of its kind. Reading accepts what writing produces;
unknown keys are ignored, absent optional parts are absent, and the two conditions of a selection
may also be given as a list.

## Main definitions

* `Selection.toJson`, `Selection.ofJson?`: nodes of selection sets.
* `ArgumentValue.toJson`, `ArgumentValue.ofJson?`: argument values.
* `IncludeSkip.toJson`, `IncludeSkip.ofJson?`: conditions.
-/

namespace GraphCache

namespace Condition

/-- The condition as JSON. -/
def toJson : Condition → Json
  | yes => .string "Yes"
  | no => .string "No"
  | var name => .object [("Variable", .string name)]

/-- Reads a condition. -/
def ofJson? : Json → Option Condition
  | .string "Yes" | .object [("Yes", .null)] => some yes
  | .string "No" | .object [("No", .null)] => some no
  | .object [("Variable", .string name)] => some (var name)
  | _ => none

end Condition

namespace IncludeSkip

/-- The two conditions as JSON. -/
def toJson (conditions : IncludeSkip) : Json :=
  .object [("include", conditions.includeIf.toJson), ("skip", conditions.skipIf.toJson)]

/-- Reads two conditions. -/
def ofJson? : Json → Option IncludeSkip
  | .object fields => do
    let includeIf ← Condition.ofJson? (← Dict.get? fields "include")
    let skipIf ← Condition.ofJson? (← Dict.get? fields "skip")
    return ⟨includeIf, skipIf⟩
  | .array [first, second] => do
    let includeIf ← Condition.ofJson? first
    let skipIf ← Condition.ofJson? second
    return ⟨includeIf, skipIf⟩
  | _ => none

end IncludeSkip

namespace ArgumentValue

mutual

/-- The argument value as JSON. -/
def toJson : ArgumentValue → Json
  | literal value => .object [("Literal", value)]
  | var name => .object [("Variable", .string name)]
  | list items => .object [("List", .array (itemsToJson items))]
  | object fields => .object [("Object", .array (fieldsToJson fields))]

/-- The listed values as JSON. -/
def itemsToJson : List ArgumentValue → List Json
  | [] => []
  | item :: items => toJson item :: itemsToJson items

/-- The listed fields as pairs of a name and a value. -/
def fieldsToJson : List (String × ArgumentValue) → List Json
  | [] => []
  | (name, value) :: fields => .array [.string name, toJson value] :: fieldsToJson fields

end

mutual

/-- Reads an argument value. -/
def ofJson? : Json → Option ArgumentValue
  | .object [("Literal", value)] => some (literal value)
  | .object [("Variable", .string name)] => some (var name)
  | .object [("List", .array items)] => (itemsOfJson? items).map list
  | .object [("Object", .array fields)] => (fieldsOfJson? fields).map object
  | _ => none

/-- Reads a list of argument values. -/
def itemsOfJson? : List Json → Option (List ArgumentValue)
  | [] => some []
  | item :: items => do
    let first ← ofJson? item
    let rest ← itemsOfJson? items
    return first :: rest

/-- Reads a list of pairs of a name and a value. -/
def fieldsOfJson? : List Json → Option (List (String × ArgumentValue))
  | [] => some []
  | .array [.string name, value] :: fields => do
    let first ← ofJson? value
    let rest ← fieldsOfJson? fields
    return (name, first) :: rest
  | _ => none

end

/-- The arguments of a field as JSON. -/
def argumentsToJson (arguments : Arguments) : Json :=
  .array (fieldsToJson arguments)

end ArgumentValue

namespace Selection

/-- The parts of a field other than its nested selections. -/
def fieldParts (field : SelectedField) : List (String × Json) :=
  [("name", .string field.name),
    ("alias", Json.ofString? field.aliasName),
    ("arguments", ArgumentValue.argumentsToJson field.arguments),
    ("local", .bool field.isLocal),
    ("include_skip", field.conditions.toJson)]

mutual

/-- The node as JSON. -/
def toJson : Selection → Json
  | leaf field => .object [("Field", .object (fieldParts field ++ [("selection_set", .null)]))]
  | nested field selections =>
    .object [("Field",
      .object (fieldParts field ++ [("selection_set", .array (listToJson selections))]))]
  | inlineFragment typeCondition conditions selections =>
    .object [("InlineFragment", .object [
      ("type_condition", Json.ofString? typeCondition),
      ("include_skip", conditions.toJson),
      ("selection_set", .array (listToJson selections))])]
  | fragmentSpread name conditions =>
    .object [("FragmentSpread", .object [
      ("name", .string name), ("include_skip", conditions.toJson)])]

/-- The listed nodes as JSON. -/
def listToJson : List Selection → List Json
  | [] => []
  | selection :: selections => toJson selection :: listToJson selections

end

/-- An optional text: absent, `null` or a string. -/
def optionalText? (fields : Object) (key : String) : Option (Option String) :=
  match Dict.get? fields key with
  | none | some .null => some none
  | some (.string text) => some (some text)
  | _ => none

/-- Reads the parts of a field other than its nested selections. -/
def fieldOfParts? (fields : Object) : Option SelectedField := do
  let name ← (← Dict.get? fields "name").string?
  let aliasName ← optionalText? fields "alias"
  let arguments ← ArgumentValue.fieldsOfJson? (← (← Dict.get? fields "arguments").array?)
  let isLocal ← (← Dict.get? fields "local").bool?
  let conditions ← IncludeSkip.ofJson? (← Dict.get? fields "include_skip")
  return { name, aliasName, arguments, isLocal, conditions }

/-- Reads a node whose selection sets nest at most `levels` deep. -/
def ofJsonWithin? : Nat → Json → Option Selection
  | 0, _ => none
  | levels + 1, .object [(kind, .object fields)] => do
    let conditions ← IncludeSkip.ofJson? (← Dict.get? fields "include_skip")
    match kind with
    | "Field" =>
      let field ← fieldOfParts? fields
      match Dict.get? fields "selection_set" with
      | none | some .null => return leaf field
      | some (.array items) => return nested field (← items.mapM (ofJsonWithin? levels))
      | _ => none
    | "InlineFragment" =>
      let typeCondition ← optionalText? fields "type_condition"
      let items ← (← Dict.get? fields "selection_set").array?
      return inlineFragment typeCondition conditions (← items.mapM (ofJsonWithin? levels))
    | "FragmentSpread" => return fragmentSpread (← (← Dict.get? fields "name").string?) conditions
    | _ => none
  | _, _ => none

/-- Reads a node. -/
def ofJson? (value : Json) : Option Selection :=
  ofJsonWithin? value.depth value

end Selection

end GraphCache
