import GraphCache.Json.Text
import GraphCache.Query

/-!
# Query plans

A plan is an operation flattened for execution: fragments are dissolved into the conditions of the
fields found in them, fields are told apart as local or remote, and every selection set has a
number.

## Main definitions

* `storageName`: the name of a field with its arguments inside a cache record.
* `PlannedField`, `FieldPlan`, `SelectionPlan`, `QueryPlan`: the parts of a plan.
* `PlannedField.isSkipped`, `PlannedField.appliesTo`: whether a field counts at an object.
-/

namespace GraphCache

/-- The field that tells the type of an object. -/
def typenameField : String :=
  "__typename"

/-- The name of a field inside a cache record: its bare name without arguments, else the arguments
behind it in parentheses, with keys in increasing order. -/
def storageName (name : String) (arguments : Object) : String :=
  if arguments.isEmpty then name
  else String.ofList
    (name.toList ++ '(' :: ((Json.object arguments).sorted.chars ++ [')']))

/-- A planned field without its nested selections. -/
structure PlannedField where
  /-- The name of the field. -/
  name : String
  /-- The key of its value in the response. -/
  responseKey : String
  /-- Whether the field is computed by a local resolver. -/
  isLocal : Bool
  /-- The arguments, in order. -/
  arguments : Arguments
  /-- The values of the arguments, when none of them refers to a variable. -/
  staticArguments : Option Object
  /-- The storage name that belongs to these values. -/
  staticStorageName : Option String
  /-- The type of the object, where the query tells it. -/
  parentType : Option String
  /-- The types to which the enclosing fragments apply. -/
  typeConditions : List String
  /-- The conditions of the field and of the enclosing fragments. -/
  conditions : List IncludeSkip

/-- A planned field; with nested selections it also has the number of their selection set. -/
inductive FieldPlan where
  | leaf (field : PlannedField)
  | nested (field : PlannedField) (id : Nat) (fields : List FieldPlan)

/-- The fields of one selection set, in the order of their first occurrence. -/
structure SelectionPlan where
  /-- The number of the selection set in its plan. -/
  id : Nat
  /-- The fields, in order. -/
  fields : List FieldPlan

/-- The plan of an operation. -/
structure QueryPlan where
  /-- The kind of the operation. -/
  kind : OperationKind
  /-- The name of the operation. -/
  operationName : Option String
  /-- The type from which the operation selects. -/
  rootType : String
  /-- The default values of the operation's variables. -/
  variableDefaults : Object
  /-- The root selection set. -/
  selection : SelectionPlan

namespace PlannedField

/-- Whether the field asks for the type of the object. -/
def isTypename (field : PlannedField) : Bool :=
  field.name == typenameField

/-- The values of the arguments. -/
def boundArguments (field : PlannedField) (vars : Object) : Object :=
  field.staticArguments.getD (ArgumentValue.bindAll vars field.arguments)

/-- The name of the field inside a cache record. -/
def storageNameFor (field : PlannedField) (vars : Object) : String :=
  field.staticStorageName.getD (storageName field.name (field.boundArguments vars))

/-- Whether the conditions exclude the field for these variables. -/
def isSkipped (field : PlannedField) (vars : Object) : Bool :=
  field.conditions.any (·.shouldSkip vars)

/-- Whether the field counts at an object of the given type. An object of unknown type satisfies
every type condition. -/
def appliesTo (field : PlannedField) (typename : Option String) : Bool :=
  match typename with
  | some typename => field.typeConditions.all (· == typename)
  | none => true

/-- Whether the field is evaluated at an object of the given type for these variables. -/
def isSelected (field : PlannedField) (vars : Object) (typename : Option String) : Bool :=
  !field.isSkipped vars && field.appliesTo typename

end PlannedField

namespace FieldPlan

/-- The field without its nested selections. -/
def field : FieldPlan → PlannedField
  | leaf field => field
  | nested field _ _ => field

/-- The nested selections. -/
def selection? : FieldPlan → Option SelectionPlan
  | leaf _ => none
  | nested _ id fields => some ⟨id, fields⟩

mutual

/-- The number of selection sets below a field. -/
def selectionCount : FieldPlan → Nat
  | leaf _ => 0
  | nested _ _ fields => 1 + listSelectionCount fields

/-- The number of selection sets below the listed fields. -/
def listSelectionCount : List FieldPlan → Nat
  | [] => 0
  | plan :: plans => selectionCount plan + listSelectionCount plans

end

mutual

/-- Whether a field, or a field below it, is local. -/
def hasLocalField : FieldPlan → Bool
  | leaf field => field.isLocal
  | nested field _ fields => field.isLocal || anyLocalField fields

/-- Whether one of the listed fields, or a field below them, is local. -/
def anyLocalField : List FieldPlan → Bool
  | [] => false
  | plan :: plans => hasLocalField plan || anyLocalField plans

end

mutual

/-- The number of levels of selection sets below a field. -/
def height : FieldPlan → Nat
  | leaf _ => 0
  | nested _ _ fields => listHeight fields + 1

/-- The greatest height of the listed fields. -/
def listHeight : List FieldPlan → Nat
  | [] => 0
  | plan :: plans => max (height plan) (listHeight plans)

end

mutual

/-- The numbers of the selection sets below a field, an outer one before the inner ones. -/
def selectionIds : FieldPlan → List Nat
  | leaf _ => []
  | nested _ id fields => id :: listSelectionIds fields

/-- The numbers of the selection sets below the listed fields, in order. -/
def listSelectionIds : List FieldPlan → List Nat
  | [] => []
  | plan :: plans => selectionIds plan ++ listSelectionIds plans

end

theorem height_le_listHeight {plan : FieldPlan} {plans : List FieldPlan} (h : plan ∈ plans) :
    plan.height ≤ listHeight plans := by
  induction plans with
  | nil => simp at h
  | cons first rest ih =>
    rcases List.mem_cons.1 h with rfl | h
    · simp only [listHeight]; omega
    · simp only [listHeight]; have := ih h; omega

end FieldPlan

namespace SelectionPlan

/-- The number of selection sets in a plan. -/
def selectionCount (plan : SelectionPlan) : Nat :=
  1 + FieldPlan.listSelectionCount plan.fields

/-- Whether some field of the plan is local. -/
def hasLocalField (plan : SelectionPlan) : Bool :=
  FieldPlan.anyLocalField plan.fields

/-- The numbers of the selection sets, an outer one before the inner ones. -/
def selectionIds (plan : SelectionPlan) : List Nat :=
  plan.id :: FieldPlan.listSelectionIds plan.fields

end SelectionPlan

namespace QueryPlan

/-- The key of the record that holds the root fields. -/
def rootKey (plan : QueryPlan) : String :=
  plan.kind.rootKey

/-- The variables of a request completed by the operation's default values. -/
def variableValues (plan : QueryPlan) (provided : Object) : Object :=
  Dict.merge plan.variableDefaults provided

/-- The number of selection sets. -/
def selectionCount (plan : QueryPlan) : Nat :=
  plan.selection.selectionCount

/-- Whether some field is local. -/
def hasLocalField (plan : QueryPlan) : Bool :=
  plan.selection.hasLocalField

end QueryPlan

end GraphCache
