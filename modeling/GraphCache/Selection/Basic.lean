import GraphCache.Error.Causes
import GraphCache.Selection.Argument
import GraphCache.Selection.Condition

/-!
# Selections

The selections of an operation or fragment, prepared for planning: arguments are evaluated as far as
possible, local fields are marked, and what is skipped for all variables has been dropped.

## Main definitions

* `SelectedField`, `Selection`: a field without its nested selections, and a node of a selection
  set.
* `recursionLimit`: how deeply selections may nest.
* `Selection.ofDocument`: prepares the selections of a document.
-/

namespace GraphCache

/-- A selected field without its nested selections. -/
structure SelectedField where
  /-- The name of the field. -/
  name : String
  /-- The key in the response, when it is not the name. -/
  aliasName : Option String := none
  /-- The arguments, in order. -/
  arguments : Arguments := []
  /-- Whether the field is computed by a local resolver. -/
  isLocal : Bool := false
  /-- The field's own conditions. -/
  conditions : IncludeSkip := .unconditional

/-- The key of a field's value in the response. -/
def SelectedField.responseKey (field : SelectedField) : String :=
  field.aliasName.getD field.name

/-- A node of a selection set. -/
inductive Selection where
  /-- A field without nested selections. -/
  | leaf (field : SelectedField)
  /-- A field with nested selections. -/
  | nested (field : SelectedField) (selections : List Selection)
  /-- Selections that apply to one type, or to any. -/
  | inlineFragment (typeCondition : Option String) (conditions : IncludeSkip)
      (selections : List Selection)
  /-- The selections of a named fragment. -/
  | fragmentSpread (name : String) (conditions : IncludeSkip)

/-- Selections nest no deeper than this. -/
def recursionLimit : Nat :=
  128

namespace Selection

/-- Marks a field as local; fragments stay as they are. -/
def markLocal : Selection → Selection
  | leaf field => leaf { field with isLocal := true }
  | nested field selections => nested { field with isLocal := true } selections
  | fragment => fragment

/-- Gives a field another key in the response; fragments stay as they are. -/
def withAlias (aliasName : String) : Selection → Selection
  | leaf field => leaf { field with aliasName := some aliasName }
  | nested field selections => nested { field with aliasName := some aliasName } selections
  | fragment => fragment

/-- A field of a document without its nested selections. It is local when one of its directives has
the given name. -/
def fieldOfDocument (localDirective name : String) (aliasName : Option String)
    (arguments : List (String × Document.Value)) (directives : List Document.Directive) :
    SelectedField :=
  { name
    aliasName
    arguments := ArgumentValue.ofFieldValues arguments
    isLocal := directives.any (·.name == localDirective)
    conditions := .ofDirectives directives }

mutual

/-- Prepares a selection at a depth. What is skipped for all variables is dropped without a look at
its nested selections, and so is an inline fragment of which nothing remains. -/
def ofDocument? (localDirective : String) (depth : Nat) :
    Document.Selection → Except PlanningError (Option Selection)
  | .field name aliasName arguments directives selections =>
    if recursionLimit < depth then .error (.recursionLimitExceeded recursionLimit)
    else
      let field := fieldOfDocument localDirective name aliasName arguments directives
      if field.conditions.staticallySkipped then .ok none
      else if selections.isEmpty then .ok (some (leaf field))
      else do
        let inner ← ofDocumentSet localDirective (depth + 1) selections
        return some (nested field inner)
  | .inlineFragment typeCondition directives selections =>
    if recursionLimit < depth then .error (.recursionLimitExceeded recursionLimit)
    else
      let conditions := IncludeSkip.ofDirectives directives
      if conditions.staticallySkipped then .ok none
      else do
        let inner ← ofDocumentSet localDirective (depth + 1) selections
        return if inner.isEmpty then none
          else some (inlineFragment typeCondition conditions inner)
  | .fragmentSpread name directives =>
    if recursionLimit < depth then .error (.recursionLimitExceeded recursionLimit)
    else
      let conditions := IncludeSkip.ofDirectives directives
      .ok (if conditions.staticallySkipped then none else some (fragmentSpread name conditions))

/-- Prepares the selections of a selection set at a depth. -/
def ofDocumentSet (localDirective : String) (depth : Nat) :
    List Document.Selection → Except PlanningError (List Selection)
  | [] => .ok []
  | selection :: selections => do
    let first ← ofDocument? localDirective depth selection
    let rest ← ofDocumentSet localDirective depth selections
    return first.toList ++ rest

end

end Selection

end GraphCache
