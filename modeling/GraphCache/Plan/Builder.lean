import GraphCache.Plan.Basic

/-!
# Planning

The fields of a group of selection sets are collected first, fragments being entered where they
occur; fields that only differ in their nested selections become one. Then the nested selections of
each field are planned in the same way. Both walks count the levels that are left.

## Main definitions

* `CollectedField`, `CollectedField.mergesWith`: a field found while collecting.
* `Planner.collect`: the fields of a selection set and of the fragments in it.
* `Planner.planSelection`: the plan of a group of selection sets.
* `Query.plan`, `planSelections`: the plans of an operation and of a bare selection set.
-/

namespace GraphCache

/-- The fragments around a selection that is being collected. -/
structure Scope where
  /-- The type of the object, where the query tells it. -/
  parentType : Option String := none
  /-- The types to which the enclosing fragments apply, each once. -/
  typeConditions : List String := []
  /-- The conditions of the enclosing fragments. -/
  conditions : List IncludeSkip := []
  /-- The named fragments that are being entered, the innermost last. -/
  openFragments : List String := []

namespace Scope

/-- The conditions of a selection inside the scope, given its own. -/
def conditionsWith (scope : Scope) (own : IncludeSkip) : List IncludeSkip :=
  if own.isUnconditional then scope.conditions else scope.conditions ++ [own]

/-- The scope inside a fragment. -/
def enter (scope : Scope) (typeCondition : Option String) (conditions : IncludeSkip) : Scope :=
  match typeCondition with
  | some type =>
    { scope with
      parentType := some type
      typeConditions :=
        if type ∈ scope.typeConditions then scope.typeConditions
        else scope.typeConditions ++ [type]
      conditions := scope.conditionsWith conditions }
  | none => { scope with conditions := scope.conditionsWith conditions }

/-- The scope inside a named fragment. -/
def enterNamed (scope : Scope) (name : String) (fragment : Fragment)
    (conditions : IncludeSkip) : Scope :=
  let inner := scope.enter (some fragment.typeCondition) conditions
  { inner with openFragments := inner.openFragments ++ [name] }

end Scope

/-- A field found in a selection set, with the selections to be planned below it. -/
structure CollectedField where
  /-- The field as it is selected. -/
  field : SelectedField
  /-- Whether it has no nested selections. -/
  isLeaf : Bool
  /-- The nested selection sets of all its occurrences, in order. -/
  selectionSets : List (List Selection)
  /-- The fragments around its first occurrence. -/
  scope : Scope

namespace CollectedField

/-- The conditions of the field and of the fragments around it. -/
def conditions (collected : CollectedField) : List IncludeSkip :=
  collected.scope.conditionsWith collected.field.conditions

/-- Whether two fields differ at most in their nested selections. -/
def mergesWith (a b : CollectedField) : Bool :=
  a.field.responseKey == b.field.responseKey && a.field.name == b.field.name
    && ArgumentValue.sameFields a.field.arguments b.field.arguments
    && a.field.isLocal == b.field.isLocal && a.isLeaf == b.isLeaf
    && a.scope.typeConditions == b.scope.typeConditions && a.conditions == b.conditions

/-- Adds an occurrence of a field to those collected before: its nested selections go to the first
field that it merges with, else it is a new field. -/
def addTo (found : CollectedField) : List CollectedField → List CollectedField
  | [] => [found]
  | first :: rest =>
    if first.mergesWith found then
      { first with selectionSets := first.selectionSets ++ found.selectionSets } :: rest
    else first :: addTo found rest

/-- The planned field without its nested selections. Arguments without variables are bound now. -/
def planned (collected : CollectedField) : PlannedField :=
  let arguments := collected.field.arguments
  let static := (ArgumentValue.literalFields? arguments).map Dict.ofPairs
  { name := collected.field.name
    responseKey := collected.field.responseKey
    isLocal := collected.field.isLocal
    arguments
    staticArguments := static
    staticStorageName := static.map (storageName collected.field.name)
    parentType := collected.scope.parentType
    typeConditions := collected.scope.typeConditions
    conditions := collected.conditions }

end CollectedField

namespace Planner

/-- The error for selections that nest too deeply. -/
def tooDeep {α : Type} : Except PlanningError α :=
  .error (.recursionLimitExceeded recursionLimit)

/-- Collects one selection; `collectInner` collects the selections of a fragment. -/
def collectSelection (fragments : Fragments)
    (collectInner : List Selection → Scope → List CollectedField →
      Except PlanningError (List CollectedField))
    (scope : Scope) (found : List CollectedField) :
    Selection → Except PlanningError (List CollectedField)
  | .leaf field => .ok (CollectedField.addTo ⟨field, true, [], scope⟩ found)
  | .nested field selections =>
    .ok (CollectedField.addTo ⟨field, false, [selections], scope⟩ found)
  | .inlineFragment typeCondition conditions selections =>
    collectInner selections (scope.enter typeCondition conditions) found
  | .fragmentSpread name conditions =>
    if name ∈ scope.openFragments then .error (.recursiveFragment name)
    else
      match Dict.get? fragments name with
      | none => .error (.unknownFragment name)
      | some fragment =>
        collectInner fragment.selections (scope.enterNamed name fragment conditions) found

/-- Collects the fields of a selection set, given the levels that are left. -/
def collect (fragments : Fragments) :
    Nat → List Selection → Scope → List CollectedField →
      Except PlanningError (List CollectedField)
  | 0, _, _, _ => tooDeep
  | levels + 1, selections, scope, found =>
    selections.foldlM (collectSelection fragments (collect fragments levels) scope) found

/-- Plans collected fields one after the other; `planInner` plans nested selection sets and is
given the next number. -/
def planFields
    (planInner : List (List Selection) → Scope → Nat →
      Except PlanningError (SelectionPlan × Nat)) :
    List CollectedField → Nat → Except PlanningError (List FieldPlan × Nat)
  | [], next => .ok ([], next)
  | collected :: rest, next =>
    if collected.isLeaf then do
      let (plans, next) ← planFields planInner rest next
      return (.leaf collected.planned :: plans, next)
    else do
      let inner : Scope := { openFragments := collected.scope.openFragments }
      let (selection, next) ← planInner collected.selectionSets inner next
      let (plans, next) ← planFields planInner rest next
      return (.nested collected.planned selection.id selection.fields :: plans, next)

/-- Plans a group of selection sets as one, given the levels that are left, the fragments around
them and the next number. The group itself takes that number, those inside it the following ones. -/
def planSelection (fragments : Fragments) :
    Nat → List (List Selection) → Scope → Nat → Except PlanningError (SelectionPlan × Nat)
  | 0, _, _, _ => tooDeep
  | levels + 1, selectionSets, scope, next => do
    let collected ← selectionSets.foldlM
      (fun found selections => collect fragments (levels + 1) selections scope found) []
    let (fields, last) ← planFields (planSelection fragments levels) collected (next + 1)
    return (⟨next, fields⟩, last)

/-- Plans the selections of a root type. -/
def planRoot (fragments : Fragments) (selections : List Selection) (rootType : String) :
    Except PlanningError SelectionPlan := do
  let (plan, _) ←
    planSelection fragments (recursionLimit + 1) [selections] { parentType := some rootType } 0
  return plan

end Planner

/-- Plans the operation with the given name, or the only one. -/
def Query.plan (query : Query) (operationName : Option String) :
    Except PlanningError QueryPlan := do
  let operation ← query.operation operationName
  if operation.kind = .subscription then
    .error (.unsupportedOperation operation.kind.keyword)
  else
    let rootType := operation.kind.rootType
    let selection ← Planner.planRoot query.fragments operation.selections rootType
    return ⟨operation.kind, operation.name, rootType, operation.variableDefaults, selection⟩

/-- Plans selections that are read from an object of the given type. -/
def planSelections (selections : List Selection) (fragments : Fragments) (rootType : String) :
    Except PlanningError QueryPlan := do
  let selection ← Planner.planRoot fragments selections rootType
  return ⟨.query, none, rootType, [], selection⟩

end GraphCache
