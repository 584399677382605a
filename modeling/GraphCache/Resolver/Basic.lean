import GraphCache.Plan.Basic
import GraphCache.Store.Basic

/-!
# Local resolvers

A resolver computes a local field from the object that holds it and the field's arguments. It
answers at once, or with a task that is finished later. Resolvers act on a world: whatever they can
read and change besides their inputs.

## Main definitions

* `Task`, `Resolution`, `Resolver`: what a resolver is.
* `Registry.register`, `Registry.lookup`: resolvers by type and field.
* `Registry.validate`: whether every local field of a plan can be served.
-/

namespace GraphCache

/-- The result of a resolver: a value, or the reason why there is none. -/
abbrev ResolverResult := Except String Json

/-- Work that a resolver has begun and that is finished later. -/
structure Task (World : Type) where
  /-- How many times the task has to be resumed in vain before it can be finished. -/
  polls : Nat
  /-- Finishes the task. -/
  finish : StateM World ResolverResult

/-- The answer of a resolver. -/
inductive Resolution (World : Type) where
  /-- The result is available. -/
  | ready (result : ResolverResult)
  /-- The result is left to a task. -/
  | pending (task : Task World)

/-- What resolvers can read besides the object and the arguments. -/
structure ResolverScope where
  /-- The variables of the request, with default values. -/
  variableValues : Object
  /-- The content of the cache. -/
  store : Snapshot

/-- Computes the value of a local field from the object that holds it and its arguments. -/
abbrev Resolver (World : Type) :=
  (parent arguments : Object) → ResolverScope → StateM World (Resolution World)

/-- A resolver together with the type and the field that it serves. -/
structure Registration (World : Type) where
  /-- The type of the objects that hold the field. -/
  typeName : String
  /-- The name of the field. -/
  field : String
  /-- The resolver. -/
  resolver : Resolver World

/-- Registered resolvers, the latest registration first. -/
abbrev Registry (World : Type) := List (Registration World)

namespace Registry

variable {World : Type}

/-- Registers a resolver; it takes precedence over earlier ones for the same field. -/
def register (registry : Registry World) (typeName field : String) (resolver : Resolver World) :
    Registry World :=
  ⟨typeName, field, resolver⟩ :: registry

/-- The resolver of a field on a type. -/
def lookup (registry : Registry World) (typeName field : String) : Option (Resolver World) :=
  (registry.find? fun entry => entry.typeName == typeName && entry.field == field).map (·.resolver)

/-- Whether a field on a type has a resolver. -/
def contains (registry : Registry World) (typeName field : String) : Bool :=
  (registry.lookup typeName field).isSome

/-- Whether a field has a resolver on some type. -/
def servesField (registry : Registry World) (field : String) : Bool :=
  registry.any (·.field == field)

/-- Whether a local field can be served. Where the query tells the type, there must be a resolver on
it; elsewhere one on any type will do, as the type is known only when data is read. -/
def canServe (registry : Registry World) (field : PlannedField) : Bool :=
  match field.parentType with
  | some typeName => registry.contains typeName field.name
  | none => registry.servesField field.name

/-- Checks a field without its nested selections. -/
def validateField (registry : Registry World) (field : PlannedField) :
    Except PlanningError Unit :=
  if field.isLocal && !registry.canServe field then
    .error (.unresolvedLocalField (field.parentType.getD "*") field.name)
  else .ok ()

mutual

/-- Checks a field and the fields below it. -/
def validatePlan (registry : Registry World) : FieldPlan → Except PlanningError Unit
  | .leaf field => registry.validateField field
  | .nested field _ fields => do
    registry.validateField field
    validatePlans registry fields

/-- Checks the listed fields and the fields below them, in order. -/
def validatePlans (registry : Registry World) : List FieldPlan → Except PlanningError Unit
  | [] => .ok ()
  | plan :: plans => do
    validatePlan registry plan
    validatePlans registry plans

end

/-- Checks that every local field of a plan can be served. -/
def validate (registry : Registry World) (plan : QueryPlan) : Except PlanningError Unit :=
  registry.validatePlans plan.selection.fields

end Registry

end GraphCache
