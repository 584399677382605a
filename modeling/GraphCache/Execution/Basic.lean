import GraphCache.Execution.Drive
import GraphCache.Response

/-!
# Executing a plan

## Main definitions

* `Root`: where an execution starts reading.
* `Executor`: a plan with all that its execution depends on.
* `Executor.execute`: the response to a plan, and the world that the resolvers leave.
-/

namespace GraphCache

/-- Where an execution starts reading. -/
inductive Root where
  /-- A record of the cache. -/
  | entity (key : String)
  /-- A payload: an object, or a list of objects for a list of results. -/
  | value (payload : Json)

/-- The record that holds the root fields of queries. -/
def Root.query : Root :=
  .entity (OperationKind.rootKey .query)

/-- A plan with all that its execution depends on. -/
structure Executor (World : Type) where
  /-- The plan. -/
  plan : QueryPlan
  /-- The resolvers. -/
  registry : Registry World
  /-- The content of the cache. -/
  store : Snapshot
  /-- The variables of the request. -/
  variableValues : Object := []
  /-- What happens when a reference leads to no record. -/
  missingEntities : MissingEntityPolicy := .nullify

/-- The faults that are reported, in the order of their positions. -/
def Fault.inOrder (faults : List Fault) : List Fault :=
  faults.mergeSort fun a b => Trail.positionsLE a.trail.order b.trail.order

namespace Executor

variable {World : Type} (executor : Executor World)

/-- The execution of the plan, with default values for variables. -/
def execution : Execution World :=
  { rootType := executor.plan.rootType
    registry := executor.registry
    store := executor.store
    variableValues := executor.plan.variableValues executor.variableValues
    missingEntities := executor.missingEntities }

/-- The first pass over the plan. The root record of the operation may be missing: operations may
select local fields only before anything was written. -/
def start (root : Root) : Run World (Completed World Json) :=
  let selection := executor.plan.selection
  let expand := executor.execution.completeObject selection.fields
  let rootType := some executor.plan.rootType
  let complete (record : Object) : Run World (Completed World Json) := do
    let (object, work) ← expand record .record rootType {}
    return (.object object, work)
  match root with
  | .entity key =>
    match Dict.get? executor.store key with
    | some record => complete record
    | none =>
      if key = executor.plan.rootKey then complete []
      else executor.execution.missingEntity key {}
  | .value payload =>
    executor.execution.completeValue selection.id expand .payload rootType {} payload

/-- The response that the data and the faults of a finished execution make up. -/
def respond (progress : Progress) : Response :=
  ⟨some progress.data, (Fault.inOrder progress.faults).map Fault.toGraphQLError⟩

/-- Runs the plan from a root. A local field that no resolver can serve fails before anything is
read. -/
def execute (root : Root) : StateM World (Except ExecutionError Response) := fun world =>
  match executor.registry.validate executor.plan with
  | .error error => (.error (.planning error), world)
  | .ok () =>
    match executor.start root { world } with
    | (.error error, state) => (.error error, state.world)
    | (.ok (data, work), state) =>
      let (outcome, state) :=
        executor.execution.drive ⟨work.deferred⟩ ⟨data, work.faults⟩ state
      (outcome.map respond, state.world)

end Executor

end GraphCache
