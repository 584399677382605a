import GraphCache.Client.PlanCache
import GraphCache.Config.Basic
import GraphCache.Execution.Basic
import GraphCache.Plan.Builder

/-!
# The client

A client serves requests from cached server data and local resolvers. It owns a store, a registry of
resolvers and a cache of plans.

## Main definitions

* `Client.plan`: the plan of a query, kept or built anew.
* `Client.writeResponse`: writes the server's data for a request into the store.
* `Client.query`, `Client.executeOnValue`: answers a request from the store or from a payload.
-/

namespace GraphCache

/-- A client. -/
structure Client (World : Type) where
  /-- The configuration. -/
  config : Config
  /-- The resolvers. -/
  registry : Registry World
  /-- The cached server data. -/
  store : Store
  /-- The plans that are kept. -/
  plans : PlanCache
  /-- The number of plans built so far. -/
  built : Nat := 0

namespace Client

variable {World : Type}

/-- A client with an empty store. -/
def ofConfig (config : Config) (registry : Registry World) : Client World :=
  { config
    registry
    store := { policies := config.typePolicies }
    plans := { limit := max config.planCacheLimit 1 } }

/-- Reads, plans and validates a query. -/
def buildPlan (client : Client World) (text : String) (operationName : Option String) :
    Except PlanningError QueryPlan := do
  let query ← Query.ofText text client.config.localDirective
  let plan ← query.plan operationName
  client.registry.validate plan
  return plan

/-- The plan of a query, and the client after this use of it. Plans that cannot be built are not
kept. -/
def plan (client : Client World) (text : String) (operationName : Option String) :
    Except PlanningError BuiltPlan × Client World :=
  let key := PlanKey.ofQuery text operationName
  match client.plans.find? key with
  | some (plan, plans) => (.ok plan, { client with plans })
  | none =>
    match client.buildPlan text operationName with
    | .error error => (.error error, client)
    | .ok plan =>
      let built : BuiltPlan := ⟨client.built, plan⟩
      (.ok built, { client with plans := client.plans.add key built, built := client.built + 1 })

/-- The plan of a request. -/
def planRequest (client : Client World) (request : Request) :
    Except ExecutionError QueryPlan × Client World :=
  match request.query with
  | none => (.error .missingQuery, client)
  | some text =>
    match client.plan text request.operationName with
    | (.error error, client) => (.error (.planning error), client)
    | (.ok built, client) => (.ok built.plan, client)

/-- Writes the server's data for a request into the store. -/
def writeResponse (client : Client World) (request : Request) (data : Json) :
    Except ExecutionError Unit × Client World :=
  match client.planRequest request with
  | (.error error, client) => (.error error, client)
  | (.ok plan, client) =>
    match client.store.ingest plan data request.variableValues with
    | .error error => (.error (.store error), client)
    | .ok store => (.ok (), { client with store })

/-- Executes a plan against the current content of the store. -/
def execute (client : Client World) (plan : QueryPlan) (request : Request) (root : Root) :
    StateM World (Except ExecutionError Response) :=
  Executor.execute
    { plan
      registry := client.registry
      store := client.store.snapshot
      variableValues := request.variableValues
      missingEntities := client.config.missingEntities } root

/-- Answers a request from a root that depends on its plan. -/
def answer (client : Client World) (request : Request) (root : QueryPlan → Root) :
    StateM World (Except ExecutionError Response × Client World) :=
  match client.planRequest request with
  | (.error error, client) => return (.error error, client)
  | (.ok plan, client) => return (← client.execute plan request (root plan), client)

/-- Answers a request from the store, starting at the root record of the operation. -/
def query (client : Client World) (request : Request) :
    StateM World (Except ExecutionError Response × Client World) :=
  client.answer request fun plan => .entity plan.rootKey

/-- Answers a request from a payload or a list of payloads. References in it are followed into the
store. -/
def executeOnValue (client : Client World) (request : Request) (value : Json) :
    StateM World (Except ExecutionError Response × Client World) :=
  client.answer request fun _ => .value value

end Client

end GraphCache
