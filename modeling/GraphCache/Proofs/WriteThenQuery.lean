import GraphCache.Client.Basic
import GraphCache.Proofs.ReadBack
import Mathlib.Tactic

/-!
# Writing a response and asking for it again

A client that wrote a response into an empty store answers the same request from the store as from
the data of the response, provided that no local field takes part and the data is complete and
consistent.

## Main definitions

* `PlanCache.Sound`: a plan cache with room for a plan, whose plans the planner has built.
* `Client.Reachable`: the clients that come about by planning and by changing the store.

## Main results

* `Client.Reachable.plans_sound`: the plans that a client keeps were built by the planner.
* `Client.Reachable.planRequest_again`: a request is planned the second time as it was the first
  time.
* `Client.query_eq_executeOnValue`: writing then reading agrees with executing on the payload.
-/

namespace GraphCache

variable {World : Type}

namespace PlanCache

variable {cache : PlanCache} {key : PlanKey}

/-- A plan that is found is one of those that are kept, and is the first one afterwards. -/
theorem find?_eq_some {built : BuiltPlan} {after : PlanCache}
    (h : cache.find? key = some (built, after)) :
    (key, built) ∈ cache.entries ∧
      after = { cache with entries := (key, built) :: cache.entries.filter (·.1 != key) } := by
  obtain ⟨entry, hentry, hresult⟩ := Option.map_eq_some_iff.1 h
  obtain ⟨rfl, rfl⟩ := Prod.mk.inj hresult
  have hkey : entry.1 = key := by simpa using List.find?_some hentry
  subst hkey
  exact ⟨List.mem_of_find?_eq_some hentry, rfl⟩

/-- The plan that was used last is found. -/
theorem find?_of_entries {built : BuiltPlan} {others : List (PlanKey × BuiltPlan)}
    (h : cache.entries = (key, built) :: others) :
    ∃ after, cache.find? key = some (built, after) := by
  simp [find?, h]

/-- There is room for a plan, and the plans that are kept were built by the planner. -/
structure Sound (cache : PlanCache) : Prop where
  /-- There is room for a plan. -/
  limit_pos : 0 < cache.limit
  /-- The plans were built by the planner. -/
  planned : ∀ entry ∈ cache.entries, entry.2.plan.Planned

/-- The plan that was added last is found. -/
theorem Sound.find?_add (h : cache.Sound) (built : BuiltPlan) :
    ∃ after, (cache.add key built).find? key = some (built, after) := by
  obtain ⟨limit, hlimit⟩ : ∃ limit, cache.limit = limit + 1 := Nat.exists_eq_add_one.2 h.limit_pos
  have hentries : (cache.add key built).entries
      = (key, built) :: (cache.entries.filter (·.1 != key)).take limit := by
    simp [add, hlimit]
  exact find?_of_entries hentries

theorem Sound.of_find? (h : cache.Sound) {built : BuiltPlan} {after : PlanCache}
    (hfound : cache.find? key = some (built, after)) : after.Sound ∧ built.plan.Planned := by
  obtain ⟨hmem, rfl⟩ := find?_eq_some hfound
  have hbuilt := h.planned _ hmem
  refine ⟨⟨h.limit_pos, List.forall_mem_cons.2 ⟨hbuilt, fun entry hentry ↦ ?_⟩⟩, hbuilt⟩
  exact h.planned entry (List.mem_filter.1 hentry).1

theorem Sound.add (h : cache.Sound) {built : BuiltPlan} (hbuilt : built.plan.Planned) :
    (cache.add key built).Sound := by
  refine ⟨h.limit_pos, fun entry hentry ↦ ?_⟩
  rcases List.mem_cons.1 (List.mem_of_mem_take hentry) with rfl | hentry
  · exact hbuilt
  · exact h.planned entry (List.mem_filter.1 hentry).1

end PlanCache

/-- A field of a plan without local fields is found again, unless its name is that of a reference or
it selects the type under another response key. -/
theorem QueryPlan.Planned.storable_of_names {plan : QueryPlan} (h : plan.Planned)
    (hlocal : plan.hasLocalField = false) (vars : Object) {fieldPlan : FieldPlan}
    (hhas : plan.Has fieldPlan) (hreference : fieldPlan.field.name ≠ Json.referenceField)
    (htypename : fieldPlan.field.name = typenameField →
      fieldPlan.field.responseKey = typenameField) :
    fieldPlan.field.Storable vars := by
  have hstorage := PlannedField.storageNameFor_of_collected (h.isCollected hhas) vars
  refine ⟨QueryPlan.isLocal_of_hasLocalField hlocal hhas, fun hname ↦ ?_, fun hname ↦ ?_⟩
  · exact htypename (name_eq_of_storageName (hstorage.symm.trans hname) (by decide))
  · exact hreference (name_eq_of_storageName (hstorage.symm.trans hname) (by decide))

/-- The fields of a plan without local fields are found again, unless their names get in the way. -/
theorem QueryPlan.Planned.storable {plan : QueryPlan} (h : plan.Planned)
    (hlocal : plan.hasLocalField = false)
    (hnames : ∀ fieldPlan, plan.Has fieldPlan → fieldPlan.field.name ≠ Json.referenceField ∧
      (fieldPlan.field.responseKey = typenameField ↔ fieldPlan.field.name = typenameField))
    (vars : Object) {fieldPlan : FieldPlan} (hhas : plan.Has fieldPlan) :
    fieldPlan.field.Storable vars :=
  h.storable_of_names hlocal vars hhas (hnames fieldPlan hhas).1 (hnames fieldPlan hhas).2.2

namespace Client

variable {client after : Client World}

/-- A plan that was built was built by the planner. -/
theorem planned_of_buildPlan {text : String} {operationName : Option String} {plan : QueryPlan}
    (h : client.buildPlan text operationName = .ok plan) : plan.Planned := by
  rw [buildPlan] at h
  cases hquery : Query.ofText text client.config.localDirective with
  | error error => rw [hquery] at h; cases h
  | ok query =>
    cases hplan : query.plan operationName with
    | error error => simp only [hquery, hplan, bind, Except.bind] at h; cases h
    | ok built =>
      simp only [hquery, hplan, bind, Except.bind] at h
      split at h
      · cases h
      · rw [← Except.ok.inj h]
        exact .ofQuery hplan

section Plan

variable {text : String} {operationName : Option String}

/-- A plan that is kept is not built again. -/
theorem plan_of_found {built : BuiltPlan} {plans : PlanCache}
    (h : client.plans.find? (PlanKey.ofQuery text operationName) = some (built, plans)) :
    client.plan text operationName = (.ok built, { client with plans }) := by
  simp only [Client.plan, h]

/-- A plan that is not kept is built and kept. -/
theorem plan_of_built {plan : QueryPlan}
    (hmissing : client.plans.find? (PlanKey.ofQuery text operationName) = none)
    (hplan : client.buildPlan text operationName = .ok plan) :
    client.plan text operationName
      = (.ok ⟨client.built, plan⟩, { client with
          plans := client.plans.add (PlanKey.ofQuery text operationName) ⟨client.built, plan⟩
          built := client.built + 1 }) := by
  simp only [Client.plan, hmissing, hplan]

/-- Without a plan the client stays as it is. -/
theorem plan_of_error {error : PlanningError}
    (hmissing : client.plans.find? (PlanKey.ofQuery text operationName) = none)
    (hplan : client.buildPlan text operationName = .error error) :
    client.plan text operationName = (.error error, client) := by
  simp only [Client.plan, hmissing, hplan]

/-- A plan is one of those that are kept, or is built and kept. -/
theorem plan_ok {built : BuiltPlan}
    (h : client.plan text operationName = (.ok built, after)) :
    (∃ plans, client.plans.find? (PlanKey.ofQuery text operationName) = some (built, plans) ∧
        after = { client with plans }) ∨
      (client.buildPlan text operationName = .ok built.plan ∧
        after = { client with
          plans := client.plans.add (PlanKey.ofQuery text operationName) built
          built := client.built + 1 }) := by
  cases hfound : client.plans.find? (PlanKey.ofQuery text operationName) with
  | some found =>
    rw [plan_of_found hfound] at h
    obtain ⟨hbuilt, rfl⟩ := Prod.mk.inj h
    exact .inl ⟨found.2, by rw [← Except.ok.inj hbuilt], rfl⟩
  | none =>
    cases hplan : client.buildPlan text operationName with
    | error error =>
      rw [plan_of_error hfound hplan] at h
      cases h
    | ok plan =>
      rw [plan_of_built hfound hplan] at h
      obtain ⟨hbuilt, rfl⟩ := Prod.mk.inj h
      obtain rfl := Except.ok.inj hbuilt
      exact .inr ⟨rfl, rfl⟩

/-- A client that finds and builds no plan stays as it is. -/
theorem plan_error {error : PlanningError}
    (h : client.plan text operationName = (.error error, after)) : after = client := by
  cases hfound : client.plans.find? (PlanKey.ofQuery text operationName) with
  | some found =>
    rw [plan_of_found hfound] at h
    cases h
  | none =>
    cases hplan : client.buildPlan text operationName with
    | error error =>
      rw [plan_of_error hfound hplan] at h
      exact (Prod.mk.inj h).2.symm
    | ok plan =>
      rw [plan_of_built hfound hplan] at h
      cases h

end Plan

/-- The request has a query whose plan is the one of the request. -/
theorem planRequest_ok {request : Request} {plan : QueryPlan}
    (h : client.planRequest request = (.ok plan, after)) :
    ∃ text built, request.query = some text ∧
      client.plan text request.operationName = (.ok built, after) ∧ built.plan = plan := by
  unfold planRequest at h
  split at h
  · cases h
  · next text htext =>
    split at h
    · cases h
    · next built planned heq =>
      obtain ⟨hbuilt, rfl⟩ := Prod.mk.inj h
      exact ⟨text, built, htext, heq, Except.ok.inj hbuilt⟩

/-- The plan of a request is the one of its query. -/
theorem planRequest_of_plan {request : Request} {text : String} {built : BuiltPlan}
    (htext : request.query = some text)
    (h : client.plan text request.operationName = (.ok built, after)) :
    client.planRequest request = (.ok built.plan, after) := by
  simp only [planRequest, htext, h]

/-- Planning leaves the store alone. -/
theorem planRequest_store {request : Request} {plan : QueryPlan}
    (h : client.planRequest request = (.ok plan, after)) : after.store = client.store := by
  obtain ⟨text, built, -, hplan, -⟩ := planRequest_ok h
  rcases plan_ok hplan with ⟨plans, -, rfl⟩ | ⟨-, rfl⟩
  · rfl
  · rfl

/-- The clients that come about by planning and by changing the store, from the start on. -/
inductive Reachable : Client World → Prop where
  | ofConfig (config : Config) (registry : Registry World) : Reachable (ofConfig config registry)
  | plan {client : Client World} (h : Reachable client) (text : String)
      (operationName : Option String) : Reachable (client.plan text operationName).2
  | store {client : Client World} (h : Reachable client) (snapshot : Snapshot) :
      Reachable { client with store := { client.store with snapshot } }

theorem Reachable.planRequest {client : Client World} (h : client.Reachable) (request : Request) :
    (client.planRequest request).2.Reachable := by
  rw [Client.planRequest]
  split
  · exact h
  · next text _ =>
    have hplan := h.plan text request.operationName
    split
    · next heq =>
      rw [heq] at hplan
      exact hplan
    · next heq =>
      rw [heq] at hplan
      exact hplan

theorem Reachable.writeResponse {client : Client World} (h : client.Reachable) (request : Request)
    (data : Json) : (client.writeResponse request data).2.Reachable := by
  have hplan := h.planRequest request
  rw [Client.writeResponse]
  split
  · next heq =>
    rw [heq] at hplan
    exact hplan
  · next plan planned heq =>
    rw [heq] at hplan
    split
    · exact hplan
    · next store hstore =>
      have hchanged := hplan.store store.snapshot
      cases data with
      | object fields =>
        cases hstore
        exact hchanged
      | null => cases hstore
      | bool _ => cases hstore
      | number _ => cases hstore
      | string _ => cases hstore
      | array _ => cases hstore

theorem Reachable.answer {client : Client World} (h : client.Reachable) (request : Request)
    (root : QueryPlan → Root) (world : World) :
    ((client.answer request root).run world).1.2.Reachable := by
  have hplan := h.planRequest request
  rw [Client.answer]
  split
  · next heq =>
    rw [heq] at hplan
    exact hplan
  · next heq =>
    rw [heq] at hplan
    exact hplan

/-- The plans that a client keeps were built by the planner. -/
theorem Reachable.plans_sound (h : client.Reachable) : client.plans.Sound := by
  induction h with
  | ofConfig config registry =>
    exact ⟨Nat.lt_of_lt_of_le Nat.one_pos (Nat.le_max_right _ _), List.forall_mem_nil _⟩
  | @plan client _ text operationName ih =>
    cases hplan : client.plan text operationName with
    | mk result after =>
      cases result with
      | error error => exact plan_error hplan ▸ ih
      | ok built =>
        rcases plan_ok hplan with ⟨plans, hfound, rfl⟩ | ⟨hbuilt, rfl⟩
        · exact (ih.of_find? hfound).1
        · exact ih.add (planned_of_buildPlan hbuilt)
  | store _ _ ih => exact ih

/-- The plan of a request was built by the planner. -/
theorem Reachable.planned (h : client.Reachable) {request : Request} {plan : QueryPlan}
    (hplan : client.planRequest request = (.ok plan, after)) : plan.Planned := by
  obtain ⟨text, built, -, hquery, rfl⟩ := planRequest_ok hplan
  rcases plan_ok hquery with ⟨plans, hfound, -⟩ | ⟨hbuilt, -⟩
  · exact (h.plans_sound.of_find? hfound).2
  · exact planned_of_buildPlan hbuilt

/-- A request is planned the second time as it was the first time, whatever the store has become. -/
theorem Reachable.planRequest_again (h : client.Reachable) {request : Request} {plan : QueryPlan}
    (hplan : client.planRequest request = (.ok plan, after)) (store : Store) :
    ∃ later, { after with store }.planRequest request = (.ok plan, later) := by
  obtain ⟨text, built, htext, hquery, rfl⟩ := planRequest_ok hplan
  have hfound : ∃ plans, after.plans.find? (PlanKey.ofQuery text request.operationName)
      = some (built, plans) := by
    rcases plan_ok hquery with ⟨plans, hfound, rfl⟩ | ⟨-, rfl⟩
    · obtain ⟨-, rfl⟩ := PlanCache.find?_eq_some hfound
      exact PlanCache.find?_of_entries rfl
    · exact h.plans_sound.find?_add built
  obtain ⟨plans, hfound⟩ := hfound
  have hagain : { after with store }.plan text request.operationName
      = (.ok built, { { after with store } with plans }) := plan_of_found hfound
  exact ⟨_, planRequest_of_plan htext hagain⟩

/-! ### Writing, then asking -/

/-- What is in the store after the data of a response was written. -/
def snapshotAfter (client : Client World) (request : Request) (plan : QueryPlan) (data : Object) :
    Snapshot :=
  client.store.snapshot.assignAll
    (normalize ⟨client.store.policies, plan.variableValues request.variableValues⟩ plan data)

/-- Writing the data of a response changes what is in the store. -/
theorem writeResponse_of_planRequest {request : Request} {plan : QueryPlan}
    (hplan : client.planRequest request = (.ok plan, after)) (data : Object) :
    client.writeResponse request (.object data) = (.ok (), { after with store :=
      { client.store with snapshot := client.snapshotAfter request plan data } }) := by
  have hstore := planRequest_store hplan
  simp only [writeResponse, hplan, Store.ingest, hstore]
  rfl

/-- A request is answered by executing its plan. -/
theorem answer_of_planRequest {request : Request} {plan : QueryPlan}
    (hplan : client.planRequest request = (.ok plan, after)) (root : QueryPlan → Root)
    (world : World) :
    ((client.answer request root).run world).1.1
      = ((after.execute plan request (root plan)).run world).1 := by
  simp only [answer, hplan]
  rfl

/-- A client that writes the data of a response into its empty store answers the same request from
the store as from the data. The plan of the request must have no local field; the data must have
what is selected from it, must not look like a reference, and must be consistent; and no field may
be taken for a reference or, unless it is one, for a type. -/
theorem query_eq_executeOnValue (client : Client World) (h : client.Reachable)
    (hempty : client.store.snapshot = []) (request : Request) (data : Object) (plan : QueryPlan)
    (hplan : (client.planRequest request).1 = .ok plan)
    (hlocal : plan.hasLocalField = false)
    (hcovers : FieldPlan.listCovers (plan.variableValues request.variableValues)
      plan.selection.fields data)
    (hfree : Json.FreeOfFields Json.referenceField data)
    (hnames : ∀ fieldPlan, plan.Has fieldPlan → fieldPlan.field.name ≠ Json.referenceField ∧
      (fieldPlan.field.responseKey = typenameField ↔ fieldPlan.field.name = typenameField))
    (hconsistent : Normalizer.Consistent
      ⟨client.store.policies, plan.variableValues request.variableValues⟩ plan data)
    (world world' : World) :
    (client.writeResponse request (.object data)).1 = .ok () ∧ ∃ response,
      (((client.writeResponse request (.object data)).2.query request).run world).1.1
          = .ok response ∧
        (((client.writeResponse request (.object data)).2.executeOnValue request
            (.object data)).run world').1.1 = .ok response := by
  obtain ⟨after, hafter⟩ : ∃ after, client.planRequest request = (.ok plan, after) :=
    ⟨_, Prod.ext hplan rfl⟩
  have hplanned := h.planned hafter
  obtain ⟨root, hroot, htypename, hstored⟩ :=
    Normalizer.normalize_storedAs (fun _ hhas ↦ hplanned.storable hlocal hnames _ hhas) hcovers
      hconsistent
  have hsnapshot : client.snapshotAfter request plan data = Snapshot.assignAll [] (normalize
      ⟨client.store.policies, plan.variableValues request.variableValues⟩ plan data) := by
    rw [snapshotAfter, hempty]
  rw [← hsnapshot] at hroot hstored
  rw [writeResponse_of_planRequest hafter]
  obtain ⟨later, hlater⟩ := h.planRequest_again hafter
    { client.store with snapshot := client.snapshotAfter request plan data }
  have hstore := planRequest_store hlater
  rw [query, executeOnValue, answer_of_planRequest hlater, answer_of_planRequest hlater]
  have hexecute : ∀ root, later.execute plan request root = Executor.execute
      { plan
        registry := later.registry
        store := client.snapshotAfter request plan data
        variableValues := request.variableValues
        missingEntities := later.config.missingEntities } root := by
    intro root
    rw [execute, hstore]
  rw [hexecute, hexecute]
  exact ⟨rfl, Executor.execute_eq_of_storedAs hplanned hlocal hroot htypename hstored hfree world
    world'⟩

section Sample

/-- A query for the authors of posts. -/
def authorsRequest : Request where
  query := some "{ posts { by: author { __typename id name } } }"

/-- The plan of the query. -/
def authorsPlan : QueryPlan where
  kind := .query
  operationName := none
  rootType := "Query"
  variableDefaults := []
  selection := ⟨0,
    [.nested ⟨"posts", "posts", false, [], some [], some "posts", some "Query", [], []⟩ 1
      [.nested ⟨"author", "by", false, [], some [], some "author", none, [], []⟩ 2
        [.leaf ⟨"__typename", "__typename", false, [], some [], some "__typename", none, [], []⟩,
          .leaf ⟨"id", "id", false, [], some [], some "id", none, [], []⟩,
          .leaf ⟨"name", "name", false, [], some [], some "name", none, [], []⟩]]]⟩

/-- Two posts by one author. -/
def authorsData : Object :=
  let author : Json := .object
    [("name", .string "Ada"), (typenameField, .string "Author"), ("id", .string "1")]
  [("posts", .array [.object [("by", author)], .object [("by", author)]])]

theorem authorsPlan_names {fieldPlan : FieldPlan} (h : authorsPlan.Has fieldPlan) :
    fieldPlan.field.name ≠ Json.referenceField ∧
      (fieldPlan.field.responseKey = typenameField ↔ fieldPlan.field.name = typenameField) := by
  have hall : ∀ selection ∈ authorsPlan.selection.selections, ∀ fieldPlan ∈ selection.fields,
      fieldPlan.field.name ≠ Json.referenceField ∧
        (fieldPlan.field.responseKey = typenameField
          ↔ fieldPlan.field.name = typenameField) := by
    decide
  obtain ⟨selection, hselection, hmem⟩ := h
  exact hall selection hselection fieldPlan hmem

theorem authorsData_consistent : Normalizer.Consistent
    ⟨[], authorsPlan.variableValues authorsRequest.variableValues⟩ authorsPlan authorsData := by
  constructor
  · cbv
    simp [Dict.get?]
  · cbv
    simp [Dict.get?]

theorem query_authorsRequest :
    ((ofConfig {} [] : Client Nat).writeResponse authorsRequest (.object authorsData)).1 = .ok () ∧
      ∃ response,
        ((((ofConfig {} []).writeResponse authorsRequest (.object authorsData)).2.query
            authorsRequest).run 0).1.1 = .ok response ∧
          ((((ofConfig {} []).writeResponse authorsRequest (.object authorsData)).2.executeOnValue
              authorsRequest (.object authorsData)).run 1).1.1 = .ok response := by
  have hplan : ((ofConfig {} [] : Client Nat).planRequest authorsRequest).1 = .ok authorsPlan := by
    cbv
  have hcovers : FieldPlan.listCovers (authorsPlan.variableValues authorsRequest.variableValues)
      authorsPlan.selection.fields authorsData := by
    simp [authorsPlan, authorsData, FieldPlan.listCovers, FieldPlan.Covers, Json.EveryObject,
      Json.EveryObjectIn, Dict.get?, typenameField]
  have hfree : Json.FreeOfFields Json.referenceField authorsData := by
    simp [authorsData, Json.FreeOfFields, Json.FreeOf, Json.FreeOfItems, Json.referenceField,
      typenameField]
  exact query_eq_executeOnValue _ (.ofConfig {} []) rfl authorsRequest authorsData authorsPlan hplan
    rfl hcovers hfree (fun _ ↦ authorsPlan_names) authorsData_consistent 0 1

end Sample

end Client

end GraphCache
