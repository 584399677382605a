import GraphCache.Proofs.SharedNames
import GraphCache.Proofs.WriteThenQuery

/-!
# Fields that are missing after a response was written

A client that wrote a response and is asked for it again misses no field of it, if whatever the
response sets again supplies what it had set before. This is so when a field that holds an entity is
selected under several response keys, whatever is selected below each of them. It need not be so
when the field holds an embedded object, of which the last response key selects less.

## Main results

* `Client.query_misses_no_field`: no field is missing if the response is concordant.
* `Client.query_misses_field`: a response from which a field is missing.
-/

namespace GraphCache

namespace Client

variable {World : Type}

/-- A client that wrote the data of a response into its empty store answers the same request by
executing its plan on what the write pass leaves. -/
theorem query_after_writeResponse {client : Client World} (h : client.Reachable)
    (hempty : client.store.snapshot = []) {request : Request} {plan : QueryPlan}
    (hplan : (client.planRequest request).1 = .ok plan) (data : Object) :
    (client.writeResponse request (.object data)).1 = .ok () ∧ ∃ executor : Executor World,
      executor.plan = plan ∧ executor.variableValues = request.variableValues ∧
        executor.store = Snapshot.assignAll [] (normalize
          ⟨client.store.policies, plan.variableValues request.variableValues⟩ plan data) ∧
        ∀ world,
          (((client.writeResponse request (.object data)).2.query request).run world).1.1 =
            (executor.execute (.entity plan.rootKey) world).1 := by
  obtain ⟨after, hafter⟩ : ∃ after, client.planRequest request = (.ok plan, after) :=
    ⟨_, Prod.ext hplan rfl⟩
  obtain ⟨later, hlater⟩ := h.planRequest_again hafter
    { client.store with snapshot := client.snapshotAfter request plan data }
  have hstore := planRequest_store hlater
  rw [writeResponse_of_planRequest hafter]
  refine ⟨rfl, { plan
                 registry := later.registry
                 store := later.store.snapshot
                 variableValues := request.variableValues
                 missingEntities := later.config.missingEntities }, rfl, rfl, ?_, fun world ↦ ?_⟩
  · rw [hstore, snapshotAfter, hempty]
  · rw [query, answer_of_planRequest hlater]
    rfl

/-- A client that writes the data of a response into its empty store answers the same request
without missing a field. The plan of the request must have no local field, the data must have what
is selected from it, and whatever is written again must supply what was written before; and no field
may be taken for a reference, or select the type under another response key. -/
theorem query_misses_no_field (client : Client World) (h : client.Reachable)
    (hempty : client.store.snapshot = []) (request : Request) (data : Object) (plan : QueryPlan)
    (hplan : (client.planRequest request).1 = .ok plan)
    (hlocal : plan.hasLocalField = false)
    (hcovers : FieldPlan.listCovers (plan.variableValues request.variableValues)
      plan.selection.fields data)
    (hnames : ∀ fieldPlan, plan.Has fieldPlan → fieldPlan.field.name ≠ Json.referenceField ∧
      (fieldPlan.field.name = typenameField → fieldPlan.field.responseKey = typenameField))
    (hconcordant : Normalizer.ConcordantResponse
      ⟨client.store.policies, plan.variableValues request.variableValues⟩ plan data)
    (world : World) :
    (client.writeResponse request (.object data)).1 = .ok () ∧ ∃ response,
      (((client.writeResponse request (.object data)).2.query request).run world).1.1
          = .ok response ∧
        ∀ error ∈ response.errors, error.code? ≠ some "MISSING_FIELD" := by
  have hplanned := h.planned (Prod.ext hplan rfl)
  obtain ⟨root, hroot, hserves⟩ := Normalizer.normalize_serves
    (fun fieldPlan hhas ↦ hplanned.storable_of_names hlocal _ hhas (hnames fieldPlan hhas).1
      (hnames fieldPlan hhas).2) hcovers hconcordant
  obtain ⟨hwritten, executor, rfl, hvariables, hstore, hquery⟩ :=
    query_after_writeResponse h hempty hplan data
  rw [hquery]
  rw [← hstore] at hroot hserves
  rw [← hvariables] at hserves
  exact ⟨hwritten, Executor.execute_settled hlocal hroot hserves world⟩

section Sample

/-- A query that selects two fields twice, with other nested selections. -/
def viewerRequest : Request where
  query := some
    "{ me { __typename id name } b: me { __typename id email } home { city } d: home { city zip } }"

/-- The plan of the query. -/
def viewerPlan : QueryPlan where
  kind := .query
  operationName := none
  rootType := "Query"
  variableDefaults := []
  selection := ⟨0,
    [.nested ⟨"me", "me", false, [], some [], some "me", some "Query", [], []⟩ 1
        [.leaf ⟨"__typename", "__typename", false, [], some [], some "__typename", none, [], []⟩,
          .leaf ⟨"id", "id", false, [], some [], some "id", none, [], []⟩,
          .leaf ⟨"name", "name", false, [], some [], some "name", none, [], []⟩],
      .nested ⟨"me", "b", false, [], some [], some "me", some "Query", [], []⟩ 2
        [.leaf ⟨"__typename", "__typename", false, [], some [], some "__typename", none, [], []⟩,
          .leaf ⟨"id", "id", false, [], some [], some "id", none, [], []⟩,
          .leaf ⟨"email", "email", false, [], some [], some "email", none, [], []⟩],
      .nested ⟨"home", "home", false, [], some [], some "home", some "Query", [], []⟩ 3
        [.leaf ⟨"city", "city", false, [], some [], some "city", none, [], []⟩],
      .nested ⟨"home", "d", false, [], some [], some "home", some "Query", [], []⟩ 4
        [.leaf ⟨"city", "city", false, [], some [], some "city", none, [], []⟩,
          .leaf ⟨"zip", "zip", false, [], some [], some "zip", none, [], []⟩]]⟩

/-- A user and a home, which has no identity, each under both response keys. -/
def viewerData : Object :=
  let viewer : Json := .object [(typenameField, .string "User"), ("id", .string "1"),
    ("name", .string "Ada"), ("email", .string "ada@example.org")]
  let home : Json := .object [("city", .string "London"), ("zip", .string "W1")]
  [("me", viewer), ("b", viewer), ("home", home), ("d", home)]

/-- The home as it is written for the second time has all that was written for the first time. -/
theorem supplies_home : Supplies [("city", .string "London"), ("zip", .string "W1")]
    [("city", .string "London")] := by
  refine .of_extends (fun name value hvalue ↦ ?_) rfl rfl rfl
  simp only [Dict.get?_cons, Dict.get?_nil] at hvalue ⊢
  grind

/-- The user is written twice, each time with the same identity, and the home with all that it had
before. -/
theorem viewerData_concordant : Normalizer.ConcordantResponse
    ⟨[], viewerPlan.variableValues viewerRequest.variableValues⟩ viewerPlan viewerData := by
  constructor
  · simp only [Normalizer.Concordant, viewerPlan, List.pairwise_cons, List.forall_mem_cons]
    -- Of the four fields only the two users and the two homes share a name.
    refine ⟨⟨?_, ?_, ?_, nofun⟩, ⟨?_, ?_, nofun⟩, ⟨?_, nofun⟩, nofun, .nil⟩
    case refine_1 =>
      intro value other hvalue hother _
      cases hvalue
      cases hother
      exact .refl _
    case refine_6 =>
      intro value other hvalue hother _
      cases hvalue
      cases hother
      exact fun object hobject ↦
        ⟨_, List.mem_cons_self, List.mem_singleton.1 hobject ▸ supplies_home⟩
    all_goals exact fun _ _ _ _ hname ↦ absurd hname (by decide)
  · simp only [Normalizer.listConcordantBelow, Normalizer.ConcordantBelow, viewerPlan]
    refine ⟨fun value hvalue ↦ ?_, fun value hvalue ↦ ?_, fun value hvalue ↦ ?_,
      fun value hvalue ↦ ?_, trivial⟩ <;>
    · cases hvalue
      exact ⟨Normalizer.concordant_of_nodup (by decide) _, by simp⟩
  · have hnormalize : normalize ⟨[], viewerPlan.variableValues viewerRequest.variableValues⟩
        viewerPlan viewerData =
          [("User:1", [(typenameField, .string "User"), ("id", .string "1"),
              ("name", .string "Ada")]),
            ("User:1", [(typenameField, .string "User"), ("id", .string "1"),
              ("email", .string "ada@example.org")]),
            ("ROOT_QUERY", [("me", .reference "User:1"),
              ("home", .object [("city", .string "London"), ("zip", .string "W1")])])] := by
      cbv
    rw [hnormalize]
    -- No value of the user that is assigned holds an object.
    have huser : Assignment.Agrees
        ("User:1", [(typenameField, .string "User"), ("id", .string "1"), ("name", .string "Ada")])
        ("User:1", [(typenameField, .string "User"), ("id", .string "1"),
          ("email", .string "ada@example.org")]) := by
      refine fun _ ↦ ⟨by decide, fun name value other _ hother ↦ .of_objects_eq_nil ?_ value⟩
      simp only [Dict.get?_cons, Dict.get?_nil] at hother
      grind [Json.objects]
    have hroot : ∀ user root : Object, Assignment.Agrees ("User:1", user) ("ROOT_QUERY", root) :=
      fun _ _ hkey ↦ absurd hkey (by simp)
    simp only [Assignment.Concordant, List.pairwise_cons, List.forall_mem_cons, List.not_mem_nil,
      false_implies, implies_true, and_true, List.Pairwise.nil]
    exact ⟨⟨huser, hroot _ _⟩, hroot _ _⟩

theorem query_misses_no_field_viewerRequest :
    ((ofConfig {} [] : Client Nat).writeResponse viewerRequest (.object viewerData)).1 = .ok () ∧
      ∃ response,
        ((((ofConfig {} []).writeResponse viewerRequest (.object viewerData)).2.query
            viewerRequest).run 0).1.1 = .ok response ∧
          ∀ error ∈ response.errors, error.code? ≠ some "MISSING_FIELD" := by
  have hplan : ((ofConfig {} [] : Client Nat).planRequest viewerRequest).1 = .ok viewerPlan := by
    cbv
  have hcovers : FieldPlan.listCovers (viewerPlan.variableValues viewerRequest.variableValues)
      viewerPlan.selection.fields viewerData := by
    simp [viewerPlan, viewerData, FieldPlan.listCovers, FieldPlan.Covers, Json.EveryObject,
      Dict.get?, typenameField]
  have hnames : ∀ fieldPlan, viewerPlan.Has fieldPlan →
      fieldPlan.field.name ≠ Json.referenceField ∧
        (fieldPlan.field.name = typenameField → fieldPlan.field.responseKey = typenameField) := by
    have hall : ∀ selection ∈ viewerPlan.selection.selections, ∀ fieldPlan ∈ selection.fields,
        fieldPlan.field.name ≠ Json.referenceField ∧
          (fieldPlan.field.name = typenameField →
            fieldPlan.field.responseKey = typenameField) := by
      decide
    rintro fieldPlan ⟨selection, hselection, hmem⟩
    exact hall selection hselection fieldPlan hmem
  exact query_misses_no_field _ (.ofConfig {} []) rfl viewerRequest viewerData viewerPlan hplan rfl
    hcovers hnames viewerData_concordant 0

/-- A query that selects one field twice, with other nested selections. -/
def cornersRequest : Request where
  query := some "{ a: corner { x } b: corner { y } }"

/-- The plan of the query. -/
def cornersPlan : QueryPlan where
  kind := .query
  operationName := none
  rootType := "Query"
  variableDefaults := []
  selection := ⟨0,
    [.nested ⟨"corner", "a", false, [], some [], some "corner", some "Query", [], []⟩ 1
        [.leaf ⟨"x", "x", false, [], some [], some "x", none, [], []⟩],
      .nested ⟨"corner", "b", false, [], some [], some "corner", some "Query", [], []⟩ 2
        [.leaf ⟨"y", "y", false, [], some [], some "y", none, [], []⟩]]⟩

/-- One coordinate of a corner. -/
def cornerX : String × Json :=
  ("x", .number (.integer 1 (by decide) (by decide)))

/-- The other coordinate of it. -/
def cornerY : String × Json :=
  ("y", .number (.integer 2 (by decide) (by decide)))

/-- A corner, which has no identity, under both response keys. -/
def cornersData : Object :=
  [("a", .object [cornerX, cornerY]), ("b", .object [cornerX, cornerY])]

/-- What the write pass leaves: of the two objects under one name the second one. -/
def cornersStore : Snapshot :=
  [("ROOT_QUERY", [("corner", .object [cornerY])])]

theorem assignAll_cornersData :
    Snapshot.assignAll [] (normalize ⟨[], cornersPlan.variableValues cornersRequest.variableValues⟩
      cornersPlan cornersData) = cornersStore := by
  cbv

/-- A field may be missing from a response that was written just as it had been asked for, and in
which no object has an identity. -/
theorem query_misses_field :
    cornersPlan.hasLocalField = false ∧
      (∀ entry ∈ cornersData, entry.2.EveryObject fun corner ↦ identify? [] corner = none) ∧
      FieldPlan.listCovers (cornersPlan.variableValues cornersRequest.variableValues)
        cornersPlan.selection.fields cornersData ∧
      ((ofConfig {} [] : Client Nat).planRequest cornersRequest).1 = .ok cornersPlan ∧
      ((ofConfig {} [] : Client Nat).writeResponse cornersRequest (.object cornersData)).1
        = .ok () ∧
      ∃ response,
        ((((ofConfig {} [] : Client Nat).writeResponse cornersRequest (.object cornersData)).2.query
            cornersRequest).run 0).1.1 = .ok response ∧
          ∃ error ∈ response.errors, error.code? = some "MISSING_FIELD" := by
  have hplan : ((ofConfig {} [] : Client Nat).planRequest cornersRequest).1 = .ok cornersPlan := by
    cbv
  have hcovers : FieldPlan.listCovers (cornersPlan.variableValues cornersRequest.variableValues)
      cornersPlan.selection.fields cornersData := by
    simp [cornersPlan, cornersData, cornerX, cornerY, FieldPlan.listCovers, FieldPlan.Covers,
      Json.EveryObject, Dict.get?]
  obtain ⟨hwritten, ⟨plan, registry, store, variableValues, missingEntities⟩, rfl, rfl, hstore,
    hquery⟩ := query_after_writeResponse (.ofConfig {} []) rfl hplan cornersData
  obtain rfl : store = cornersStore := hstore.trans assignAll_cornersData
  let fault : Fault := ⟨⟨[.key "a", .key "x"], [0, 0]⟩, .missingField "x"⟩
  have hstart : Executor.start ⟨cornersPlan, registry, cornersStore, cornersRequest.variableValues,
      missingEntities⟩ (.entity cornersPlan.rootKey) { world := 0 } =
        (.ok (.object [("a", .object [("x", .null)]), ("b", .object [cornerY])],
          { faults := [fault] }), { world := 0 }) := rfl
  have hidentity : ∀ entry ∈ cornersData,
      entry.2.EveryObject fun corner ↦ identify? [] corner = none := by
    simp only [cornersData, List.forall_mem_cons]
    exact ⟨rfl, rfl, List.forall_mem_nil _⟩
  refine ⟨rfl, hidentity, hcovers, hplan, hwritten, ?_⟩
  rw [hquery, Executor.execute_of_start (registry.validate_of_remote rfl) hstart rfl]
  exact ⟨_, rfl, fault.toGraphQLError, by simp [Executor.respond, Fault.inOrder],
    FieldError.code?_toGraphQLError _ _⟩

end Sample

end Client

end GraphCache
