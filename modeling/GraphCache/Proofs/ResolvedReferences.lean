import GraphCache.Proofs.LinkedReads

/-!
# Stores without dangling references

A store that is filled only by responses refers only to its own records, and reading from it finds
all entities. This is so as long as nothing in the responses is taken for a reference: values are
kept as the server sent them, and one that looks like a reference is one from then on.

## Main results

* `Store.references_resolve`: all references in the records resolve, and no entity is missing.
* `Store.references_dangle`: a response with a value that is taken for a reference.
-/

namespace GraphCache

/-- The data of every response have a property if this says nothing about them. -/
theorem QueryPlan.delivers_true (plan : QueryPlan) (vars : Object) (shown : String → Prop) :
    plan.Delivers vars shown fun _ => True :=
  ⟨trivial, fun _ ↦ trivial, fun _ _ _ _ _ ↦ trivial, fun _ _ ↦ trivial, fun _ _ ↦ trivial⟩

namespace Store

/-- In a store that was empty before responses were written to it, every reference at any depth of a
record names a record, and a plan without local fields that is read from its root record finds all
entities. Nothing in the responses may be taken for a reference: neither a value of the data, nor a
record because of the name of a field. -/
theorem references_resolve (policies : TypePolicies) (responses : List ServerResponse)
    (hnothing : ∀ response ∈ responses, response.RefersToNothing) :
    let snapshot := (({ policies } : Store).ingestAll responses).snapshot
    (∀ key record, Dict.get? snapshot key = some record →
        ∀ (part : Json) target, part.PartOf (.object record) → part.reference? = some target →
          snapshot.HasKey target) ∧
      ∀ (World : Type) (executor : Executor World), executor.store = snapshot →
        executor.plan.hasLocalField = false → ∀ world,
          ∃ response, (executor.execute (.entity executor.plan.rootKey) world).1 = .ok response ∧
            ∀ error ∈ response.errors, error.code? ≠ some "MISSING_ENTITY" := by
  intro snapshot
  have hlinked : snapshot.Linked snapshot.HasKey fun _ ↦ False :=
    linked_ingestAll rfl hnothing fun response _ fields _ ↦
      Normalizer.listEmbedsPlainly_of_nothing response.plan.selection.fields fields
  constructor
  · intro key record hrecord part target hpart htarget
    exact ((hlinked.of_get? hrecord).everywhere part hpart).refers target htarget
  · intro World executor hstore hlocal world
    rw [← hstore] at hlinked
    obtain ⟨data, errors, hexecute, -, herrors⟩ := executor.execute_delivers hlocal
      (executor.plan.delivers_true _ _) hlinked world
    exact ⟨_, hexecute, herrors⟩

section Sample

/-- A remote field without arguments. -/
def bareField (name : String) (parentType : Option String := none) : PlannedField :=
  ⟨name, name, false, [], some [], some name, parentType, [], []⟩

/-- A plan that selects root fields of queries. -/
def queryPlan (fields : List FieldPlan) : QueryPlan where
  kind := .query
  operationName := none
  rootType := "Query"
  variableDefaults := []
  selection := ⟨0, fields⟩

/-- Asks for a post with its author. -/
def postPlan : QueryPlan :=
  queryPlan [.nested (bareField "post" (some "Query")) 1
    [.leaf (bareField "title"),
      .nested (bareField "author") 2 [.leaf (bareField "__typename"), .leaf (bareField "id")]]]

theorem postPlan_planned : postPlan.Planned :=
  .ofSelections (show planSelections
    [.nested { name := "post" } [.leaf { name := "title" },
      .nested { name := "author" } [.leaf { name := "__typename" }, .leaf { name := "id" }]]]
    [] "Query" = .ok postPlan by rfl)

/-- A post, which has no identity, and its author, who has one. -/
def postResponse : ServerResponse where
  plan := postPlan
  data := .object [("post", .object [("title", .string "T"),
    ("author", .object [(typenameField, .string "Author"), ("id", .string "1")])])]

theorem postPlan_names :
    ∀ fieldPlan, postPlan.Has fieldPlan → fieldPlan.field.name ≠ Json.referenceField :=
  QueryPlan.forall_has_iff.2 (by decide)

theorem postResponse_freeOf : postResponse.data.FreeOf Json.referenceField := by
  simp [postResponse, Json.FreeOf, Json.FreeOfFields, Json.referenceField, typenameField]

/-- Reads the post back from a store that has nothing else. -/
def postExecutor : Executor Nat where
  plan := postPlan
  registry := []
  store := (({} : Store).ingestAll [postResponse]).snapshot

theorem references_resolve_postResponse :
    (∀ response ∈ [postResponse], response.RefersToNothing) ∧
      (∀ key record, Dict.get? postExecutor.store key = some record →
        ∀ (part : Json) target, part.PartOf (.object record) → part.reference? = some target →
          postExecutor.store.HasKey target) ∧
      ∃ response, (postExecutor.execute (.entity postPlan.rootKey) 0).1 = .ok response ∧
        ∀ error ∈ response.errors, error.code? ≠ some "MISSING_ENTITY" := by
  have hnothing : ∀ response ∈ [postResponse], response.RefersToNothing :=
    List.forall_mem_singleton.2 ⟨postPlan_planned, fun _ hhas _ ↦ postPlan_names _ hhas,
      Json.holdsNoReference_of_freeOf postResponse_freeOf⟩
  obtain ⟨hresolve, hread⟩ := references_resolve [] [postResponse] hnothing
  exact ⟨hnothing, hresolve, hread Nat postExecutor rfl rfl 0⟩

/-- Asks for what is best, whatever it is. -/
def bestPlan : QueryPlan :=
  queryPlan [.leaf (bareField "best" (some "Query"))]

/-- What is best is an object that looks like a reference. -/
def bestResponse : ServerResponse where
  plan := bestPlan
  data := .object [("best", .object [("__ref", .string "Item:1")])]

/-- Asks for the item that is best. -/
def bestItemExecutor : Executor Nat where
  plan := queryPlan [.nested (bareField "best" (some "Query")) 1 [.leaf (bareField "id")]]
  registry := []
  store := (({} : Store).ingestAll [bestResponse]).snapshot

/-- A value of a response that looks like a reference is kept as it is. It is a reference from then
on, and need not lead to a record. -/
theorem references_dangle :
    bestPlan.Planned ∧ bestItemExecutor.plan.Planned ∧
      bestItemExecutor.plan.hasLocalField = false ∧
      (∃ record, Dict.get? bestItemExecutor.store bestPlan.rootKey = some record ∧
        ∃ part : Json, part.PartOf (.object record) ∧ part.reference? = some "Item:1") ∧
      ¬ bestItemExecutor.store.HasKey "Item:1" ∧
      ∃ response,
        (bestItemExecutor.execute (.entity bestItemExecutor.plan.rootKey) 0).1 = .ok response ∧
          ∃ error ∈ response.errors, error.code? = some "MISSING_ENTITY" := by
  have hbest : bestPlan.Planned := .ofSelections
    (show planSelections [.leaf { name := "best" }] [] "Query" = .ok bestPlan by rfl)
  have hitem : bestItemExecutor.plan.Planned := .ofSelections
    (show planSelections [.nested { name := "best" } [.leaf { name := "id" }]] [] "Query"
      = .ok bestItemExecutor.plan by rfl)
  have hstore : bestItemExecutor.store
      = [("ROOT_QUERY", [("best", .object [("__ref", .string "Item:1")])])] := by
    rfl
  let fault : Fault := ⟨⟨[.key "best"], [0]⟩, .missingEntity "Item:1"⟩
  have hstart : bestItemExecutor.start (.entity bestItemExecutor.plan.rootKey) { world := 0 } =
      (.ok (.object [("best", .null)], { faults := [fault] }), { world := 0 }) := by
    rfl
  refine ⟨hbest, hitem, rfl, ⟨_, by rw [hstore]; rfl, _,
    .field List.mem_cons_self (.refl _), rfl⟩, ?_, ?_⟩
  · rw [hstore]
    decide
  · rw [Executor.execute_of_start (Registry.validate_of_remote _ rfl) hstart rfl]
    exact ⟨_, rfl, fault.toGraphQLError, by simp [Executor.respond, Fault.inOrder],
      FieldError.code?_toGraphQLError _ _⟩

end Sample

end Store

end GraphCache
