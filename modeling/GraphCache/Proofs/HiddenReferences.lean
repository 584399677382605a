import GraphCache.Proofs.ResolvedReferences

/-!
# References in responses

References belong to the cache and have no place in a response. A leaf whose value is a reference,
or a list with one in it, is refused. But a query may read as a leaf what another one has written
with nested selections, and if an object was embedded there, then the references inside it are not
seen. Apart from this no reference gets into a response.

## Main definitions

* `QueryPlan.ReadsAsLeaf`: the names under which a plan looks for leaves.

## Main results

* `Executor.data_holds_no_reference`: no reference is in a response, if no object with an entity
  inside was embedded where the plan looks for a leaf.
* `Executor.data_holds_reference`: a reference in a response.
-/

namespace GraphCache

/-- The plan has a field without nested selections that is stored under the name. -/
def QueryPlan.ReadsAsLeaf (plan : QueryPlan) (vars : Object) (name : String) : Prop :=
  ∃ field, plan.Has (.leaf field) ∧ field.storageNameFor vars = name

/-- That no reference is found passes from the leaves of a plan to all data, if leaves refer openly
and no response key makes an object a reference. -/
theorem QueryPlan.delivers_holdsNoReference {plan : QueryPlan} (vars : Object)
    (hkeys : ∀ fieldPlan, plan.Has fieldPlan → fieldPlan.field.responseKey ≠ Json.referenceField) :
    plan.Delivers vars (plan.ReadsAsLeaf vars) Json.HoldsNoReference where
  null := Json.everywhere_of_scalar nofun nofun rfl
  string _ := Json.everywhere_of_scalar nofun nofun rfl
  leaf field hhas _ hopenly hcontains := hopenly ⟨field, hhas, rfl⟩ hcontains
  array _ hitems := Json.everywhere_array_iff.2 ⟨rfl, hitems⟩
  object object hentries := by
    refine Json.everywhere_object_iff.2 ⟨?_, fun entry hentry ↦ (hentries entry hentry).1⟩
    cases hreference : (Json.object object).reference? with
    | none => rfl
    | some key =>
      have hobject : object = [(Json.referenceField, .string key)] :=
        Json.object.inj (Json.reference?_eq_some_iff.1 hreference)
      obtain ⟨-, fieldPlan, hhas, hkey⟩ := hentries (Json.referenceField, .string key)
        (by simp [hobject])
      exact absurd hkey (hkeys fieldPlan hhas)

namespace Executor

variable {World : Type}

/-- A plan without local fields that is read from its root record, in a store that was empty before
responses were written to it, gets a response without references. No data and no plan may use the
field of references; and wherever the plan looks for a leaf, no object may have been embedded with
an entity inside. -/
theorem data_holds_no_reference (executor : Executor World) (policies : TypePolicies)
    (responses : List ServerResponse)
    (hstore : executor.store = (({ policies } : Store).ingestAll responses).snapshot)
    (hplanned : ∀ response ∈ responses, response.plan.Planned)
    (hfree : ∀ response ∈ responses, response.data.FreeOf Json.referenceField)
    (hnames : ∀ response ∈ responses, ∀ fieldPlan, response.plan.Has fieldPlan →
      fieldPlan.field.name ≠ Json.referenceField)
    (hlocal : executor.plan.hasLocalField = false)
    (hkeys : ∀ fieldPlan, executor.plan.Has fieldPlan →
      fieldPlan.field.responseKey ≠ Json.referenceField)
    (hplain : ∀ response ∈ responses, response.EmbedsPlainly policies
      (executor.plan.ReadsAsLeaf (executor.plan.variableValues executor.variableValues)))
    (world : World) :
    ∃ data errors, (executor.execute (.entity executor.plan.rootKey) world).1
        = .ok ⟨some data, errors⟩ ∧ data.HoldsNoReference := by
  have hnothing : ∀ response ∈ responses, response.RefersToNothing := fun response hmem ↦
    ⟨hplanned response hmem, fun fieldPlan hhas _ ↦ hnames response hmem fieldPlan hhas,
      Json.holdsNoReference_of_freeOf (hfree response hmem)⟩
  have hlinked := Store.linked_ingestAll hstore.symm hnothing hplain
  obtain ⟨data, errors, hexecute, hdata, -⟩ := executor.execute_delivers hlocal
    (QueryPlan.delivers_holdsNoReference _ hkeys) hlinked world
  exact ⟨data, errors, hexecute, hdata⟩

section Sample

open Store

/-- Asks for a post and for its author, as if the author was a leaf. -/
def flatPostExecutor : Executor Nat where
  plan := queryPlan [.nested (bareField "post" (some "Query")) 1
    [.leaf (bareField "title"), .leaf (bareField "author")]]
  registry := []
  store := (({} : Store).ingestAll [postResponse]).snapshot

/-- The post is embedded with its author inside, but nobody reads it as a leaf. -/
theorem postResponse_embedsPlainly :
    postResponse.EmbedsPlainly [] (flatPostExecutor.plan.ReadsAsLeaf
      (flatPostExecutor.plan.variableValues flatPostExecutor.variableValues)) := by
  have hpost : ¬ flatPostExecutor.plan.ReadsAsLeaf
      (flatPostExecutor.plan.variableValues flatPostExecutor.variableValues) "post" := by
    rintro ⟨field, ⟨selection, hselection, hfield⟩, hname⟩
    simp only [flatPostExecutor, queryPlan, SelectionPlan.selections, FieldPlan.listSelections,
      FieldPlan.selections, List.append_nil, List.mem_cons, List.not_mem_nil, or_false]
      at hselection
    rcases hselection with rfl | rfl
    · simp at hfield
    · simp only [List.mem_cons, FieldPlan.leaf.injEq, List.not_mem_nil, or_false] at hfield
      rcases hfield with rfl | rfl <;> exact absurd hname (by decide)
  intro fields hfields
  cases hfields
  refine ⟨fun value hvalue ↦ ?_, trivial⟩
  cases hvalue
  refine ⟨fun hshown ↦ absurd hshown hpost, trivial, fun value hvalue ↦ ?_, trivial⟩
  cases hvalue
  exact ⟨fun _ hidentity ↦ absurd hidentity (by decide), trivial, trivial, trivial⟩

theorem flatPostExecutor_data_holds_no_reference :
    postResponse.data.FreeOf Json.referenceField ∧
      flatPostExecutor.plan.hasLocalField = false ∧
      ∃ data errors, (flatPostExecutor.execute (.entity flatPostExecutor.plan.rootKey) 0).1
        = .ok ⟨some data, errors⟩ ∧ data.HoldsNoReference := by
  have hkeys : ∀ fieldPlan, flatPostExecutor.plan.Has fieldPlan →
      fieldPlan.field.responseKey ≠ Json.referenceField :=
    QueryPlan.forall_has_iff.2 (by decide)
  exact ⟨postResponse_freeOf, rfl, data_holds_no_reference flatPostExecutor [] [postResponse] rfl
    (List.forall_mem_singleton.2 postPlan_planned)
    (List.forall_mem_singleton.2 postResponse_freeOf)
    (List.forall_mem_singleton.2 postPlan_names) rfl hkeys
    (List.forall_mem_singleton.2 postResponse_embedsPlainly) 0⟩

/-- Asks for a post as if it was a leaf. -/
def barePostExecutor : Executor Nat where
  plan := queryPlan [.leaf (bareField "post" (some "Query"))]
  registry := []
  store := (({} : Store).ingestAll [postResponse]).snapshot

/-- The reference to the author of a post gets into a response where the post, which is embedded, is
read as a leaf. -/
theorem data_holds_reference :
    postResponse.plan.Planned ∧ barePostExecutor.plan.Planned ∧
      postResponse.data.FreeOf Json.referenceField ∧
      barePostExecutor.plan.hasLocalField = false ∧
      (∀ fieldPlan, postResponse.plan.Has fieldPlan ∨ barePostExecutor.plan.Has fieldPlan →
        fieldPlan.field.name ≠ Json.referenceField ∧
          fieldPlan.field.responseKey ≠ Json.referenceField) ∧
      ∃ data errors, (barePostExecutor.execute (.entity barePostExecutor.plan.rootKey) 0).1
          = .ok ⟨some data, errors⟩ ∧
        ∃ part : Json, part.PartOf data ∧ part.reference? = some "Author:1" := by
  have hplan : barePostExecutor.plan.Planned := .ofSelections
    (show planSelections [.leaf { name := "post" }] [] "Query" = .ok barePostExecutor.plan by rfl)
  have hwriting : ∀ fieldPlan, postResponse.plan.Has fieldPlan →
      fieldPlan.field.name ≠ Json.referenceField ∧
        fieldPlan.field.responseKey ≠ Json.referenceField :=
    QueryPlan.forall_has_iff.2 (by decide)
  have hreading : ∀ fieldPlan, barePostExecutor.plan.Has fieldPlan →
      fieldPlan.field.name ≠ Json.referenceField ∧
        fieldPlan.field.responseKey ≠ Json.referenceField :=
    QueryPlan.forall_has_iff.2 (by decide)
  let post : Object := [("title", .string "T"), ("author", .reference "Author:1")]
  have hstart : barePostExecutor.start (.entity barePostExecutor.plan.rootKey) { world := 0 } =
      (.ok (.object [("post", .object post)], .none), { world := 0 }) := by
    rfl
  exact ⟨postPlan_planned, hplan, postResponse_freeOf, rfl,
    fun fieldPlan hhas ↦ hhas.elim (hwriting fieldPlan) (hreading fieldPlan), _, _,
    execute_of_start (Registry.validate_of_remote _ rfl) hstart rfl, _,
    .field List.mem_cons_self (.field (List.mem_cons_of_mem _ List.mem_cons_self) (.refl _)),
    Json.reference?_reference _⟩

end Sample

end Executor

end GraphCache
