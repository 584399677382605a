import GraphCache.Proofs.Flattening
import GraphCache.Proofs.Histories
import GraphCache.Proofs.ServedRecords

/-!
# Local fields that are served

Before a plan is executed it is checked that its local fields can be served: on the type that the
query tells for the object, if it tells one. An execution looks resolvers up on the type that the
object itself tells, if it does. Both are the same for a field inside typed fragments, since it is
selected only on objects whose type is that of all of these fragments, and for a field of the root
on an object that does not tell its type. Only elsewhere a local field may find no resolver.

## Main definitions

* `Innermost`: the type that the query tells for an object, given the fragments around a field.
* `Registry.Serves`: a field that passes the check.
* `Evaluation.Untyped`: an evaluation for which the check does not tell the type.

## Main results

* `Planner.planSelection_innermost`, `QueryPlan.Planned.innermost`: what planned fields know about
  types.
* `Registry.serves_of_validate`: the check covers all fields of a plan.
* `Evaluation.Follows.untyped_of_fails`: where no resolver is found.
* `Executor.unresolved_only_untyped`: what is reported of it.
-/

namespace GraphCache

variable {World : Type}

/-! ### Types that the query tells -/

/-- The types to which the enclosing fragments apply, and the type that the query tells for the
object: it is that of one of these fragments, or the outer one where there is none. -/
structure Innermost (outer : Option String) (typeConditions : List String)
    (parentType : Option String) : Prop where
  /-- Without fragments nothing is added to what is known. -/
  untyped : typeConditions = [] → parentType = outer
  /-- With fragments the type is one of theirs. -/
  typed : typeConditions ≠ [] → ∃ type ∈ typeConditions, parentType = some type

/-- The type of the object is known from the fragments of the scope. -/
def Scope.Innermost (outer : Option String) (scope : Scope) : Prop :=
  GraphCache.Innermost outer scope.typeConditions scope.parentType

/-- The type of the object is known from the fragments around the field. -/
def PlannedField.Innermost (outer : Option String) (field : PlannedField) : Prop :=
  GraphCache.Innermost outer field.typeConditions field.parentType

namespace Scope.Innermost

variable {outer : Option String} {scope : Scope}

theorem enter (h : scope.Innermost outer) (typeCondition : Option String)
    (conditions : IncludeSkip) : (scope.enter typeCondition conditions).Innermost outer := by
  cases typeCondition with
  | none => exact h
  | some type =>
    have hmem : type ∈ (scope.enter (some type) conditions).typeConditions := by
      simp only [Scope.enter]
      split
      · next hmem => exact hmem
      · exact List.mem_append_right _ List.mem_cons_self
    exact ⟨fun hnil ↦ absurd hmem (by simp [hnil]), fun _ ↦ ⟨type, hmem, rfl⟩⟩

/-- Entering any fragments keeps what is known. -/
theorem within (h : scope.Innermost outer) (around : List Enclosure) :
    (scope.within around).Innermost outer := by
  induction around generalizing scope with
  | nil => exact h
  | cons enclosure around ih =>
    exact ih (show (scope.enclose enclosure).Innermost outer from h.enter _ _)

end Scope.Innermost

/-- A field that merges with an earlier one takes the place of the earlier one. -/
theorem CollectedField.forall_scope_addTo {p : Scope → Prop} {collected : CollectedField}
    (h : p collected.scope) {found : List CollectedField}
    (hfound : ∀ other ∈ found, p other.scope) :
    ∀ other ∈ collected.addTo found, p other.scope := by
  induction found with
  | nil => simpa [addTo] using h
  | cons first rest ih =>
    obtain ⟨hfirst, hrest⟩ := List.forall_mem_cons.1 hfound
    rw [addTo]
    split
    · exact List.forall_mem_cons.2 ⟨hfirst, hrest⟩
    · exact List.forall_mem_cons.2 ⟨hfirst, ih hrest⟩

namespace Planner

/-- All fields that are gathered in a scope know what is known in the scope. -/
theorem gather_innermost {outer : Option String} {scope : Scope} (h : scope.Innermost outer)
    {found : List CollectedField} (hfound : ∀ other ∈ found, other.scope.Innermost outer)
    (occurrences : List Occurrence) :
    ∀ collected ∈ gather scope found occurrences, collected.scope.Innermost outer := by
  induction occurrences generalizing found with
  | nil => exact hfound
  | cons occurrence rest ih =>
    exact ih (CollectedField.forall_scope_addTo (p := Scope.Innermost outer)
      (show (occurrence.collected scope).scope.Innermost outer from h.within _) hfound)

/-- What is known in the scopes of collected fields is known of the planned ones; from the outside
nothing is known of the objects below them. -/
theorem innermost_of_forall₂ {outer : Option String}
    {planInner : List (List Selection) → Scope → Nat → Except PlanningError (SelectionPlan × Nat)}
    (hinner : ∀ sets scope next plan last, planInner sets scope next = .ok (plan, last) →
      scope.Innermost none → ∀ inner ∈ plan.selections, ∀ fieldPlan ∈ inner.fields,
        fieldPlan.field.Innermost none)
    {collected : List CollectedField} {plans : List FieldPlan}
    (hplanned : List.Forall₂ (PlannedAs planInner) collected plans)
    (hcollected : ∀ field ∈ collected, field.scope.Innermost outer) :
    (∀ fieldPlan ∈ plans, fieldPlan.field.Innermost outer) ∧
      ∀ inner ∈ FieldPlan.listSelections plans, ∀ fieldPlan ∈ inner.fields,
        fieldPlan.field.Innermost none := by
  induction hplanned with
  | nil => exact ⟨List.forall_mem_nil _, List.forall_mem_nil _⟩
  | @cons first fieldPlan rest plans hfirst _ ih =>
    obtain ⟨hscope, hothers⟩ := List.forall_mem_cons.1 hcollected
    obtain ⟨hfields, hbelow⟩ := ih hothers
    rw [FieldPlan.listSelections]
    refine ⟨List.forall_mem_cons.2 ⟨?_, hfields⟩, List.forall_mem_append.2 ⟨?_, hbelow⟩⟩
    · rw [hfirst.field_eq]
      exact hscope
    · cases hfirst with
      | leaf => exact List.forall_mem_nil _
      | nested _ hplan =>
        exact hinner _ _ _ _ _ hplan ⟨fun _ ↦ rfl, fun hne ↦ absurd rfl hne⟩

/-- Of the fields that are planned, those of the group itself know the outer type where there are no
fragments around them; nothing is known from the outside of the objects below them. -/
theorem planSelection_innermost {fragments : Fragments} {levels : Nat}
    {selectionSets : List (List Selection)} {scope : Scope} {next : Nat} {plan : SelectionPlan}
    {last : Nat} (h : planSelection fragments levels selectionSets scope next = .ok (plan, last))
    {outer : Option String} (hscope : scope.Innermost outer) :
    (∀ fieldPlan ∈ plan.fields, fieldPlan.field.Innermost outer) ∧
      ∀ inner ∈ FieldPlan.listSelections plan.fields, ∀ fieldPlan ∈ inner.fields,
        fieldPlan.field.Innermost none := by
  induction levels generalizing selectionSets scope next plan last outer with
  | zero => cases h
  | succ levels ih =>
    obtain ⟨inner, occurrences, hlevels, -, hplanned⟩ := planSelection_gathers h
    obtain rfl : levels = inner := Nat.succ.inj hlevels
    exact innermost_of_forall₂
      (fun sets scope next plan last hplan hinner ↦ List.forall_mem_cons.2 (ih hplan hinner))
      hplanned (gather_innermost hscope (List.forall_mem_nil _) occurrences)

end Planner

namespace QueryPlan

variable {plan : QueryPlan}

/-- What a field of a plan knows about the type of the object. Outside of fragments this is the type
of the root, or nothing. -/
theorem Planned.innermost (h : plan.Planned) {selection : SelectionPlan}
    (hselection : selection ∈ plan.selection.selections) {fieldPlan : FieldPlan}
    (hmem : fieldPlan ∈ selection.fields) :
    ∃ outer, fieldPlan.field.Innermost outer ∧
      (selection = plan.selection → outer = some plan.rootType) := by
  obtain ⟨fragments, selections, hroot⟩ := h.planRoot
  obtain ⟨last, hplan⟩ := Planner.planRoot_eq_ok_iff.1 hroot
  have hscope : Scope.Innermost (some plan.rootType) { parentType := some plan.rootType } :=
    ⟨fun _ ↦ rfl, fun hne ↦ absurd rfl hne⟩
  obtain ⟨hfields, hinner⟩ := Planner.planSelection_innermost hplan hscope
  by_cases heq : selection = plan.selection
  · subst heq
    exact ⟨_, hfields fieldPlan hmem, fun _ ↦ rfl⟩
  · refine ⟨none, ?_, fun hroot ↦ absurd hroot heq⟩
    exact hinner selection ((List.mem_cons.1 hselection).resolve_left heq) fieldPlan hmem

end QueryPlan

/-! ### The check before an execution -/

namespace Registry

variable {registry : Registry World}

/-- If the field is local, then it can be served. -/
def Serves (registry : Registry World) (field : PlannedField) : Prop :=
  field.isLocal = true → registry.canServe field = true

theorem serves_of_validateField {field : PlannedField}
    (h : registry.validateField field = .ok ()) : registry.Serves field := by
  intro hlocal
  rw [validateField] at h
  split at h
  · cases h
  · next hserved => simpa [hlocal] using hserved

mutual

theorem serves_of_validatePlan (plan : FieldPlan) (h : registry.validatePlan plan = .ok ()) :
    registry.Serves plan.field ∧ ∀ selection ∈ plan.selections, ∀ fieldPlan ∈ selection.fields,
      registry.Serves fieldPlan.field := by
  cases plan with
  | leaf field =>
    rw [validatePlan] at h
    exact ⟨serves_of_validateField h, List.forall_mem_nil _⟩
  | nested field id fields =>
    rw [validatePlan] at h
    obtain ⟨_, hfield, hfields⟩ := Planner.bind_eq_ok_iff.1 h
    exact ⟨serves_of_validateField hfield,
      List.forall_mem_cons.2 (serves_of_validatePlans fields hfields)⟩

theorem serves_of_validatePlans (plans : List FieldPlan)
    (h : registry.validatePlans plans = .ok ()) :
    (∀ fieldPlan ∈ plans, registry.Serves fieldPlan.field) ∧
      ∀ selection ∈ FieldPlan.listSelections plans, ∀ fieldPlan ∈ selection.fields,
        registry.Serves fieldPlan.field := by
  cases plans with
  | nil => exact ⟨List.forall_mem_nil _, List.forall_mem_nil _⟩
  | cons plan plans =>
    rw [validatePlans] at h
    obtain ⟨_, hplan, hplans⟩ := Planner.bind_eq_ok_iff.1 h
    obtain ⟨hfield, hbelow⟩ := serves_of_validatePlan plan hplan
    obtain ⟨hfields, hinner⟩ := serves_of_validatePlans plans hplans
    rw [FieldPlan.listSelections]
    exact ⟨List.forall_mem_cons.2 ⟨hfield, hfields⟩, List.forall_mem_append.2 ⟨hbelow, hinner⟩⟩

end

/-- All local fields of a plan that passes the check can be served. -/
theorem serves_of_validate {plan : QueryPlan} (h : registry.validate plan = .ok ())
    {fieldPlan : FieldPlan} (hhas : plan.Has fieldPlan) : registry.Serves fieldPlan.field := by
  obtain ⟨hroot, hinner⟩ := serves_of_validatePlans plan.selection.fields h
  obtain ⟨selection, hselection, hmem⟩ := hhas
  rcases List.mem_cons.1 hselection with rfl | hselection
  · exact hroot fieldPlan hmem
  · exact hinner selection hselection fieldPlan hmem

/-- Where the query tells the type, there is a resolver on it. -/
theorem Serves.exists_resolver {field : PlannedField} (h : registry.Serves field)
    (hlocal : field.isLocal = true) {typeName : String} (htype : field.parentType = some typeName) :
    ∃ resolver, registry.lookup typeName field.name = some resolver := by
  have hserved := h hlocal
  simp only [canServe, htype, contains] at hserved
  exact Option.isSome_iff_exists.1 hserved

end Registry

/-! ### Evaluations without a resolver -/

/-- There is no typed fragment around the field, and the object tells its type itself or is not an
object of the root. -/
structure Evaluation.Untyped (plan : QueryPlan) (evaluation : Evaluation) : Prop where
  /-- There is no typed fragment. -/
  typeConditions : evaluation.plan.field.typeConditions = []
  /-- The object tells its type, or it lies below the root. -/
  object : (typename? evaluation.object).isSome = true ∨ evaluation.selection ≠ plan.selection.id

namespace Evaluation.Follows

variable {executor : Executor World} {evaluation : Evaluation}

/-- A field inside typed fragments is evaluated on the type of one of them, which the query
tells. -/
theorem parentType_of_typed (hplan : executor.plan.Planned)
    (h : evaluation.Follows executor.execution executor.plan.Enters)
    (htyped : evaluation.plan.field.typeConditions ≠ []) :
    evaluation.plan.field.parentType = some (executor.execution.resolverType evaluation) := by
  obtain ⟨typeHint, fields, henters, hmem, hselected, hknown⟩ := h
  obtain ⟨outer, hinnermost, -⟩ := hplan.innermost henters.1 hmem
  obtain ⟨type, htype, hparent⟩ := hinnermost.typed htyped
  have hruntime : ∀ typename, typename? evaluation.object = some typename → typename = type := by
    intro typename htypename
    rw [PlannedField.isSelected, htypename, Bool.and_eq_true] at hselected
    have happlies := List.all_eq_true.1 hselected.2 type htype
    exact (beq_iff_eq.1 happlies).symm
  rw [Execution.resolverType, hknown, Execution.knownType, hparent]
  cases htypename : typename? evaluation.object with
  | none => rfl
  | some typename => rw [hruntime typename htypename]; rfl

/-- Of an object of the root that does not tell its type the query tells it. -/
theorem parentType_of_root (hplan : executor.plan.Planned)
    (h : evaluation.Follows executor.execution executor.plan.Enters)
    (huntyped : evaluation.plan.field.typeConditions = [])
    (hunknown : typename? evaluation.object = none)
    (hroot : evaluation.selection = executor.plan.selection.id) :
    evaluation.plan.field.parentType = some (executor.execution.resolverType evaluation) := by
  obtain ⟨typeHint, fields, henters, hmem, hselected, hknown⟩ := h
  obtain ⟨outer, hinnermost, houter⟩ := hplan.innermost henters.1 hmem
  have hselection : (⟨evaluation.selection, fields⟩ : SelectionPlan) = executor.plan.selection :=
    hplan.selection_eq_of_id_eq henters.1 executor.plan.selection.self_mem_selections hroot
  have hparent : evaluation.plan.field.parentType = some executor.plan.rootType :=
    (hinnermost.untyped huntyped).trans (houter hselection)
  rw [Execution.resolverType, hknown, Execution.knownType, hunknown, hparent]
  rfl

/-- A local field that finds no resolver is one without typed fragments around it, on an object that
tells its type itself or lies below the root. -/
theorem untyped_of_fails (hplan : executor.plan.Planned)
    (hvalid : executor.registry.validate executor.plan = .ok ())
    (h : evaluation.Follows executor.execution executor.plan.Enters)
    (hlocal : evaluation.plan.field.isLocal = true)
    (hresolver : executor.execution.resolver? evaluation = none) :
    evaluation.Untyped executor.plan := by
  have hfound : evaluation.plan.field.parentType
      ≠ some (executor.execution.resolverType evaluation) := by
    intro hparent
    obtain ⟨resolver, hlookup⟩ :=
      (Registry.serves_of_validate hvalid h.has).exists_resolver hlocal hparent
    cases hlookup.symm.trans hresolver
  have huntyped : evaluation.plan.field.typeConditions = [] := by
    by_contra htyped
    exact hfound (h.parentType_of_typed hplan htyped)
  refine ⟨huntyped, ?_⟩
  by_contra hobject
  obtain ⟨hunknown, hroot⟩ := not_or.1 hobject
  exact hfound (h.parentType_of_root hplan huntyped (Option.not_isSome_iff_eq_none.1 hunknown)
    (not_not.1 hroot))

end Evaluation.Follows

/-- Only local fields without a resolver have their code. -/
theorem FieldError.code_eq_unresolved_iff (error : FieldError) :
    error.code = "UNRESOLVED_LOCAL_FIELD" ↔ error.IsUnresolved := by
  cases error <;> simp [code, IsUnresolved]

namespace Executor

variable {executor : Executor World}

theorem Executes.valid {root : Root} {world : World} {events : List Event}
    {outcome : Except ExecutionError (LoopHead World)}
    (h : executor.Executes root world events outcome) :
    executor.registry.validate executor.plan = .ok () := by
  induction h with
  | start hvalid | startAbort hvalid => exact hvalid
  | resume _ _ _ ih | finish _ _ _ ih | finishAbort _ _ _ ih => exact ih

/-- Typed local fields are protected by the check. A local field inside typed fragments finds its
resolver wherever it is evaluated. A local field is reported to have no resolver only if there is no
typed fragment around it, and only for objects that tell their types or lie below the root. -/
theorem unresolved_only_untyped (executor : Executor World) (hplan : executor.plan.Planned)
    (root : Root) (world : World) :
    (∀ events outcome, executor.Executes root world events outcome →
      ∀ evaluation, .evaluated evaluation ∈ events → evaluation.plan.field.isLocal = true →
        evaluation.plan.field.typeConditions ≠ [] →
          ∃ resolver, executor.execution.resolver? evaluation = some resolver) ∧
    ∀ order response, ((executor.executeIn order root world).1 = .ok response ∨
        (executor.execute root world).1 = .ok response) →
      ∃ events last, executor.Executes root world events (.ok last) ∧ last.waiting = [] ∧
        respond last.progress = response ∧
        ∀ error ∈ response.errors, error.code? = some "UNRESOLVED_LOCAL_FIELD" →
          ∃ evaluation fault, .evaluated evaluation ∈ events ∧
            evaluation.Fails executor.execution fault ∧ fault.toGraphQLError = error ∧
            evaluation.Untyped executor.plan := by
  refine ⟨fun events outcome hexecutes evaluation hmem hlocal htyped ↦ ?_,
    fun order response hresponse ↦ ?_⟩
  · rw [← Option.ne_none_iff_exists']
    intro hresolver
    have huntyped := (hexecutes.follows evaluation hmem).untyped_of_fails hplan hexecutes.valid
      hlocal hresolver
    exact htyped huntyped.typeConditions
  · obtain ⟨last, hreached, hempty, hrespond⟩ :=
      LoopHead.Reached.exists_last_of_response hresponse
    obtain ⟨events, hexecutes⟩ := exists_executes_of_reached hreached
    refine ⟨events, last, hexecutes, hempty, hrespond, fun error herror hcode ↦ ?_⟩
    rw [← hrespond] at herror
    obtain ⟨fault, hfault, rfl⟩ := List.mem_map.1 herror
    rw [Fault.toGraphQLError, FieldError.code?_toGraphQLError, Option.some.injEq,
      FieldError.code_eq_unresolved_iff] at hcode
    have hreported := (List.mergeSort_perm _ _).subset hfault
    obtain ⟨evaluation, hmem, hfails⟩ := hexecutes.leftBy.faults fault hreported hcode
    have hfollows := hexecutes.follows evaluation hmem
    exact ⟨evaluation, fault, hmem, hfails, rfl,
      hfollows.untyped_of_fails hplan hexecutes.valid hfails.isLocal hfails.resolver⟩

section Sample

/-- Asks for the sizes of shirts, and for a hint about any item. -/
def wardrobePlan : QueryPlan where
  kind := .query
  operationName := none
  rootType := "Query"
  variableDefaults := []
  selection := ⟨0,
    [.nested ⟨"items", "items", false, [], some [], some "items", some "Query", [], []⟩ 1
      [.leaf ⟨"size", "size", true, [], some [], some "size", some "Shirt", ["Shirt"], []⟩,
        .leaf ⟨"hint", "hint", true, [], some [], some "hint", none, [], []⟩]]⟩

/-- There are a shirt and a hat, but hints only about shirts. -/
def wardrobeExecutor : Executor Nat where
  plan := wardrobePlan
  registry := ["size", "hint"].map fun field =>
    ⟨"Shirt", field, fun _ _ _ => pure (.ready (.ok (.string field)))⟩
  store := [(wardrobePlan.rootKey, [("items", .array
    [.object [(typenameField, .string "Shirt")], .object [(typenameField, .string "Hat")]])])]

theorem wardrobePlan_planned : wardrobePlan.Planned :=
  .ofSelections (show planSelections
    [.nested { name := "items" }
      [.inlineFragment (some "Shirt") .unconditional [.leaf { name := "size", isLocal := true }],
        .leaf { name := "hint", isLocal := true }]] [] "Query" = .ok wardrobePlan by rfl)

/-- No hint is found for the hat; its size is not asked for. -/
theorem wardrobeExecutor_unresolved_only_untyped :
    wardrobePlan.Planned ∧ ∃ response, (wardrobeExecutor.execute .query 0).1 = .ok response ∧
      (∃ error ∈ response.errors, error.code? = some "UNRESOLVED_LOCAL_FIELD") ∧
      ∃ events last, wardrobeExecutor.Executes .query 0 events (.ok last) ∧ last.waiting = [] ∧
        respond last.progress = response ∧
        ∀ error ∈ response.errors, error.code? = some "UNRESOLVED_LOCAL_FIELD" →
          ∃ evaluation fault, .evaluated evaluation ∈ events ∧
            evaluation.Fails wardrobeExecutor.execution fault ∧ fault.toGraphQLError = error ∧
            evaluation.Untyped wardrobeExecutor.plan := by
  let fault : Fault :=
    ⟨⟨[.key "items", .index 1, .key "hint"], [0, 1, 1]⟩, .unresolvedLocalField "Hat" "hint"⟩
  have hstart : wardrobeExecutor.start .query { world := 0 } =
      (.ok (.object [("items", .array
        [.object [("size", .string "size"), ("hint", .string "hint")],
          .object [("hint", .null)]])], { faults := [fault] }), { world := 0 }) := by
    rfl
  have hexecute : (wardrobeExecutor.execute .query 0).1 = .ok (respond ⟨_, [fault]⟩) :=
    execute_of_start rfl hstart rfl
  exact ⟨wardrobePlan_planned, _, hexecute,
    ⟨fault.toGraphQLError, by simp [respond, Fault.inOrder], FieldError.code?_toGraphQLError _ _⟩,
    (unresolved_only_untyped wardrobeExecutor wardrobePlan_planned .query 0).2 (fun _ ↦ 0) _
      (.inr hexecute)⟩

end Sample

end Executor

end GraphCache
