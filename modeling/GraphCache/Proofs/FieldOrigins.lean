import GraphCache.Proofs.Flattening

/-!
# Where the fields of plans stand

The planner merges fields and takes fragments apart, but it makes no field up: every field of a plan
was collected from the query, where it stands at some depth, and has the name and the arguments that
are written in the document.

## Main definitions

* `CollectedField.Within`: what holds for a collected field and for the fields below it.
* `QueryPlan.MadeFrom`: the plans that are made from a query.

## Main results

* `QueryPlan.MadeFrom.exists_collected`: the fields of a plan were collected from the query.
-/

namespace GraphCache

variable {p : SelectedField → Prop}

namespace CollectedField

/-- Something holds for a collected field and for the fields in its nested selections. -/
structure Within (p : SelectedField → Prop) (collected : CollectedField) : Prop where
  /-- It holds for the field. -/
  field : p collected.field
  /-- It holds for the fields below it. -/
  inner : ∀ selections ∈ collected.selectionSets,
    ∀ field ∈ Selection.listFields selections, p field

theorem within_addTo {found : CollectedField} {collected : List CollectedField}
    (hfound : found.Within p) (hcollected : ∀ other ∈ collected, other.Within p) :
    ∀ other ∈ found.addTo collected, other.Within p := by
  induction collected with
  | nil => exact List.forall_mem_singleton.2 hfound
  | cons first rest ih =>
    obtain ⟨hfirst, hrest⟩ := List.forall_mem_cons.1 hcollected
    rw [addTo]
    split
    · exact List.forall_mem_cons.2
        ⟨⟨hfirst.field, List.forall_mem_append.2 ⟨hfirst.inner, hfound.inner⟩⟩, hrest⟩
    · exact List.forall_mem_cons.2 ⟨hfirst, ih hrest⟩

end CollectedField

namespace Planner

variable {fragments : Fragments}

theorem within_gather {scope : Scope} {occurrences : List Occurrence}
    {collected : List CollectedField} (hcollected : ∀ field ∈ collected, field.Within p)
    (hoccurrences : ∀ occurrence ∈ occurrences, (occurrence.collected scope).Within p) :
    ∀ field ∈ gather scope collected occurrences, field.Within p := by
  induction occurrences generalizing collected with
  | nil => exact hcollected
  | cons occurrence occurrences ih =>
    obtain ⟨hfirst, hrest⟩ := List.forall_mem_cons.1 hoccurrences
    exact ih (CollectedField.within_addTo hfirst hcollected) hrest

/-- The fields of a plan were collected from the group of selection sets and from the fragments:
what holds for all fields there holds for these. -/
theorem planSelection_within (hfragments : ∀ field ∈ fragments.fields, p field) {levels : Nat}
    {selectionSets : List (List Selection)} {scope : Scope} {next : Nat} {plan : SelectionPlan}
    {last : Nat}
    (hsets : ∀ selections ∈ selectionSets, ∀ field ∈ Selection.listFields selections, p field)
    (h : planSelection fragments levels selectionSets scope next = .ok (plan, last)) :
    ∀ selection ∈ plan.selections, ∀ fieldPlan ∈ selection.fields,
      ∃ collected : CollectedField, p collected.field ∧ fieldPlan.field = collected.planned := by
  induction levels generalizing selectionSets scope next plan last with
  | zero => cases h
  | succ levels ih =>
    obtain ⟨inner, occurrences, hlevels, hmeets, hplanned⟩ := planSelection_gathers h
    obtain rfl : levels = inner := Nat.succ.inj hlevels
    have hflatten : ∀ field ∈ Selection.listFields selectionSets.flatten, p field := by
      intro field hmem
      obtain ⟨selection, hselection, hmem⟩ := Selection.mem_listFields.1 hmem
      obtain ⟨selections, hselections, hselection⟩ := List.mem_flatten.1 hselection
      exact hsets selections hselections field
        (Selection.mem_listFields.2 ⟨selection, hselection, hmem⟩)
    have hcollected : ∀ field ∈ gather scope [] occurrences, field.Within p := by
      refine within_gather (List.forall_mem_nil _) fun occurrence hmem ↦ ?_
      obtain ⟨hfield, hinner⟩ := hmeets.forall_fields hfragments hflatten occurrence hmem
      exact ⟨hfield, fun selections hmem ↦ hinner selections (Option.mem_toList.1 hmem)⟩
    refine List.forall_mem_cons.2 ⟨fun fieldPlan hmem ↦ ?_, fun selection hmem ↦ ?_⟩
    · obtain ⟨collected, hmem, hplan⟩ := exists_of_forall₂ hplanned hmem
      exact ⟨collected, (hcollected collected hmem).field, hplan.field_eq⟩
    · obtain ⟨fieldPlan, hplans, hmem⟩ := FieldPlan.mem_listSelections.1 hmem
      obtain ⟨collected, hfield, hplan⟩ := exists_of_forall₂ hplanned hplans
      cases hplan with
      | leaf hleaf => cases hmem
      | nested hleaf hinner =>
        exact ih (hcollected collected hfield).inner hinner selection hmem

end Planner

namespace QueryPlan

/-- The plans that are made from a query: of its operations, and of selections in it. -/
inductive MadeFrom (query : Query) : QueryPlan → Prop where
  | ofOperation {operationName : Option String} {plan : QueryPlan}
      (hplan : query.plan operationName = .ok plan) : MadeFrom query plan
  | ofSelections {selections : List Selection} {rootType : String} {plan : QueryPlan}
      (hfields : Selection.listFields selections ⊆ query.fields)
      (hplan : planSelections selections query.fragments rootType = .ok plan) :
      MadeFrom query plan

/-- Every field of a plan was collected from the query. -/
theorem MadeFrom.exists_collected {query : Query} {plan : QueryPlan} (h : plan.MadeFrom query)
    {fieldPlan : FieldPlan} (hfield : plan.Has fieldPlan) :
    ∃ collected : CollectedField, collected.field ∈ query.fields ∧
      fieldPlan.field = collected.planned := by
  have hfragments : ∀ field ∈ query.fragments.fields, field ∈ query.fields :=
    fun field hmem ↦ Query.mem_fields.2 (.inr hmem)
  obtain ⟨selections, rootType, hselections, hroot⟩ : ∃ selections rootType,
      Selection.listFields selections ⊆ query.fields ∧
        Planner.planRoot query.fragments selections rootType = .ok plan.selection := by
    cases h with
    | ofOperation hplan =>
      obtain ⟨operation, selection, hoperation, -, hroot, rfl⟩ := Query.plan_eq_ok_iff.1 hplan
      refine ⟨_, _, fun field hmem ↦ Query.mem_fields.2 (.inl ?_), hroot⟩
      exact ⟨operation, Query.mem_of_operation hoperation, hmem⟩
    | ofSelections hfields hplan =>
      rw [planSelections] at hplan
      obtain ⟨_, hroot, heq⟩ := Planner.bind_eq_ok_iff.1 hplan
      cases heq
      exact ⟨_, _, hfields, hroot⟩
  obtain ⟨last, hplan⟩ := Planner.planRoot_eq_ok_iff.1 hroot
  obtain ⟨selection, hselection, hmem⟩ := hfield
  exact Planner.planSelection_within hfragments
    (List.forall_mem_singleton.2 fun field hmem ↦ hselections hmem) hplan selection hselection
    fieldPlan hmem

end QueryPlan

end GraphCache
