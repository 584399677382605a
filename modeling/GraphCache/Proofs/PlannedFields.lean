import GraphCache.Proofs.FieldOrigins

/-!
# The fields of plans

Every field of a plan was collected from the selections of a query, so what the planner works out
in advance about arguments is what they come to when the plan is executed.

## Main results

* `QueryPlan.Planned.isCollected`: the fields of a plan were collected.
* `PlannedField.storageNameFor_of_collected`: the storage name of a field of a plan.
* `QueryPlan.isLocal_of_hasLocalField`: no field of a plan without local fields is local.
-/

namespace GraphCache

namespace PlannedField

/-- The field was collected from the selections of a query. -/
def IsCollected (field : PlannedField) : Prop :=
  ∃ collected : CollectedField, field = collected.planned

/-- Storage names that are known in advance are those that the arguments lead to. -/
theorem storageNameFor_of_collected {field : PlannedField} (h : field.IsCollected)
    (vars : Object) :
    field.storageNameFor vars = storageName field.name (field.boundArguments vars) := by
  obtain ⟨collected, rfl⟩ := h
  simp only [storageNameFor, boundArguments, CollectedField.planned]
  cases ArgumentValue.literalFields? collected.field.arguments with
  | none => rfl
  | some arguments => rfl

end PlannedField

/-- A storage name without parentheses is the name of a field without arguments. -/
theorem name_eq_of_storageName {name plain : String} {arguments : Object}
    (h : storageName name arguments = plain) (hplain : '(' ∉ plain.toList) : name = plain := by
  rw [storageName] at h
  split at h
  · exact h
  · refine absurd ?_ hplain
    rw [← h]
    simp

namespace QueryPlan

/-- Every field of a plan was collected from the selections of a query. -/
theorem Planned.isCollected {plan : QueryPlan} (h : plan.Planned) {fieldPlan : FieldPlan}
    (hfield : plan.Has fieldPlan) : fieldPlan.field.IsCollected := by
  obtain ⟨fragments, selections, hroot⟩ := h.planRoot
  obtain ⟨last, hplan⟩ := Planner.planRoot_eq_ok_iff.1 hroot
  obtain ⟨selection, hselection, hmem⟩ := hfield
  obtain ⟨collected, -, hplanned⟩ := Planner.planSelection_within (p := fun _ ↦ True)
    (fun _ _ ↦ trivial) (fun _ _ _ _ ↦ trivial) hplan selection hselection fieldPlan hmem
  exact ⟨collected, hplanned⟩

end QueryPlan

namespace FieldPlan

mutual

theorem isLocal_of_hasLocalField (plan : FieldPlan) (h : plan.hasLocalField = false) :
    plan.field.isLocal = false ∧
      ∀ selection ∈ plan.selections, ∀ inner ∈ selection.fields, inner.field.isLocal = false := by
  cases plan with
  | leaf field => exact ⟨h, by simp [selections]⟩
  | nested field id fields =>
    rw [hasLocalField, Bool.or_eq_false_iff] at h
    obtain ⟨hfields, hselections⟩ := isLocal_of_anyLocalField fields h.2
    exact ⟨h.1, List.forall_mem_cons.2 ⟨hfields, hselections⟩⟩

theorem isLocal_of_anyLocalField (plans : List FieldPlan) (h : anyLocalField plans = false) :
    (∀ plan ∈ plans, plan.field.isLocal = false) ∧
      ∀ selection ∈ listSelections plans, ∀ inner ∈ selection.fields,
        inner.field.isLocal = false := by
  cases plans with
  | nil => simp [listSelections]
  | cons plan plans =>
    rw [anyLocalField, Bool.or_eq_false_iff] at h
    obtain ⟨hfirst, hinner⟩ := isLocal_of_hasLocalField plan h.1
    obtain ⟨hrest, hothers⟩ := isLocal_of_anyLocalField plans h.2
    refine ⟨List.forall_mem_cons.2 ⟨hfirst, hrest⟩, fun selection hmem ↦ ?_⟩
    rcases List.mem_append.1 hmem with hmem | hmem
    · exact hinner selection hmem
    · exact hothers selection hmem

end

end FieldPlan

/-- No field of a plan without local fields is local. -/
theorem QueryPlan.isLocal_of_hasLocalField {plan : QueryPlan} (h : plan.hasLocalField = false)
    {fieldPlan : FieldPlan} (hfield : plan.Has fieldPlan) : fieldPlan.field.isLocal = false := by
  obtain ⟨selection, hselection, hmem⟩ := hfield
  obtain ⟨hroot, hinner⟩ := FieldPlan.isLocal_of_anyLocalField plan.selection.fields h
  rcases List.mem_cons.1 hselection with rfl | hselection
  · exact hroot fieldPlan hmem
  · exact hinner selection hselection fieldPlan hmem

end GraphCache
