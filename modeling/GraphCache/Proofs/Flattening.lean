import GraphCache.Proofs.Merging

/-!
# Flattening

The plan of a group of selection sets says the same as the selection sets themselves: at an object
of any type, and for any variables, its fields stand for those that a walk through the selections
meets, each of them for a class of occurrences that are merged.

## Main definitions

* `FieldPlan.represents`: whether a planned field stands for an occurrence.
* `Planner.PlannedAs`: how a field that was collected is planned.
* `Planner.Flattening`: what the plan of a group has to do with the fields that occur in it.

## Main results

* `Planner.planFields_forall₂`: the collected fields are planned one by one.
* `Planner.planSelection_flattens`: the plan of a group flattens it.
-/

namespace GraphCache

/-- Whether a planned field stands for an occurrence: it has its response key, its name, the same
arguments, it is local or remote like the occurrence, a leaf or not like it, and it depends on the
same types and conditions. -/
def FieldPlan.represents (plan : FieldPlan) (occurrence : Occurrence) : Bool :=
  plan.key.same occurrence.key

theorem FieldPlan.isSelected_of_represents {plan : FieldPlan} {occurrence : Occurrence}
    (h : plan.represents occurrence = true) (vars : Object) (typename : Option String) :
    plan.field.isSelected vars typename = (Walker.at vars typename).reaches occurrence := by
  rw [← plan.isSelected_key, ← occurrence.isSelected_key]
  exact FieldKey.isSelected_of_same h vars typename

namespace Planner

section PlanFields

variable {planInner : List (List Selection) → Scope → Nat →
  Except PlanningError (SelectionPlan × Nat)}

/-- How a collected field is planned: a leaf as it is, another field with the plan of its nested
selections. Of the fragments around it only their names count below it. -/
inductive PlannedAs (planInner : List (List Selection) → Scope → Nat →
    Except PlanningError (SelectionPlan × Nat)) (collected : CollectedField) :
    FieldPlan → Prop where
  | leaf (hleaf : collected.isLeaf = true) : PlannedAs planInner collected (.leaf collected.planned)
  | nested {selection : SelectionPlan} {next last : Nat} (hleaf : collected.isLeaf = false)
      (hinner : planInner collected.selectionSets
        { openFragments := collected.scope.openFragments } next = .ok (selection, last)) :
      PlannedAs planInner collected (.nested collected.planned selection.id selection.fields)

theorem PlannedAs.key_eq {collected : CollectedField} {plan : FieldPlan}
    (h : PlannedAs planInner collected plan) : plan.key = collected.key := by
  cases h with
  | leaf hleaf => simp [FieldPlan.key, CollectedField.key, FieldPlan.field, FieldPlan.selection?,
      CollectedField.planned, hleaf]
  | nested hleaf => simp [FieldPlan.key, CollectedField.key, FieldPlan.field, FieldPlan.selection?,
      CollectedField.planned, hleaf]

theorem PlannedAs.field_eq {collected : CollectedField} {plan : FieldPlan}
    (h : PlannedAs planInner collected plan) : plan.field = collected.planned := by
  cases h <;> rfl

/-- The first of the collected fields is planned, and then the others. -/
theorem planFields_cons_plannedAs {first : CollectedField} {rest : List CollectedField}
    {next last : Nat} {plans : List FieldPlan}
    (h : planFields planInner (first :: rest) next = .ok (plans, last)) :
    ∃ plan others middle, plans = plan :: others ∧ PlannedAs planInner first plan ∧
      planFields planInner rest middle = .ok (others, last) := by
  rcases planFields_cons_ok h with ⟨hleaf, others, hrest, rfl⟩ |
    ⟨hleaf, inner, middle, others, hinner, hrest, rfl⟩
  · exact ⟨_, others, next, rfl, .leaf hleaf, hrest⟩
  · exact ⟨_, others, middle, rfl, .nested hleaf hinner, hrest⟩

/-- Collected fields are planned one by one. -/
theorem planFields_forall₂ {collected : List CollectedField} {next : Nat} {plans : List FieldPlan}
    {last : Nat} (h : planFields planInner collected next = .ok (plans, last)) :
    List.Forall₂ (PlannedAs planInner) collected plans := by
  induction collected generalizing next plans with
  | nil =>
    cases h
    exact .nil
  | cons first rest ih =>
    obtain ⟨plan, others, middle, rfl, hfirst, hrest⟩ := planFields_cons_plannedAs h
    exact .cons hfirst (ih hrest)

end PlanFields

/-- Planning a group of selection sets walks through them, gathers what it meets and plans the
gathered fields. -/
theorem planSelection_gathers {fragments : Fragments} {levels : Nat}
    {selectionSets : List (List Selection)} {scope : Scope} {next : Nat} {plan : SelectionPlan}
    {last : Nat} (h : planSelection fragments levels selectionSets scope next = .ok (plan, last)) :
    ∃ inner occurrences, levels = inner + 1 ∧
      Walker.everywhere.Meets fragments selectionSets.flatten occurrences ∧
      List.Forall₂ (PlannedAs (planSelection fragments inner)) (gather scope [] occurrences)
        plan.fields := by
  obtain ⟨inner, collected, rfl, hcollect, -, hfields⟩ := planSelection_ok h
  obtain ⟨occurrences, hmeets, rfl⟩ := collectAll_ok hcollect
  exact ⟨inner, occurrences, rfl, hmeets, planFields_forall₂ hfields⟩

/-- The selections of a root type are planned as a group of one. -/
theorem planRoot_eq (fragments : Fragments) (selections : List Selection) (rootType : String) :
    planRoot fragments selections rootType =
      (planSelection fragments (recursionLimit + 1) [selections] { parentType := some rootType }
        0).map Prod.fst := by
  rw [planRoot]
  cases planSelection fragments (recursionLimit + 1) [selections]
    { parentType := some rootType } 0 <;> rfl

/-- What the plan of a group of selection sets has to do with the fields that occur in the group. -/
structure Flattening (fragments : Fragments) (selectionSets : List (List Selection))
    (occurrences : List Occurrence) (plan : SelectionPlan) : Prop where
  /-- The occurrences are met, in this order, by the walk that passes nothing by. -/
  meets : Walker.everywhere.Meets fragments selectionSets.flatten occurrences
  /-- The walk at an object meets those that it gets to. -/
  reached : ∀ vars typename found,
    (Walker.at vars typename).Meets fragments selectionSets.flatten found ↔
      found = occurrences.filter (Walker.at vars typename).reaches
  /-- The walk gets to an occurrence exactly if one selected field, and no more, represents it. -/
  represented : ∀ vars typename, ∀ occurrence ∈ occurrences,
    (Walker.at vars typename).reaches occurrence = true ↔
      (plan.fields.countP fun fieldPlan ↦
        fieldPlan.field.isSelected vars typename && fieldPlan.represents occurrence) = 1
  /-- A field is like the first occurrence that it represents. -/
  first : ∀ fieldPlan ∈ plan.fields, ∃ occurrence,
    occurrences.find? fieldPlan.represents = some occurrence ∧ fieldPlan.key = occurrence.key
  /-- Below a field the nested selections of all its occurrences are planned, in order. -/
  nested : ∀ fieldPlan ∈ plan.fields, ∀ selection ∈ fieldPlan.selection?,
    ∃ levels names next last,
      planSelection fragments levels
        ((occurrences.filter fieldPlan.represents).filterMap (·.selections?))
        { openFragments := names } next = .ok (selection, last)
  /-- The fields are in the order of their first occurrences. -/
  ordered : plan.fields.Pairwise fun a b ↦
    occurrences.findIdx a.represents < occurrences.findIdx b.represents
  /-- No two fields are to be merged. -/
  distinct : plan.fields.Pairwise fun a b ↦ a.key.same b.key = false

private theorem countP_le_one {α : Type} {p : α → Bool} {items : List α}
    (h : items.Pairwise fun a b ↦ p a = true → p b = false) : items.countP p ≤ 1 := by
  induction items with
  | nil => simp
  | cons item items ih =>
    obtain ⟨hfirst, hrest⟩ := List.pairwise_cons.1 h
    cases hitem : p item with
    | true =>
      have hnone : items.countP p = 0 :=
        List.countP_eq_zero.2 fun other hmem ↦ by simp [hfirst other hmem hitem]
      simp [List.countP_cons_of_pos hitem, hnone]
    | false =>
      rw [List.countP_cons_of_neg (by simp [hitem])]
      exact ih hrest

private theorem countP_eq_one_iff {α : Type} {p : α → Bool} {items : List α}
    (h : items.Pairwise fun a b ↦ p a = true → p b = false) :
    items.countP p = 1 ↔ ∃ item ∈ items, p item = true := by
  rw [← List.countP_pos_iff]
  have := countP_le_one h
  omega

theorem exists_of_forall₂ {α β : Type} {R : α → β → Prop} {as : List α} {bs : List β}
    (h : List.Forall₂ R as bs) {b : β} (hmem : b ∈ bs) : ∃ a ∈ as, R a b := by
  induction h with
  | nil => cases hmem
  | cons hfirst _ ih =>
    rcases List.mem_cons.1 hmem with rfl | hmem
    · exact ⟨_, List.mem_cons_self, hfirst⟩
    · obtain ⟨a, ha, hrel⟩ := ih hmem
      exact ⟨a, List.mem_cons_of_mem _ ha, hrel⟩

section Planned

variable {planInner : List (List Selection) → Scope → Nat →
    Except PlanningError (SelectionPlan × Nat)} {collected : List CollectedField}
  {plans : List FieldPlan} (hplanned : List.Forall₂ (PlannedAs planInner) collected plans)

include hplanned

/-- What relates the collected fields by what is compared of them relates the planned ones. -/
theorem pairwise_of_forall₂ {R : FieldKey → FieldKey → Prop}
    (h : collected.Pairwise fun a b ↦ R a.key b.key) :
    plans.Pairwise fun a b ↦ R a.key b.key := by
  induction hplanned with
  | nil => exact .nil
  | cons hfirst hrest ih =>
    obtain ⟨hhead, htail⟩ := List.pairwise_cons.1 h
    refine List.pairwise_cons.2 ⟨fun plan hmem ↦ ?_, ih htail⟩
    obtain ⟨field, hfield, hplan⟩ := exists_of_forall₂ hrest hmem
    rw [hfirst.key_eq, hplan.key_eq]
    exact hhead field hfield

variable {scope : Scope} {occurrences : List Occurrence}
  (hgathered : Gathered scope occurrences collected)

include hgathered

theorem first_of_forall₂ {fieldPlan : FieldPlan} (hmem : fieldPlan ∈ plans) :
    ∃ occurrence, occurrences.find? fieldPlan.represents = some occurrence ∧
      fieldPlan.key = occurrence.key := by
  obtain ⟨field, hfield, hplan⟩ := exists_of_forall₂ hplanned hmem
  obtain ⟨occurrence, hfind, hkey, -⟩ := hgathered.first field hfield
  rw [← hplan.key_eq] at hfind hkey
  exact ⟨occurrence, hfind, hkey⟩

theorem covers_of_forall₂ {occurrence : Occurrence} (hmem : occurrence ∈ occurrences) :
    ∃ fieldPlan ∈ plans, fieldPlan.represents occurrence = true := by
  obtain ⟨field, hfield, hsame⟩ := hgathered.covers occurrence hmem
  obtain ⟨fieldPlan, hplan, hrel⟩ := exists_of_forall₂ hplanned.flip hfield
  exact ⟨fieldPlan, hplan, by rw [FieldPlan.represents, hrel.key_eq, hsame]⟩

theorem nested_of_forall₂ {fieldPlan : FieldPlan} (hmem : fieldPlan ∈ plans)
    {selection : SelectionPlan} (hselection : selection ∈ fieldPlan.selection?) :
    ∃ names next last,
      planInner ((occurrences.filter fieldPlan.represents).filterMap (·.selections?))
        { openFragments := names } next = .ok (selection, last) := by
  obtain ⟨field, hfield, hplan⟩ := exists_of_forall₂ hplanned hmem
  have hsets := hgathered.selectionSets field hfield
  rw [← hplan.key_eq] at hsets
  cases hplan with
  | leaf => cases hselection
  | nested _ hinner =>
    cases hselection
    rw [hsets] at hinner
    exact ⟨_, _, _, hinner⟩

/-- Of the fields that are planned one stands for an occurrence; it is selected where the walk gets
to the occurrence. -/
theorem reaches_iff_countP (hwell : ∀ occurrence ∈ occurrences, occurrence.WellFormed)
    {occurrence : Occurrence} (hmem : occurrence ∈ occurrences) (vars : Object)
    (typename : Option String) :
    (Walker.at vars typename).reaches occurrence = true ↔
      (plans.countP fun fieldPlan ↦
        fieldPlan.field.isSelected vars typename && fieldPlan.represents occurrence) = 1 := by
  have hkey : ∀ fieldPlan ∈ plans, fieldPlan.key.WellFormed := fun fieldPlan hplan ↦ by
    obtain ⟨other, hfind, hother⟩ := first_of_forall₂ hplanned hgathered hplan
    exact hother ▸ (hwell other (List.mem_of_find?_eq_some hfind)).key
  -- two fields that stand for one occurrence would merge with each other
  have honce : plans.Pairwise fun a b ↦
      (a.field.isSelected vars typename && a.represents occurrence) = true →
        (b.field.isSelected vars typename && b.represents occurrence) = false := by
    refine (pairwise_of_forall₂ (R := fun a b ↦ a.same b = false) hplanned
      hgathered.distinct).imp_of_mem fun {a b} ha hb hne htrue ↦ Bool.eq_false_iff.2 fun htrue' ↦ ?_
    have hsame := FieldKey.same_of_same_of_same (hkey a ha) (hkey b hb) (hwell occurrence hmem).key
      (Bool.and_eq_true_iff.1 htrue).2 (Bool.and_eq_true_iff.1 htrue').2
    exact Bool.false_ne_true (hne.symm.trans hsame)
  rw [countP_eq_one_iff honce]
  constructor
  · intro hreaches
    obtain ⟨fieldPlan, hplan, hrepresents⟩ := covers_of_forall₂ hplanned hgathered hmem
    refine ⟨fieldPlan, hplan, ?_⟩
    rw [FieldPlan.isSelected_of_represents hrepresents, hreaches, hrepresents]
    rfl
  · rintro ⟨fieldPlan, -, htrue⟩
    obtain ⟨hselected, hrepresents⟩ := Bool.and_eq_true_iff.1 htrue
    rwa [FieldPlan.isSelected_of_represents hrepresents] at hselected

end Planned

/-- Planning a group of selection sets flattens it: whatever the variables and the type of the
object, a field that stands in the selections counts exactly if one field of the plan that stands
for it does. -/
theorem planSelection_flattens {fragments : Fragments} {levels : Nat}
    {selectionSets : List (List Selection)} {type? : Option String} {names : List String}
    {next : Nat} {plan : SelectionPlan} {last : Nat} (hfragments : fragments.WellFormed)
    (hselections : ∀ selections ∈ selectionSets, Selection.listWellFormed selections)
    (h : planSelection fragments levels selectionSets
      { parentType := type?, openFragments := names } next = .ok (plan, last)) :
    ∃ occurrences, Flattening fragments selectionSets occurrences plan := by
  obtain ⟨inner, occurrences, -, hmeets, hplanned⟩ := planSelection_gathers h
  have hwell := hmeets.wellFormed hfragments (Selection.listWellFormed_flatten.2 hselections)
  have hgathered := gathered_gather type? names occurrences hwell
  exact
    ⟨occurrences,
      { meets := hmeets
        reached := fun _ _ _ ↦ Walker.meets_iff_filter hmeets
        represented := fun vars typename _ hmem ↦
          reaches_iff_countP hplanned hgathered hwell hmem vars typename
        first := fun _ hmem ↦ first_of_forall₂ hplanned hgathered hmem
        nested := fun _ hmem _ hselection ↦
          ⟨inner, nested_of_forall₂ hplanned hgathered hmem hselection⟩
        ordered := pairwise_of_forall₂ (R := fun a b ↦
          occurrences.findIdx (fun other ↦ a.same other.key) <
            occurrences.findIdx fun other ↦ b.same other.key) hplanned hgathered.ordered
        distinct := pairwise_of_forall₂ (R := fun a b ↦ a.same b = false) hplanned
          hgathered.distinct }⟩

/-- A fragment on dogs, with a part that depends on a variable. -/
def petFragments : Fragments :=
  [("Details", ⟨"Dog", [.leaf { name := "barks" },
    .inlineFragment none ⟨.var "full", .no⟩
      [.nested { name := "owner" } [.leaf { name := "email" }]]]⟩)]

/-- Selections in which the owner occurs three times, of which two are merged. -/
def petSelections : List Selection :=
  [.nested { name := "owner" } [.leaf { name := "name" }], .fragmentSpread "Details" .unconditional,
    .nested { name := "owner" } [.leaf { name := "age" }]]

theorem petFragments_wellFormed : petFragments.WellFormed := by
  simp [Fragments.WellFormed, petFragments, Selection.listWellFormed, Selection.WellFormed,
    ArgumentValue.WellFormedFields]

theorem petSelections_wellFormed : Selection.listWellFormed petSelections := by
  simp [petSelections, Selection.listWellFormed, Selection.WellFormed,
    ArgumentValue.WellFormedFields]

theorem planSelection_flattens_petSelections :
    petFragments.WellFormed ∧
      (∀ selections ∈ [petSelections], Selection.listWellFormed selections) ∧
      ∃ plan last,
        planSelection petFragments 3 [petSelections]
            { parentType := some "Pet", openFragments := [] } 0 = .ok (plan, last) ∧
          plan.fields.map (·.key.responseKey) = ["owner", "barks", "owner"] ∧
          ∃ occurrences, Flattening petFragments [petSelections] occurrences plan := by
  have hplan : ∃ plan last,
      planSelection petFragments 3 [petSelections]
          { parentType := some "Pet", openFragments := [] } 0 = .ok (plan, last) ∧
        plan.fields.map (·.key.responseKey) = ["owner", "barks", "owner"] :=
    ⟨_, _, rfl, by decide⟩
  have hselections := List.forall_mem_singleton.2 petSelections_wellFormed
  obtain ⟨plan, last, hplan, hkeys⟩ := hplan
  exact ⟨petFragments_wellFormed, hselections, plan, last, hplan, hkeys,
    planSelection_flattens petFragments_wellFormed hselections hplan⟩

end Planner

end GraphCache
