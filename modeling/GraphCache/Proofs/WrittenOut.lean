import GraphCache.Proofs.PlanningRuns

/-!
# Writing out named fragments

A spread can be written out: as an inline fragment with the type of the fragment, the conditions of
the spread and the selections of the fragment, in which spreads are written out in turn. Nothing
else is left of named fragments in a plan. The planner counts levels in the same way for both forms;
the fragments that it remembers to be open decide about errors only, and no two fields are told
apart by them.

Writing out is a relation and not a function, since it comes to no end where fragments lead back to
themselves. Where selections have a plan it has exactly one result.

## Main definitions

* `Fragments.WritesOut`: selections in which all spreads are written out.
* `Scope.closed`, `CollectedField.WritesOut`: what becomes of scopes and of collected fields.

## Main results

* `Fragments.WritesOut.unique`, `Fragments.exists_writesOut`: there is one result at most, and there
  is one if all fragments resolve.
* `Planner.collect_writesOut`, `Planner.planSelection_writesOut`: collecting and planning what was
  written out.
* `Planner.planSelections_writesOut`: the plans are the same.
-/

namespace GraphCache

namespace Fragments

/-- Selections in which every spread is written out, at any depth: it becomes an inline fragment
with the type of the fragment, the conditions of the spread and the selections of the fragment,
written out in turn. -/
inductive WritesOut (fragments : Fragments) : List Selection → List Selection → Prop where
  | nil : WritesOut fragments [] []
  | leaf {field : SelectedField} {rest rest' : List Selection}
      (hrest : WritesOut fragments rest rest') :
      WritesOut fragments (.leaf field :: rest) (.leaf field :: rest')
  | nested {field : SelectedField} {inner inner' rest rest' : List Selection}
      (hinner : WritesOut fragments inner inner') (hrest : WritesOut fragments rest rest') :
      WritesOut fragments (.nested field inner :: rest) (.nested field inner' :: rest')
  | inlineFragment {typeCondition : Option String} {conditions : IncludeSkip}
      {inner inner' rest rest' : List Selection} (hinner : WritesOut fragments inner inner')
      (hrest : WritesOut fragments rest rest') :
      WritesOut fragments (.inlineFragment typeCondition conditions inner :: rest)
        (.inlineFragment typeCondition conditions inner' :: rest')
  | fragmentSpread {name : String} {conditions : IncludeSkip} {fragment : Fragment}
      {inner' rest rest' : List Selection} (hget : Dict.get? fragments name = some fragment)
      (hinner : WritesOut fragments fragment.selections inner')
      (hrest : WritesOut fragments rest rest') :
      WritesOut fragments (.fragmentSpread name conditions :: rest)
        (.inlineFragment (some fragment.typeCondition) conditions inner' :: rest')

variable {fragments : Fragments}

/-- There is one way at most to write out selections. -/
theorem WritesOut.unique {selections out other : List Selection}
    (h : fragments.WritesOut selections out) (h' : fragments.WritesOut selections other) :
    out = other := by
  induction h generalizing other with
  | nil =>
    cases h'
    rfl
  | leaf _ ih =>
    cases h' with
    | leaf hrest => rw [ih hrest]
  | nested _ _ ihinner ihrest =>
    cases h' with
    | nested hinner hrest => rw [ihinner hinner, ihrest hrest]
  | inlineFragment _ _ ihinner ihrest =>
    cases h' with
    | inlineFragment hinner hrest => rw [ihinner hinner, ihrest hrest]
  | fragmentSpread hget _ _ ihinner ihrest =>
    cases h' with
    | fragmentSpread hget' hinner hrest =>
      cases hget.symm.trans hget'
      rw [ihinner hinner, ihrest hrest]

/-- No spread is left. -/
theorem WritesOut.listSpreadNames_eq_nil {selections out : List Selection}
    (h : fragments.WritesOut selections out) : Selection.listSpreadNames out = [] := by
  induction h with
  | nil => rfl
  | leaf _ ih => exact ih
  | nested _ _ ihinner ihrest => exact List.append_eq_nil_iff.2 ⟨ihinner, ihrest⟩
  | inlineFragment _ _ ihinner ihrest => exact List.append_eq_nil_iff.2 ⟨ihinner, ihrest⟩
  | fragmentSpread _ _ _ ihinner ihrest => exact List.append_eq_nil_iff.2 ⟨ihinner, ihrest⟩

/-- The selections of a fragment can be written out. -/
def CanWriteOut (fragments : Fragments) (name : String) : Prop :=
  ∃ fragment out, Dict.get? fragments name = some fragment ∧
    fragments.WritesOut fragment.selections out

mutual

theorem exists_writesOut_cons (selection : Selection) {rest out : List Selection}
    (hspread : ∀ name ∈ selection.spreadNames, fragments.CanWriteOut name)
    (hrest : fragments.WritesOut rest out) :
    ∃ out, fragments.WritesOut (selection :: rest) out := by
  cases selection with
  | leaf field => exact ⟨_, .leaf hrest⟩
  | nested field selections =>
    obtain ⟨inner, hinner⟩ := exists_writesOut_of_forall selections hspread
    exact ⟨_, .nested hinner hrest⟩
  | inlineFragment typeCondition conditions selections =>
    obtain ⟨inner, hinner⟩ := exists_writesOut_of_forall selections hspread
    exact ⟨_, .inlineFragment hinner hrest⟩
  | fragmentSpread name conditions =>
    obtain ⟨fragment, inner, hget, hinner⟩ := hspread name List.mem_cons_self
    exact ⟨_, .fragmentSpread hget hinner hrest⟩

/-- Selections can be written out if all fragments that are spread in them can. -/
theorem exists_writesOut_of_forall (selections : List Selection)
    (hspread : ∀ name ∈ Selection.listSpreadNames selections, fragments.CanWriteOut name) :
    ∃ out, fragments.WritesOut selections out := by
  cases selections with
  | nil => exact ⟨[], .nil⟩
  | cons selection rest =>
    obtain ⟨hfirst, hrest⟩ := List.forall_mem_append.1 hspread
    obtain ⟨out, hout⟩ := exists_writesOut_of_forall rest hrest
    exact exists_writesOut_cons selection hfirst hout

end

theorem Resolves.canWriteOut {name : String} (h : fragments.Resolves name) :
    fragments.CanWriteOut name := by
  induction h with
  | @intro name fragment hget _ ih =>
    obtain ⟨out, hout⟩ := exists_writesOut_of_forall fragment.selections ih
    exact ⟨fragment, out, hget, hout⟩

/-- Selections can be written out if all fragments that are spread in them resolve. -/
theorem exists_writesOut {selections : List Selection}
    (h : ∀ name ∈ Selection.listSpreadNames selections, fragments.Resolves name) :
    ∃ out, fragments.WritesOut selections out :=
  exists_writesOut_of_forall selections fun name hname ↦ (h name hname).canWriteOut

end Fragments

/-! ### Collecting -/

/-- The scope without its open fragments. -/
def Scope.closed (scope : Scope) : Scope :=
  { scope with openFragments := [] }

theorem Scope.closed_enter (scope : Scope) (typeCondition : Option String)
    (conditions : IncludeSkip) :
    (scope.enter typeCondition conditions).closed
      = scope.closed.enter typeCondition conditions := by
  cases typeCondition <;> rfl

/-- A field that was collected from selections, and one from the same selections written out. -/
structure CollectedField.WritesOut (fragments : Fragments) (a b : CollectedField) : Prop where
  /-- The field is the same. -/
  field : b.field = a.field
  /-- It has nested selections or not. -/
  isLeaf : b.isLeaf = a.isLeaf
  /-- The nested selections are written out. -/
  selectionSets : List.Forall₂ fragments.WritesOut a.selectionSets b.selectionSets
  /-- No fragment is open. -/
  scope : b.scope = a.scope.closed

namespace CollectedField

variable {fragments : Fragments} {a b c d : CollectedField}

theorem WritesOut.planned_eq (h : a.WritesOut fragments b) : b.planned = a.planned := by
  simp only [planned, conditions, h.field, h.scope]
  rfl

theorem WritesOut.mergesWith_eq (hab : a.WritesOut fragments b) (hcd : c.WritesOut fragments d) :
    b.mergesWith d = a.mergesWith c := by
  simp only [mergesWith, conditions, hab.field, hab.isLeaf, hab.scope, hcd.field, hcd.isLeaf,
    hcd.scope]
  rfl

/-- Fields are added in the same way to those that were collected before. -/
theorem WritesOut.addTo (h : a.WritesOut fragments b) {found found' : List CollectedField}
    (hfound : List.Forall₂ (WritesOut fragments) found found') :
    List.Forall₂ (WritesOut fragments) (a.addTo found) (b.addTo found') := by
  induction hfound with
  | nil => exact .cons h .nil
  | @cons first first' rest rest' hfirst hrest ih =>
    simp only [CollectedField.addTo, hfirst.mergesWith_eq h]
    split
    · exact .cons { hfirst with
        selectionSets := List.rel_append hfirst.selectionSets h.selectionSets } hrest
    · exact .cons hfirst ih

end CollectedField

namespace Planner

variable {fragments : Fragments}

/-- What is collected from selections is collected from them written out. -/
theorem collect_writesOut {levels : Nat} {selections out : List Selection}
    (h : fragments.WritesOut selections out) {scope : Scope}
    {found found' collected : List CollectedField}
    (hfound : List.Forall₂ (CollectedField.WritesOut fragments) found found')
    (hcollect : collect fragments levels selections scope found = .ok collected) :
    ∃ collected', collect [] levels out scope.closed found' = .ok collected' ∧
      List.Forall₂ (CollectedField.WritesOut fragments) collected collected' := by
  -- a fragment is entered on the next level, whether it is spread or written out
  induction levels generalizing selections out scope found found' collected with
  | zero => cases hcollect
  | succ levels ih =>
    induction h generalizing found found' with
    | nil =>
      cases hcollect
      exact ⟨found', rfl, hfound⟩
    | @leaf field rest rest' _ ihrest =>
      rw [collect_cons] at hcollect ⊢
      have hfield : CollectedField.WritesOut fragments ⟨field, true, [], scope⟩
          ⟨field, true, [], scope.closed⟩ := ⟨rfl, rfl, .nil, rfl⟩
      exact ihrest (hfield.addTo hfound) hcollect
    | @nested field inner inner' rest rest' hinner _ _ ihrest =>
      rw [collect_cons] at hcollect ⊢
      have hfield : CollectedField.WritesOut fragments ⟨field, false, [inner], scope⟩
          ⟨field, false, [inner'], scope.closed⟩ := ⟨rfl, rfl, .cons hinner .nil, rfl⟩
      exact ihrest (hfield.addTo hfound) hcollect
    | @inlineFragment typeCondition conditions inner inner' rest rest' hinner _ _ ihrest =>
      rw [collect_cons] at hcollect ⊢
      obtain ⟨middle, hfirst, hrest⟩ := bind_eq_ok_iff.1 hcollect
      obtain ⟨middle', hfirst', hmiddle⟩ := ih hinner hfound hfirst
      obtain ⟨collected', hrest', hcollected⟩ := ihrest hmiddle hrest
      rw [Scope.closed_enter] at hfirst'
      exact ⟨collected', bind_eq_ok_iff.2 ⟨middle', hfirst', hrest'⟩, hcollected⟩
    | @fragmentSpread name conditions fragment inner' rest rest' hget hinner _ _ ihrest =>
      rw [collect_cons] at hcollect ⊢
      obtain ⟨middle, hfirst, hrest⟩ := bind_eq_ok_iff.1 hcollect
      rw [collectSelection] at hfirst
      split at hfirst
      · cases hfirst
      · rw [hget] at hfirst
        obtain ⟨middle', hfirst', hmiddle⟩ := ih hinner hfound hfirst
        obtain ⟨collected', hrest', hcollected⟩ := ihrest hmiddle hrest
        have hscope : (scope.enterNamed name fragment conditions).closed
            = scope.closed.enter (some fragment.typeCondition) conditions := rfl
        rw [hscope] at hfirst'
        exact ⟨collected', bind_eq_ok_iff.2 ⟨middle', hfirst', hrest'⟩, hcollected⟩

/-- So it is for a group of selection sets. -/
theorem collectAll_writesOut {levels : Nat} {sets sets' : List (List Selection)}
    (h : List.Forall₂ fragments.WritesOut sets sets') {scope : Scope}
    {found found' collected : List CollectedField}
    (hfound : List.Forall₂ (CollectedField.WritesOut fragments) found found')
    (hcollect : sets.foldlM
      (fun found selections ↦ collect fragments levels selections scope found) found
        = .ok collected) :
    ∃ collected', sets'.foldlM
        (fun found selections ↦ collect [] levels selections scope.closed found) found'
          = .ok collected' ∧
      List.Forall₂ (CollectedField.WritesOut fragments) collected collected' := by
  induction h generalizing found found' with
  | nil =>
    cases hcollect
    exact ⟨found', rfl, hfound⟩
  | cons hfirst _ ih =>
    rw [List.foldlM_cons] at hcollect ⊢
    obtain ⟨middle, hcollectFirst, hcollectRest⟩ := bind_eq_ok_iff.1 hcollect
    obtain ⟨middle', hfirst', hmiddle⟩ := collect_writesOut hfirst hfound hcollectFirst
    obtain ⟨collected', hrest', hcollected⟩ := ih hmiddle hcollectRest
    exact ⟨collected', bind_eq_ok_iff.2 ⟨middle', hfirst', hrest'⟩, hcollected⟩

/-! ### Planning -/

/-- Collected fields have the same plans if the groups below them have. -/
theorem planFields_writesOut
    {planInner planInner' : List (List Selection) → Scope → Nat →
      Except PlanningError (SelectionPlan × Nat)}
    (hbelow : ∀ sets sets' scope next planned, List.Forall₂ fragments.WritesOut sets sets' →
      planInner sets scope next = .ok planned → planInner' sets' scope.closed next = .ok planned)
    {collected collected' : List CollectedField}
    (hcollected : List.Forall₂ (CollectedField.WritesOut fragments) collected collected')
    {next : Nat} {plans : List FieldPlan} {last : Nat}
    (h : planFields planInner collected next = .ok (plans, last)) :
    planFields planInner' collected' next = .ok (plans, last) := by
  induction hcollected generalizing next plans with
  | nil => exact h
  | @cons first first' rest rest' hfirst _ ih =>
    rcases planFields_cons_ok h with ⟨hleaf, others, hrest, rfl⟩ |
      ⟨hleaf, inner, middle, others, hinner, hrest, rfl⟩
    · rw [planFields_leaf (hfirst.isLeaf.trans hleaf), ih hrest, hfirst.planned_eq]
      rfl
    · have hinner' : planInner' first'.selectionSets
          { openFragments := first'.scope.openFragments } next = .ok (inner, middle) := by
        rw [hfirst.scope]
        exact hbelow _ _ _ _ _ hfirst.selectionSets hinner
      rw [planFields_nested_ok (hfirst.isLeaf.trans hleaf) rest' hinner', ih hrest,
        hfirst.planned_eq]
      rfl

/-- A group of selection sets that has a plan has the same one when it is written out. -/
theorem planSelection_writesOut {levels : Nat} {sets sets' : List (List Selection)}
    (h : List.Forall₂ fragments.WritesOut sets sets') {scope : Scope} {next : Nat}
    {plan : SelectionPlan} {last : Nat}
    (hplan : planSelection fragments levels sets scope next = .ok (plan, last)) :
    planSelection [] levels sets' scope.closed next = .ok (plan, last) := by
  induction levels generalizing sets sets' scope next plan last with
  | zero => cases hplan
  | succ levels ih =>
    obtain ⟨inner, collected, hlevels, hcollect, rfl, hfields⟩ := planSelection_ok hplan
    obtain rfl : levels = inner := Nat.succ.inj hlevels
    obtain ⟨collected', hcollect', hcollected⟩ := collectAll_writesOut h .nil hcollect
    rw [planSelection_fields hcollect',
      planFields_writesOut (fun _ _ _ _ _ hsets hinner ↦ ih hsets hinner) hcollected hfields]
    rfl

/-- Named fragments are only abbreviations: selections that have a plan can be written out in
exactly one way, no spread is left then, and they have the same plan without any fragments. -/
theorem planSelections_writesOut {selections : List Selection} {fragments : Fragments}
    {rootType : String} {plan : QueryPlan}
    (h : planSelections selections fragments rootType = .ok plan) :
    ∃ out, (∀ other, fragments.WritesOut selections other ↔ other = out) ∧
      Selection.listSpreadNames out = [] ∧ planSelections out [] rootType = .ok plan := by
  rw [planSelections] at h
  obtain ⟨selection, hroot, hplan⟩ := bind_eq_ok_iff.1 h
  obtain ⟨last, hselection⟩ := planRoot_eq_ok_iff.1 hroot
  have hresolves : ∀ name ∈ Selection.listSpreadNames selections, fragments.Resolves name :=
    fun name hname ↦ planSelection_resolves hselection name (by simpa using hname)
  obtain ⟨out, hout⟩ := Fragments.exists_writesOut hresolves
  refine ⟨out, fun other ↦ ⟨fun hother ↦ hother.unique hout, fun heq ↦ heq ▸ hout⟩,
    hout.listSpreadNames_eq_nil, ?_⟩
  have hselection' := planSelection_writesOut (.cons hout .nil) hselection
  exact bind_eq_ok_iff.2 ⟨selection, planRoot_eq_ok_iff.2 ⟨last, hselection'⟩, hplan⟩

/-- The spread of pets and, inside it, the spread of their owners are written out. -/
theorem planSelections_writesOut_householdSelections :
    ∃ plan, planSelections householdSelections householdFragments "Query" = .ok plan ∧
      ∃ out, (∀ other, householdFragments.WritesOut householdSelections other ↔ other = out) ∧
        Selection.listSpreadNames out = [] ∧ planSelections out [] "Query" = .ok plan := by
  have hplan : ∃ plan, planSelections householdSelections householdFragments "Query" = .ok plan :=
    ⟨_, rfl⟩
  obtain ⟨plan, hok⟩ := hplan
  exact ⟨plan, hok, planSelections_writesOut hok⟩

end Planner

end GraphCache
