import GraphCache.Plan.Builder
import Mathlib.Data.List.Nodup

/-!
# The numbers of selection sets

The planner numbers the selection sets of a plan one after the other, an outer one before those
inside it. So the number of a selection set tells which one it is, however many fields were merged
and however often a fragment was entered. This is what makes it safe to remember a completed entity
under its key and the number of the selection set.

## Main definitions

* `FieldPlan.selections`, `SelectionPlan.selections`: the selection sets in a plan.
* `QueryPlan.Planned`: the plans that the planner builds.
* `QueryPlan.Has`: the fields of a plan.

## Main results

* `Planner.planFields_cons_ok`, `Planner.planSelection_ok`, `Query.plan_eq_ok_iff`: what planning
  comes to.
* `QueryPlan.Planned.selectionIds_eq_range`: the numbers of a plan are `0`, `1`, and so on, in the
  order in which its selection sets are met from the outside in.
* `QueryPlan.Planned.selection_eq_of_id_eq`: selection sets of one plan with the same number are
  the same.
-/

namespace GraphCache

namespace FieldPlan

mutual

/-- The selection sets below a field, an outer one before the inner ones. -/
def selections : FieldPlan → List SelectionPlan
  | leaf _ => []
  | nested _ id fields => ⟨id, fields⟩ :: listSelections fields

/-- The selection sets below the listed fields, in order. -/
def listSelections : List FieldPlan → List SelectionPlan
  | [] => []
  | plan :: plans => selections plan ++ listSelections plans

end

mutual

theorem map_id_selections (plan : FieldPlan) :
    plan.selections.map SelectionPlan.id = plan.selectionIds := by
  cases plan with
  | leaf field => rfl
  | nested field id fields =>
    rw [selections, selectionIds, List.map_cons, map_id_listSelections fields]

theorem map_id_listSelections (plans : List FieldPlan) :
    (listSelections plans).map SelectionPlan.id = listSelectionIds plans := by
  cases plans with
  | nil => rfl
  | cons plan plans =>
    rw [listSelections, listSelectionIds, List.map_append, map_id_selections plan,
      map_id_listSelections plans]

end

mutual

theorem length_selectionIds (plan : FieldPlan) :
    plan.selectionIds.length = plan.selectionCount := by
  cases plan with
  | leaf field => rfl
  | nested field id fields =>
    rw [selectionIds, selectionCount, List.length_cons, length_listSelectionIds fields,
      Nat.add_comm]

theorem length_listSelectionIds (plans : List FieldPlan) :
    (listSelectionIds plans).length = listSelectionCount plans := by
  cases plans with
  | nil => rfl
  | cons plan plans =>
    rw [listSelectionIds, listSelectionCount, List.length_append, length_selectionIds plan,
      length_listSelectionIds plans]

end

theorem mem_listSelections {selection : SelectionPlan} {plans : List FieldPlan} :
    selection ∈ listSelections plans ↔ ∃ plan ∈ plans, selection ∈ plan.selections := by
  induction plans with
  | nil => simp [listSelections]
  | cons plan plans ih => simp [listSelections, ih]

theorem mem_listSelections_of_mem {id : Nat} {field : PlannedField} {fields : List FieldPlan}
    {plans : List FieldPlan} (h : nested field id fields ∈ plans) :
    ⟨id, fields⟩ ∈ listSelections plans :=
  mem_listSelections.2 ⟨_, h, List.mem_cons_self⟩

mutual

/-- The selection sets below a field include those of the fields in them. -/
theorem mem_selections_trans {outer inner : SelectionPlan} (plan : FieldPlan)
    (houter : outer ∈ plan.selections) (hinner : inner ∈ listSelections outer.fields) :
    inner ∈ plan.selections := by
  cases plan with
  | leaf field => simp [selections] at houter
  | nested field id fields =>
    rw [selections] at houter ⊢
    rcases List.mem_cons.1 houter with rfl | houter
    · exact List.mem_cons_of_mem _ hinner
    · exact List.mem_cons_of_mem _ (mem_listSelections_trans fields houter hinner)

theorem mem_listSelections_trans {outer inner : SelectionPlan} (plans : List FieldPlan)
    (houter : outer ∈ listSelections plans) (hinner : inner ∈ listSelections outer.fields) :
    inner ∈ listSelections plans := by
  cases plans with
  | nil => simp [listSelections] at houter
  | cons plan plans =>
    rw [listSelections, List.mem_append] at houter ⊢
    rcases houter with houter | houter
    · exact .inl (mem_selections_trans plan houter hinner)
    · exact .inr (mem_listSelections_trans plans houter hinner)

end

end FieldPlan

namespace SelectionPlan

/-- The selection sets in a plan, an outer one before the inner ones. -/
def selections (plan : SelectionPlan) : List SelectionPlan :=
  plan :: FieldPlan.listSelections plan.fields

theorem map_id_selections (plan : SelectionPlan) :
    plan.selections.map SelectionPlan.id = plan.selectionIds := by
  rw [selections, List.map_cons, FieldPlan.map_id_listSelections, selectionIds]

theorem length_selectionIds (plan : SelectionPlan) :
    plan.selectionIds.length = plan.selectionCount := by
  rw [selectionIds, selectionCount, List.length_cons, FieldPlan.length_listSelectionIds,
    Nat.add_comm]

theorem self_mem_selections (plan : SelectionPlan) : plan ∈ plan.selections :=
  List.mem_cons_self

/-- The selection sets in a plan include those of the fields in them. -/
theorem nested_mem_selections {plan outer : SelectionPlan} (houter : outer ∈ plan.selections)
    {field : PlannedField} {id : Nat} {fields : List FieldPlan}
    (hfield : .nested field id fields ∈ outer.fields) : ⟨id, fields⟩ ∈ plan.selections := by
  have hinner := FieldPlan.mem_listSelections_of_mem hfield
  rcases List.mem_cons.1 houter with rfl | houter
  · exact List.mem_cons_of_mem _ hinner
  · exact List.mem_cons_of_mem _ (FieldPlan.mem_listSelections_trans _ houter hinner)

end SelectionPlan

namespace Planner

/-- The numbers given out by a step of the planner, which takes the next number and returns the one
after the last that it gave out. -/
def Consecutive (ids : List Nat) (next last : Nat) : Prop :=
  next ≤ last ∧ ids = List.range' next (last - next)

theorem Consecutive.append {ids more : List Nat} {next middle last : Nat}
    (hids : Consecutive ids next middle) (hmore : Consecutive more middle last) :
    Consecutive (ids ++ more) next last := by
  obtain ⟨hle, rfl⟩ := hids
  obtain ⟨hle', rfl⟩ := hmore
  refine ⟨Nat.le_trans hle hle', ?_⟩
  have hmiddle : middle = next + (middle - next) := by omega
  have hlast : last - next = (middle - next) + (last - middle) := by omega
  rw [hlast, ← List.range'_append_1, ← hmiddle]

theorem Consecutive.cons {ids : List Nat} {next last : Nat}
    (hids : Consecutive ids (next + 1) last) : Consecutive (next :: ids) next last := by
  have hnext : Consecutive [next] next (next + 1) := ⟨by omega, by simp⟩
  exact hnext.append hids

section Bind

variable {α β : Type} {x : Except PlanningError α} {next : α → Except PlanningError β}

theorem bind_eq_ok_iff {value : β} :
    x >>= next = .ok value ↔ ∃ first, x = .ok first ∧ next first = .ok value := by
  cases x with
  | error error => simp [bind, Except.bind]
  | ok first => simp [bind, Except.bind]

theorem bind_eq_error_iff {error : PlanningError} :
    x >>= next = .error error ↔
      x = .error error ∨ ∃ first, x = .ok first ∧ next first = .error error := by
  cases x with
  | error error => simp [bind, Except.bind]
  | ok first => simp [bind, Except.bind]

end Bind

/-- What planning fields one after the other comes to: the first one is a leaf, or its nested
selections are planned before the other fields. -/
theorem planFields_cons_ok
    {planInner : List (List Selection) → Scope → Nat →
      Except PlanningError (SelectionPlan × Nat)}
    {first : CollectedField} {rest : List CollectedField} {next : Nat} {plans : List FieldPlan}
    {last : Nat} (h : planFields planInner (first :: rest) next = .ok (plans, last)) :
    (first.isLeaf = true ∧ ∃ others, planFields planInner rest next = .ok (others, last) ∧
        plans = .leaf first.planned :: others) ∨
      first.isLeaf = false ∧ ∃ inner middle others,
        planInner first.selectionSets { openFragments := first.scope.openFragments } next
            = .ok (inner, middle) ∧
          planFields planInner rest middle = .ok (others, last) ∧
          plans = .nested first.planned inner.id inner.fields :: others := by
  rw [planFields] at h
  split at h
  · next hleaf =>
    obtain ⟨⟨others, _⟩, hrest, hplans⟩ := bind_eq_ok_iff.1 h
    cases hplans
    exact .inl ⟨hleaf, others, hrest, rfl⟩
  · next hleaf =>
    obtain ⟨⟨inner, middle⟩, hinner, h⟩ := bind_eq_ok_iff.1 h
    obtain ⟨⟨others, _⟩, hrest, hplans⟩ := bind_eq_ok_iff.1 h
    cases hplans
    exact .inr ⟨Bool.eq_false_iff.2 hleaf, inner, middle, others, hinner, hrest, rfl⟩

/-- What planning a group of selection sets comes to: it takes the next number, and the fields that
are collected from it are planned with the levels that remain. -/
theorem planSelection_ok {fragments : Fragments} {levels : Nat}
    {selectionSets : List (List Selection)} {scope : Scope} {next : Nat} {plan : SelectionPlan}
    {last : Nat} (h : planSelection fragments levels selectionSets scope next = .ok (plan, last)) :
    ∃ inner collected, levels = inner + 1 ∧
      selectionSets.foldlM (fun found selections => collect fragments levels selections scope found)
        [] = .ok collected ∧
      plan.id = next ∧
      planFields (planSelection fragments inner) collected (next + 1)
        = .ok (plan.fields, last) := by
  cases levels with
  | zero => cases h
  | succ levels =>
    rw [planSelection] at h
    obtain ⟨collected, hcollect, h⟩ := bind_eq_ok_iff.1 h
    obtain ⟨⟨fields, _⟩, hfields, hplan⟩ := bind_eq_ok_iff.1 h
    cases hplan
    exact ⟨levels, collected, rfl, hcollect, rfl, hfields⟩

/-- Planning fields one after the other numbers consecutively if planning each of them does. -/
theorem planFields_consecutive
    {planInner : List (List Selection) → Scope → Nat →
      Except PlanningError (SelectionPlan × Nat)}
    (hinner : ∀ selectionSets scope next plan last,
      planInner selectionSets scope next = .ok (plan, last) →
        Consecutive plan.selectionIds next last)
    (collected : List CollectedField) (next : Nat) (plans : List FieldPlan) (last : Nat)
    (h : planFields planInner collected next = .ok (plans, last)) :
    Consecutive (FieldPlan.listSelectionIds plans) next last := by
  induction collected generalizing next plans with
  | nil =>
    simp only [planFields, Except.ok.injEq, Prod.mk.injEq] at h
    obtain ⟨rfl, rfl⟩ := h
    exact ⟨Nat.le_refl _, by simp [FieldPlan.listSelectionIds]⟩
  | cons first rest ih =>
    rcases planFields_cons_ok h with ⟨-, others, hrest, rfl⟩ |
      ⟨-, inner, middle, others, hfirst, hrest, rfl⟩
    · simpa [FieldPlan.listSelectionIds, FieldPlan.selectionIds] using ih _ _ hrest
    · exact (hinner _ _ _ _ _ hfirst).append (ih _ _ hrest)

/-- A group of selection sets and those inside it get consecutive numbers. -/
theorem planSelection_consecutive (fragments : Fragments) (levels : Nat)
    (selectionSets : List (List Selection)) (scope : Scope) (next : Nat) (plan : SelectionPlan)
    (last : Nat) (h : planSelection fragments levels selectionSets scope next = .ok (plan, last)) :
    Consecutive plan.selectionIds next last := by
  induction levels generalizing selectionSets scope next plan last with
  | zero =>
    obtain ⟨inner, _, hlevels, _⟩ := planSelection_ok h
    omega
  | succ levels ih =>
    obtain ⟨inner, collected, hlevels, -, rfl, hfields⟩ := planSelection_ok h
    obtain rfl : levels = inner := by omega
    exact (planFields_consecutive ih collected _ _ _ hfields).cons

/-- A root selection set has a plan if it has one as a group, with all levels left. -/
theorem planRoot_eq_ok_iff {fragments : Fragments} {selections : List Selection}
    {rootType : String} {plan : SelectionPlan} :
    planRoot fragments selections rootType = .ok plan ↔ ∃ last,
      planSelection fragments (recursionLimit + 1) [selections] { parentType := some rootType } 0
        = .ok (plan, last) := by
  rw [planRoot]
  constructor
  · intro h
    obtain ⟨⟨plan, last⟩, hplan, heq⟩ := bind_eq_ok_iff.1 h
    cases heq
    exact ⟨last, hplan⟩
  · rintro ⟨last, hplan⟩
    exact bind_eq_ok_iff.2 ⟨_, hplan, rfl⟩

/-- The numbers of a plan are consecutive, starting with `0`. -/
theorem planRoot_selectionIds {fragments : Fragments} {selections : List Selection}
    {rootType : String} {plan : SelectionPlan}
    (h : planRoot fragments selections rootType = .ok plan) :
    ∃ count, plan.selectionIds = List.range' 0 count := by
  obtain ⟨last, hplan⟩ := planRoot_eq_ok_iff.1 h
  exact ⟨_, (planSelection_consecutive _ _ _ _ _ _ _ hplan).2⟩

end Planner

/-- An operation has a plan if it is not a subscription and its selections have one. -/
theorem Query.plan_eq_ok_iff {query : Query} {operationName : Option String} {plan : QueryPlan} :
    query.plan operationName = .ok plan ↔ ∃ operation selection,
      query.operation operationName = .ok operation ∧ operation.kind ≠ .subscription ∧
        Planner.planRoot query.fragments operation.selections operation.kind.rootType
          = .ok selection ∧
        plan = ⟨operation.kind, operation.name, operation.kind.rootType,
          operation.variableDefaults, selection⟩ := by
  rw [Query.plan]
  constructor
  · intro h
    obtain ⟨operation, hoperation, h⟩ := Planner.bind_eq_ok_iff.1 h
    split at h
    · cases h
    · next hkind =>
      obtain ⟨selection, hselection, heq⟩ := Planner.bind_eq_ok_iff.1 h
      cases heq
      exact ⟨operation, selection, hoperation, hkind, hselection, rfl⟩
  · rintro ⟨operation, selection, hoperation, hkind, hselection, rfl⟩
    refine Planner.bind_eq_ok_iff.2 ⟨operation, hoperation, ?_⟩
    rw [if_neg hkind]
    exact Planner.bind_eq_ok_iff.2 ⟨selection, hselection, rfl⟩

namespace QueryPlan

/-- The plans that the planner builds: of the operations of a query, and of bare selection sets. -/
inductive Planned : QueryPlan → Prop where
  | ofQuery {query : Query} {operationName : Option String} {plan : QueryPlan}
      (h : query.plan operationName = .ok plan) : Planned plan
  | ofSelections {selections : List Selection} {fragments : Fragments} {rootType : String}
      {plan : QueryPlan} (h : planSelections selections fragments rootType = .ok plan) :
      Planned plan

/-- The plan has the field in one of its selection sets. -/
def Has (plan : QueryPlan) (fieldPlan : FieldPlan) : Prop :=
  ∃ selection ∈ plan.selection.selections, fieldPlan ∈ selection.fields

theorem has_of_mem {plan : QueryPlan} {id : Nat} {fields : List FieldPlan}
    (hfields : ⟨id, fields⟩ ∈ plan.selection.selections) {fieldPlan : FieldPlan}
    (h : fieldPlan ∈ fields) : plan.Has fieldPlan :=
  ⟨⟨id, fields⟩, hfields, h⟩

theorem has_root {plan : QueryPlan} {fieldPlan : FieldPlan}
    (h : fieldPlan ∈ plan.selection.fields) : plan.Has fieldPlan :=
  ⟨plan.selection, plan.selection.self_mem_selections, h⟩

theorem forall_has_iff {plan : QueryPlan} {p : FieldPlan → Prop} :
    (∀ fieldPlan, plan.Has fieldPlan → p fieldPlan) ↔
      ∀ selection ∈ plan.selection.selections, ∀ fieldPlan ∈ selection.fields, p fieldPlan :=
  ⟨fun h selection hselection fieldPlan hmem ↦ h fieldPlan ⟨selection, hselection, hmem⟩,
    fun h fieldPlan ⟨selection, hselection, hmem⟩ ↦ h selection hselection fieldPlan hmem⟩

/-- The nested selections of a field of the plan are one of its selection sets. -/
theorem Has.mem_selections {plan : QueryPlan} {field : PlannedField} {id : Nat}
    {fields : List FieldPlan} (h : plan.Has (.nested field id fields)) :
    ⟨id, fields⟩ ∈ plan.selection.selections := by
  obtain ⟨selection, hselection, hmem⟩ := h
  exact SelectionPlan.nested_mem_selections hselection hmem

theorem Has.inner {plan : QueryPlan} {field : PlannedField} {id : Nat} {fields : List FieldPlan}
    (h : plan.Has (.nested field id fields)) {fieldPlan : FieldPlan} (hmem : fieldPlan ∈ fields) :
    plan.Has fieldPlan :=
  has_of_mem h.mem_selections hmem

/-- The root selection set of a plan was planned as such. -/
theorem Planned.planRoot {plan : QueryPlan} (h : plan.Planned) :
    ∃ fragments selections, Planner.planRoot fragments selections plan.rootType
      = .ok plan.selection := by
  cases h with
  | ofQuery h =>
    obtain ⟨_, _, -, -, hroot, rfl⟩ := Query.plan_eq_ok_iff.1 h
    exact ⟨_, _, hroot⟩
  | ofSelections h =>
    rw [planSelections] at h
    obtain ⟨_, hroot, heq⟩ := Planner.bind_eq_ok_iff.1 h
    cases heq
    exact ⟨_, _, hroot⟩

/-- The numbers of a plan, each outer one before the inner ones, are `0`, `1`, and so on. -/
theorem Planned.selectionIds_eq_range {plan : QueryPlan} (h : plan.Planned) :
    plan.selection.selectionIds = List.range plan.selectionCount := by
  obtain ⟨fragments, selections, hroot⟩ := h.planRoot
  obtain ⟨count, hids⟩ := Planner.planRoot_selectionIds hroot
  have hcount : plan.selectionCount = count := by
    rw [selectionCount, ← SelectionPlan.length_selectionIds, hids, List.length_range']
  rw [hids, hcount, List.range_eq_range']

theorem Planned.nodup_selectionIds {plan : QueryPlan} (h : plan.Planned) :
    plan.selection.selectionIds.Nodup := by
  rw [h.selectionIds_eq_range]
  exact List.nodup_range

/-- Selection sets of one plan with the same number are the same. -/
theorem Planned.selection_eq_of_id_eq {plan : QueryPlan} (h : plan.Planned)
    {a b : SelectionPlan} (ha : a ∈ plan.selection.selections)
    (hb : b ∈ plan.selection.selections) (hid : a.id = b.id) : a = b := by
  have hnodup := h.nodup_selectionIds
  rw [← SelectionPlan.map_id_selections] at hnodup
  exact List.inj_on_of_nodup_map hnodup ha hb hid

end QueryPlan

/-- Selections of which a plan is made get their numbers from the outside in and from first to
last: each selection set is numbered before those of its fields, and the numbers are all those
below the number of selection sets. So no two selection sets have the same number. -/
theorem planSelections_selectionIds {selections : List Selection} {fragments : Fragments}
    {rootType : String} {plan : QueryPlan}
    (h : planSelections selections fragments rootType = .ok plan) :
    plan.selection.selectionIds = List.range plan.selectionCount ∧
      plan.selection.selections.Pairwise fun a b => a.id ≠ b.id := by
  have hplanned : plan.Planned := .ofSelections h
  have hnodup := hplanned.nodup_selectionIds
  rw [← SelectionPlan.map_id_selections] at hnodup
  exact ⟨hplanned.selectionIds_eq_range, List.pairwise_map.1 hnodup⟩

/-- What is asked about a pet. -/
def toyFragments : Fragments :=
  [("Pet", ⟨"Pet", [.nested { name := "toys" } [.leaf { name := "name" }]]⟩)]

/-- Asks for a pet twice and for its friend; the two requests for the pet are merged. -/
def playmateSelections : List Selection :=
  [.nested { name := "pet" }
      [.fragmentSpread "Pet" .unconditional, .nested { name := "home" } [.leaf { name := "city" }]],
    .nested { name := "friend" } [.fragmentSpread "Pet" .unconditional],
    .nested { name := "pet" }
      [.fragmentSpread "Pet" .unconditional,
        .nested { name := "home" } [.leaf { name := "street" }]]]

theorem planSelections_selectionIds_playmateSelections :
    ∃ plan, planSelections playmateSelections toyFragments "Query" = .ok plan ∧
      plan.selection.selectionIds = [0, 1, 2, 3, 4, 5] ∧
      plan.selection.selections.Pairwise fun a b => a.id ≠ b.id := by
  have hplan : ∃ plan, planSelections playmateSelections toyFragments "Query" = .ok plan ∧
      plan.selectionCount = 6 := ⟨_, rfl, rfl⟩
  obtain ⟨plan, hok, hcount⟩ := hplan
  obtain ⟨hids, hapart⟩ := planSelections_selectionIds hok
  rw [hcount] at hids
  exact ⟨plan, hok, hids, hapart⟩

end GraphCache
