import GraphCache.Proofs.FragmentGraph

/-!
# Runs of the planner

A run of the planner is a finite tree of calls. A call counts how deep it is, and the only thing it
does with this number is to compare it with the limit; nothing else is said in advance about how
long the run may be. Every call has a run all the same, whatever the graph of fragments looks like,
and it comes to what the planner answers.

## Main definitions

* `Planner.Collects`, `Planner.CollectsAll`: runs that collect the fields of a selection set and of
  a group.
* `Planner.Plans`, `Planner.PlansFields`: runs that plan a group and the fields collected from one.

## Main results

* `Planner.collects_collect`, `Planner.plans_iff`: runs come to what the planner answers.
* `Planner.planSelections_terminates_resolved`: planning ends; if it ends with a plan, the
  selections lead to defined fragments only, and to none that leads back to itself.
-/

namespace GraphCache

namespace Planner

/-- A finite run that collects the fields of a selection set at a depth, with its outcome. -/
inductive Collects (fragments : Fragments) : Nat → List Selection → Scope → List CollectedField →
    Except PlanningError (List CollectedField) → Prop where
  | tooDeep {depth : Nat} {selections : List Selection} {scope : Scope}
      {found : List CollectedField} (hdepth : recursionLimit < depth) :
      Collects fragments depth selections scope found Planner.tooDeep
  | nil {depth : Nat} {scope : Scope} {found : List CollectedField}
      (hdepth : depth ≤ recursionLimit) :
      Collects fragments depth [] scope found (.ok found)
  | leaf {depth : Nat} {field : SelectedField} {rest : List Selection} {scope : Scope}
      {found : List CollectedField} {outcome : Except PlanningError (List CollectedField)}
      (hdepth : depth ≤ recursionLimit)
      (hrest : Collects fragments depth rest scope
        (CollectedField.addTo ⟨field, true, [], scope⟩ found) outcome) :
      Collects fragments depth (.leaf field :: rest) scope found outcome
  | nested {depth : Nat} {field : SelectedField} {selections rest : List Selection} {scope : Scope}
      {found : List CollectedField} {outcome : Except PlanningError (List CollectedField)}
      (hdepth : depth ≤ recursionLimit)
      (hrest : Collects fragments depth rest scope
        (CollectedField.addTo ⟨field, false, [selections], scope⟩ found) outcome) :
      Collects fragments depth (.nested field selections :: rest) scope found outcome
  | inlineFragment {depth : Nat} {typeCondition : Option String} {conditions : IncludeSkip}
      {selections rest : List Selection} {scope : Scope} {found middle : List CollectedField}
      {outcome : Except PlanningError (List CollectedField)} (hdepth : depth ≤ recursionLimit)
      (hinner : Collects fragments (depth + 1) selections (scope.enter typeCondition conditions)
        found (.ok middle))
      (hrest : Collects fragments depth rest scope middle outcome) :
      Collects fragments depth (.inlineFragment typeCondition conditions selections :: rest) scope
        found outcome
  | inlineFragmentError {depth : Nat} {typeCondition : Option String} {conditions : IncludeSkip}
      {selections rest : List Selection} {scope : Scope} {found : List CollectedField}
      {error : PlanningError} (hdepth : depth ≤ recursionLimit)
      (hinner : Collects fragments (depth + 1) selections (scope.enter typeCondition conditions)
        found (.error error)) :
      Collects fragments depth (.inlineFragment typeCondition conditions selections :: rest) scope
        found (.error error)
  | recursiveFragment {depth : Nat} {name : String} {conditions : IncludeSkip}
      {rest : List Selection} {scope : Scope} {found : List CollectedField}
      (hdepth : depth ≤ recursionLimit) (hopen : name ∈ scope.openFragments) :
      Collects fragments depth (.fragmentSpread name conditions :: rest) scope found
        (.error (.recursiveFragment name))
  | unknownFragment {depth : Nat} {name : String} {conditions : IncludeSkip}
      {rest : List Selection} {scope : Scope} {found : List CollectedField}
      (hdepth : depth ≤ recursionLimit) (hopen : name ∉ scope.openFragments)
      (hget : Dict.get? fragments name = none) :
      Collects fragments depth (.fragmentSpread name conditions :: rest) scope found
        (.error (.unknownFragment name))
  | fragmentSpread {depth : Nat} {name : String} {conditions : IncludeSkip} {fragment : Fragment}
      {rest : List Selection} {scope : Scope} {found middle : List CollectedField}
      {outcome : Except PlanningError (List CollectedField)} (hdepth : depth ≤ recursionLimit)
      (hopen : name ∉ scope.openFragments) (hget : Dict.get? fragments name = some fragment)
      (hinner : Collects fragments (depth + 1) fragment.selections
        (scope.enterNamed name fragment conditions) found (.ok middle))
      (hrest : Collects fragments depth rest scope middle outcome) :
      Collects fragments depth (.fragmentSpread name conditions :: rest) scope found outcome
  | fragmentSpreadError {depth : Nat} {name : String} {conditions : IncludeSkip}
      {fragment : Fragment} {rest : List Selection} {scope : Scope} {found : List CollectedField}
      {error : PlanningError} (hdepth : depth ≤ recursionLimit)
      (hopen : name ∉ scope.openFragments) (hget : Dict.get? fragments name = some fragment)
      (hinner : Collects fragments (depth + 1) fragment.selections
        (scope.enterNamed name fragment conditions) found (.error error)) :
      Collects fragments depth (.fragmentSpread name conditions :: rest) scope found (.error error)

/-- A finite run that collects the fields of a group of selection sets, one set after the other. -/
inductive CollectsAll (fragments : Fragments) (depth : Nat) (scope : Scope) :
    List (List Selection) → List CollectedField →
      Except PlanningError (List CollectedField) → Prop where
  | nil {found : List CollectedField} : CollectsAll fragments depth scope [] found (.ok found)
  | cons {selections : List Selection} {rest : List (List Selection)}
      {found middle : List CollectedField} {outcome : Except PlanningError (List CollectedField)}
      (hfirst : Collects fragments depth selections scope found (.ok middle))
      (hrest : CollectsAll fragments depth scope rest middle outcome) :
      CollectsAll fragments depth scope (selections :: rest) found outcome
  | consError {selections : List Selection} {rest : List (List Selection)}
      {found : List CollectedField} {error : PlanningError}
      (hfirst : Collects fragments depth selections scope found (.error error)) :
      CollectsAll fragments depth scope (selections :: rest) found (.error error)

mutual

/-- A finite run that plans a group of selection sets at a depth, with its outcome. -/
inductive Plans (fragments : Fragments) : Nat → List (List Selection) → Scope → Nat →
    Except PlanningError (SelectionPlan × Nat) → Prop where
  | tooDeep {depth : Nat} {selectionSets : List (List Selection)} {scope : Scope} {next : Nat}
      (hdepth : recursionLimit < depth) :
      Plans fragments depth selectionSets scope next Planner.tooDeep
  | collectError {depth : Nat} {selectionSets : List (List Selection)} {scope : Scope}
      {next : Nat} {error : PlanningError} (hdepth : depth ≤ recursionLimit)
      (hcollect : CollectsAll fragments depth scope selectionSets [] (.error error)) :
      Plans fragments depth selectionSets scope next (.error error)
  | fields {depth : Nat} {selectionSets : List (List Selection)} {scope : Scope} {next : Nat}
      {collected : List CollectedField} {outcome : Except PlanningError (List FieldPlan × Nat)}
      (hdepth : depth ≤ recursionLimit)
      (hcollect : CollectsAll fragments depth scope selectionSets [] (.ok collected))
      (hfields : PlansFields fragments depth collected (next + 1) outcome) :
      Plans fragments depth selectionSets scope next
        (outcome.map fun (fields, last) ↦ (⟨next, fields⟩, last))

/-- A finite run that plans the fields collected from a group at a depth, with its outcome. -/
inductive PlansFields (fragments : Fragments) : Nat → List CollectedField → Nat →
    Except PlanningError (List FieldPlan × Nat) → Prop where
  | nil {depth next : Nat} : PlansFields fragments depth [] next (.ok ([], next))
  | leaf {depth : Nat} {collected : CollectedField} {rest : List CollectedField} {next : Nat}
      {outcome : Except PlanningError (List FieldPlan × Nat)} (hleaf : collected.isLeaf = true)
      (hrest : PlansFields fragments depth rest next outcome) :
      PlansFields fragments depth (collected :: rest) next
        (outcome.map fun (plans, last) ↦ (.leaf collected.planned :: plans, last))
  | nestedError {depth : Nat} {collected : CollectedField} {rest : List CollectedField}
      {next : Nat} {error : PlanningError} (hleaf : collected.isLeaf = false)
      (hinner : Plans fragments (depth + 1) collected.selectionSets
        { openFragments := collected.scope.openFragments } next (.error error)) :
      PlansFields fragments depth (collected :: rest) next (.error error)
  | nested {depth : Nat} {collected : CollectedField} {rest : List CollectedField}
      {next middle : Nat} {selection : SelectionPlan}
      {outcome : Except PlanningError (List FieldPlan × Nat)} (hleaf : collected.isLeaf = false)
      (hinner : Plans fragments (depth + 1) collected.selectionSets
        { openFragments := collected.scope.openFragments } next (.ok (selection, middle)))
      (hrest : PlansFields fragments depth rest middle outcome) :
      PlansFields fragments depth (collected :: rest) next
        (outcome.map fun (plans, last) ↦
          (.nested collected.planned selection.id selection.fields :: plans, last))

end

variable {fragments : Fragments} {scope : Scope} {depth : Nat}

/-- The levels that are left at a depth within the limit. -/
theorem levels_eq_succ (h : depth ≤ recursionLimit) :
    recursionLimit + 1 - depth = recursionLimit + 1 - (depth + 1) + 1 := by
  omega

/-- A run that collects comes to what is collected with the levels that are left. -/
theorem Collects.eq_collect {selections : List Selection} {found : List CollectedField}
    {outcome : Except PlanningError (List CollectedField)}
    (h : Collects fragments depth selections scope found outcome) :
    outcome = collect fragments (recursionLimit + 1 - depth) selections scope found := by
  induction h with
  | tooDeep hdepth =>
    rw [Nat.sub_eq_zero_of_le hdepth]
    rfl
  | nil hdepth =>
    rw [levels_eq_succ hdepth]
    rfl
  | leaf hdepth _ ih =>
    rw [ih, levels_eq_succ hdepth, collect_cons]
    rfl
  | nested hdepth _ ih =>
    rw [ih, levels_eq_succ hdepth, collect_cons]
    rfl
  | inlineFragment hdepth _ _ ihinner ihrest =>
    rw [levels_eq_succ hdepth] at ihrest ⊢
    rw [ihrest, collect_cons, collectSelection, ← ihinner]
    rfl
  | inlineFragmentError hdepth _ ihinner =>
    rw [levels_eq_succ hdepth, collect_cons, collectSelection, ← ihinner]
    rfl
  | recursiveFragment hdepth hopen =>
    rw [levels_eq_succ hdepth, collect_cons, collectSelection, if_pos hopen]
    rfl
  | unknownFragment hdepth hopen hget =>
    rw [levels_eq_succ hdepth, collect_cons, collectSelection, if_neg hopen, hget]
    rfl
  | fragmentSpread hdepth hopen hget _ _ ihinner ihrest =>
    rw [levels_eq_succ hdepth] at ihrest ⊢
    rw [ihrest, collect_cons, collectSelection_fragmentSpread hopen hget, ← ihinner]
    rfl
  | fragmentSpreadError hdepth hopen hget _ ihinner =>
    rw [levels_eq_succ hdepth, collect_cons, collectSelection_fragmentSpread hopen hget, ← ihinner]
    rfl

/-- Collecting has a finite run, whatever the fragments. -/
theorem collects_collect (fragments : Fragments) (depth : Nat) (selections : List Selection)
    (scope : Scope) (found : List CollectedField) :
    Collects fragments depth selections scope found
      (collect fragments (recursionLimit + 1 - depth) selections scope found) := by
  -- by induction on the levels that are left, and on the selection set at each level
  induction hlevels : recursionLimit + 1 - depth generalizing depth selections scope found with
  | zero => exact .tooDeep (by omega)
  | succ levels ih =>
    have hdepth : depth ≤ recursionLimit := by omega
    have hinner : recursionLimit + 1 - (depth + 1) = levels := by omega
    induction selections generalizing found with
    | nil => exact .nil hdepth
    | cons selection rest ihrest =>
      rw [collect_cons]
      cases selection with
      | leaf field => exact .leaf hdepth (ihrest _)
      | nested field selections => exact .nested hdepth (ihrest _)
      | inlineFragment typeCondition conditions selections =>
        have hrun := ih (depth + 1) selections (scope.enter typeCondition conditions) found hinner
        rw [collectSelection]
        cases hcollect : collect fragments levels selections (scope.enter typeCondition conditions)
            found with
        | error error => exact .inlineFragmentError hdepth (hcollect ▸ hrun)
        | ok middle => exact .inlineFragment hdepth (hcollect ▸ hrun) (ihrest middle)
      | fragmentSpread name conditions =>
        rw [collectSelection]
        split
        · next hopen => exact .recursiveFragment hdepth hopen
        · next hopen =>
          split
          · next hget => exact .unknownFragment hdepth hopen hget
          · next fragment hget =>
            have hrun := ih (depth + 1) fragment.selections
              (scope.enterNamed name fragment conditions) found hinner
            cases hcollect : collect fragments levels fragment.selections
                (scope.enterNamed name fragment conditions) found with
            | error error => exact .fragmentSpreadError hdepth hopen hget (hcollect ▸ hrun)
            | ok middle =>
              exact .fragmentSpread hdepth hopen hget (hcollect ▸ hrun) (ihrest middle)

/-- A run that collects from a group comes to what is collected from its selection sets. -/
theorem CollectsAll.eq_foldlM {selectionSets : List (List Selection)}
    {found : List CollectedField} {outcome : Except PlanningError (List CollectedField)}
    (h : CollectsAll fragments depth scope selectionSets found outcome) :
    outcome = selectionSets.foldlM (fun found selections ↦
      collect fragments (recursionLimit + 1 - depth) selections scope found) found := by
  induction h with
  | nil => rfl
  | cons hfirst _ ih =>
    rw [List.foldlM_cons, ← hfirst.eq_collect, ih]
    rfl
  | consError hfirst =>
    rw [List.foldlM_cons, ← hfirst.eq_collect]
    rfl

theorem collectsAll_foldlM (fragments : Fragments) (depth : Nat) (scope : Scope)
    (selectionSets : List (List Selection)) (found : List CollectedField) :
    CollectsAll fragments depth scope selectionSets found
      (selectionSets.foldlM (fun found selections ↦
        collect fragments (recursionLimit + 1 - depth) selections scope found) found) := by
  induction selectionSets generalizing found with
  | nil => exact .nil
  | cons selections rest ih =>
    have hrun := collects_collect fragments depth selections scope found
    rw [List.foldlM_cons]
    cases hcollect : collect fragments (recursionLimit + 1 - depth) selections scope found with
    | error error => exact .consError (hcollect ▸ hrun)
    | ok middle => exact .cons (hcollect ▸ hrun) (ih middle)

section PlanFields

variable {planInner : List (List Selection) → Scope → Nat →
  Except PlanningError (SelectionPlan × Nat)} {collected : CollectedField}

theorem planFields_leaf (hleaf : collected.isLeaf = true) (rest : List CollectedField)
    (next : Nat) :
    planFields planInner (collected :: rest) next =
      (planFields planInner rest next).map fun (plans, last) ↦
        (.leaf collected.planned :: plans, last) := by
  rw [planFields, if_pos hleaf]
  cases planFields planInner rest next <;> rfl

theorem planFields_nested_error (hleaf : collected.isLeaf = false) (rest : List CollectedField)
    {next : Nat} {error : PlanningError}
    (hinner : planInner collected.selectionSets
      { openFragments := collected.scope.openFragments } next = .error error) :
    planFields planInner (collected :: rest) next = .error error := by
  rw [planFields, if_neg (by simp [hleaf])]
  exact bind_eq_error_iff.2 (.inl hinner)

theorem planFields_nested_ok (hleaf : collected.isLeaf = false) (rest : List CollectedField)
    {next middle : Nat} {selection : SelectionPlan}
    (hinner : planInner collected.selectionSets
      { openFragments := collected.scope.openFragments } next = .ok (selection, middle)) :
    planFields planInner (collected :: rest) next =
      (planFields planInner rest middle).map fun (plans, last) ↦
        (.nested collected.planned selection.id selection.fields :: plans, last) := by
  rw [planFields, if_neg (by simp [hleaf])]
  dsimp only
  rw [hinner]
  simp only [bind, Except.bind]
  cases planFields planInner rest middle <;> rfl

end PlanFields

section PlanSelection

variable {levels next : Nat} {selectionSets : List (List Selection)}

theorem planSelection_error {error : PlanningError}
    (hcollect : selectionSets.foldlM
      (fun found selections ↦ collect fragments (levels + 1) selections scope found) [] =
        .error error) :
    planSelection fragments (levels + 1) selectionSets scope next = .error error := by
  rw [planSelection, hcollect]
  rfl

theorem planSelection_fields {collected : List CollectedField}
    (hcollect : selectionSets.foldlM
      (fun found selections ↦ collect fragments (levels + 1) selections scope found) [] =
        .ok collected) :
    planSelection fragments (levels + 1) selectionSets scope next =
      (planFields (planSelection fragments levels) collected (next + 1)).map fun (fields, last) ↦
        (⟨next, fields⟩, last) := by
  rw [planSelection, hcollect]
  simp only [bind, Except.bind]
  cases planFields (planSelection fragments levels) collected (next + 1) <;> rfl

end PlanSelection

/-- A run that plans collected fields comes to what the planner answers, if that is so for the
groups below them. -/
theorem PlansFields.eq_planFields {collected : List CollectedField} {next : Nat}
    {outcome : Except PlanningError (List FieldPlan × Nat)}
    (hbelow : ∀ selectionSets scope next outcome,
      Plans fragments (depth + 1) selectionSets scope next outcome →
        outcome =
          planSelection fragments (recursionLimit + 1 - (depth + 1)) selectionSets scope next)
    (h : PlansFields fragments depth collected next outcome) :
    outcome =
      planFields (planSelection fragments (recursionLimit + 1 - (depth + 1))) collected next := by
  induction collected generalizing next outcome with
  | nil =>
    cases h
    rfl
  | cons first rest ih =>
    cases h with
    | leaf hleaf hrest => rw [planFields_leaf hleaf, ← ih hrest]
    | nestedError hleaf hinner =>
      rw [planFields_nested_error hleaf rest (hbelow _ _ _ _ hinner).symm]
    | nested hleaf hinner hrest =>
      rw [planFields_nested_ok hleaf rest (hbelow _ _ _ _ hinner).symm, ← ih hrest]

/-- A run that plans a group comes to what the planner answers with the levels that are left. -/
theorem Plans.eq_planSelection {selectionSets : List (List Selection)} {next : Nat}
    {outcome : Except PlanningError (SelectionPlan × Nat)}
    (h : Plans fragments depth selectionSets scope next outcome) :
    outcome =
      planSelection fragments (recursionLimit + 1 - depth) selectionSets scope next := by
  induction hlevels : recursionLimit + 1 - depth
    generalizing depth selectionSets scope next outcome with
  | zero =>
    cases h with
    | tooDeep => rfl
    | collectError hdepth => omega
    | fields hdepth => omega
  | succ levels ih =>
    have hinner : recursionLimit + 1 - (depth + 1) = levels := by omega
    cases h with
    | tooDeep hdepth => omega
    | collectError hdepth hcollect =>
      have hfound := hcollect.eq_foldlM
      rw [hlevels] at hfound
      rw [planSelection_error hfound.symm]
    | fields hdepth hcollect hfields =>
      have hfound := hcollect.eq_foldlM
      have hplans := hfields.eq_planFields fun _ _ _ _ hplan ↦ hinner ▸ ih hplan hinner
      rw [hlevels] at hfound
      rw [hinner] at hplans
      rw [planSelection_fields hfound.symm, hplans]

/-- Planning collected fields has a finite run if planning the groups below them has one. -/
theorem plansFields_planFields
    (hbelow : ∀ selectionSets scope next, Plans fragments (depth + 1) selectionSets scope next
      (planSelection fragments (recursionLimit + 1 - (depth + 1)) selectionSets scope next))
    (collected : List CollectedField) (next : Nat) :
    PlansFields fragments depth collected next
      (planFields (planSelection fragments (recursionLimit + 1 - (depth + 1))) collected next) := by
  induction collected generalizing next with
  | nil => exact .nil
  | cons first rest ih =>
    cases hleaf : first.isLeaf with
    | true =>
      rw [planFields_leaf hleaf]
      exact .leaf hleaf (ih next)
    | false =>
      have hrun := hbelow first.selectionSets { openFragments := first.scope.openFragments } next
      cases hinner : planSelection fragments (recursionLimit + 1 - (depth + 1))
          first.selectionSets { openFragments := first.scope.openFragments } next with
      | error error =>
        rw [planFields_nested_error hleaf rest hinner]
        exact .nestedError hleaf (hinner ▸ hrun)
      | ok planned =>
        obtain ⟨selection, middle⟩ := planned
        rw [planFields_nested_ok hleaf rest hinner]
        exact .nested hleaf (hinner ▸ hrun) (ih middle)

/-- Planning a group has a finite run, whatever the fragments. -/
theorem plans_planSelection (fragments : Fragments) (depth : Nat)
    (selectionSets : List (List Selection)) (scope : Scope) (next : Nat) :
    Plans fragments depth selectionSets scope next
      (planSelection fragments (recursionLimit + 1 - depth) selectionSets scope next) := by
  induction hlevels : recursionLimit + 1 - depth
    generalizing depth selectionSets scope next with
  | zero => exact .tooDeep (by omega)
  | succ levels ih =>
    have hdepth : depth ≤ recursionLimit := by omega
    have hinner : recursionLimit + 1 - (depth + 1) = levels := by omega
    have hcollect := collectsAll_foldlM fragments depth scope selectionSets []
    rw [hlevels] at hcollect
    cases hcollected : selectionSets.foldlM
        (fun found selections ↦ collect fragments (levels + 1) selections scope found) [] with
    | error error =>
      rw [planSelection_error hcollected]
      exact .collectError hdepth (hcollected ▸ hcollect)
    | ok collected =>
      have hfields : PlansFields fragments depth collected (next + 1)
          (planFields (planSelection fragments levels) collected (next + 1)) :=
        hinner ▸ plansFields_planFields
          (fun selectionSets scope next ↦ hinner ▸ ih (depth + 1) selectionSets scope next hinner)
          collected (next + 1)
      rw [planSelection_fields hcollected]
      exact .fields hdepth (hcollected ▸ hcollect) hfields

/-- Planning a group of selection sets has finite runs only, and one outcome. -/
theorem plans_iff {selectionSets : List (List Selection)} {next : Nat}
    {outcome : Except PlanningError (SelectionPlan × Nat)} :
    Plans fragments depth selectionSets scope next outcome ↔
      outcome = planSelection fragments (recursionLimit + 1 - depth) selectionSets scope next :=
  ⟨Plans.eq_planSelection, fun h ↦ h ▸ plans_planSelection ..⟩

/-- Planning ends for all selections and all fragments, those included that are not defined or lead
back to themselves: there is a finite run, its outcome is the only one, and it is the answer. Where
the answer is a plan, every fragment to which the selections lead is defined, and none leads back to
itself. -/
theorem planSelections_terminates_resolved (selections : List Selection) (fragments : Fragments)
    (rootType : String) :
    (∃ outcome,
      (∀ other, Plans fragments 0 [selections] { parentType := some rootType } 0 other ↔
        other = outcome) ∧
      planSelections selections fragments rootType =
        outcome.map fun (selection, _) ↦ ⟨.query, none, rootType, [], selection⟩) ∧
    ∀ plan, planSelections selections fragments rootType = .ok plan →
      ∀ name, fragments.Leads selections name →
        fragments.Defined name ∧ ¬ fragments.Cyclic name := by
  have hanswer : planSelections selections fragments rootType =
      (planSelection fragments (recursionLimit + 1) [selections] { parentType := some rootType }
        0).map fun (selection, _) ↦ ⟨.query, none, rootType, [], selection⟩ := by
    rw [planSelections, planRoot_eq]
    cases planSelection fragments (recursionLimit + 1) [selections]
      { parentType := some rootType } 0 <;> rfl
  refine ⟨⟨_, fun _ ↦ plans_iff, hanswer⟩, fun plan hplan name hleads ↦ ?_⟩
  obtain ⟨start, hstart, hreach⟩ := hleads
  cases hselection : planSelection fragments (recursionLimit + 1) [selections]
      { parentType := some rootType } 0 with
  | error error =>
    rw [hanswer, hselection] at hplan
    cases hplan
  | ok planned =>
    have hresolves := planSelection_resolves hselection start (by simpa using hstart)
    have hname := hresolves.of_reflTransGen hreach
    exact ⟨hname.defined, hname.acyclic⟩

/-- Fragments of which one is spread in a field of the other. -/
def householdFragments : Fragments :=
  [("Pet", ⟨"Pet", [.nested { name := "owner" } [.fragmentSpread "Person" .unconditional]]⟩),
    ("Person", ⟨"Person", [.leaf { name := "name" }]⟩)]

/-- Selections that lead to both fragments. -/
def householdSelections : List Selection :=
  [.nested { name := "pets" } [.inlineFragment none .unconditional
    [.fragmentSpread "Pet" .unconditional]]]

theorem leads_householdSelections :
    householdFragments.Leads householdSelections "Person" :=
  ⟨"Pet", by decide, .single ⟨_, rfl, by decide⟩⟩

theorem planSelections_terminates_resolved_householdSelections :
    (∃ plan, planSelections householdSelections householdFragments "Query" = .ok plan) ∧
      householdFragments.Leads householdSelections "Person" ∧
      householdFragments.Defined "Person" ∧ ¬ householdFragments.Cyclic "Person" := by
  have hplan : ∃ plan, planSelections householdSelections householdFragments "Query" = .ok plan :=
    ⟨_, rfl⟩
  obtain ⟨plan, hok⟩ := hplan
  exact ⟨⟨plan, hok⟩, leads_householdSelections,
    (planSelections_terminates_resolved householdSelections householdFragments "Query").2 plan hok
      "Person" leads_householdSelections⟩

end Planner

end GraphCache
