import GraphCache.Proofs.PlanningRuns

/-!
# The nesting limits of reading and planning

Three walks count levels, each in its own way. Reading a selection set counts the selections around
a selection, fields and inline fragments alike, and does not look below what is excluded for all
variables. Collecting counts inline fragments only, planning counts fields only, and collecting
starts anew at each field with the levels that planning has left. All the same, without fragment
spreads what can be read can be planned: the levels that reading has counted are enough for both.

## Main definitions

* `Document.Selection.Nests`: how many levels below the outermost selections a selection is, without
  looking below what is excluded for all variables.
* `Selection.Shallow`: selections without fragment spreads that need no more than some levels.

## Main results

* `Selection.ofDocumentSet_eq_error_iff`: reading fails at selections that nest too deeply, and at
  these only.
* `Planner.exists_planSelection`: the levels that selections need are enough for planning them.
* `Query.nesting_limits_agree`: both for an operation.
-/

namespace GraphCache

namespace Document.Selection

/-- The directives at a selection. -/
def directives : Selection → List Directive
  | field _ _ _ directives _ => directives
  | inlineFragment _ directives _ => directives
  | fragmentSpread _ directives => directives

/-- The selections directly inside a selection. -/
def inner : Selection → List Selection
  | field _ _ _ _ selections => selections
  | inlineFragment _ _ selections => selections
  | fragmentSpread _ _ => []

/-- Whether a selection is excluded for all variables. -/
def staticallySkipped (selection : Selection) : Bool :=
  (IncludeSkip.ofDirectives selection.directives).staticallySkipped

mutual

/-- Whether a fragment is spread in a selection, at any depth. -/
def hasSpread : Selection → Bool
  | field _ _ _ _ selections => anySpread selections
  | inlineFragment _ _ selections => anySpread selections
  | fragmentSpread _ _ => true

/-- Whether a fragment is spread in one of the listed selections, at any depth. -/
def anySpread : List Selection → Bool
  | [] => false
  | selection :: selections => selection.hasSpread || anySpread selections

end

theorem anySpread_inner {selection : Selection} (h : selection.hasSpread = false) :
    anySpread selection.inner = false := by
  cases selection with
  | field => exact h
  | inlineFragment => exact h
  | fragmentSpread => rfl

/-- What holds of a selection set if it holds of what is inside its first selection and of the rest
holds of all selection sets. -/
theorem induction_on_sets {motive : List Selection → Prop} (nil : motive [])
    (cons : ∀ selection selections, motive selection.inner → motive selections →
      motive (selection :: selections)) : ∀ selections, motive selections
  | [] => nil
  | field _ _ _ _ inner :: selections =>
    cons _ _ (induction_on_sets nil cons inner) (induction_on_sets nil cons selections)
  | inlineFragment _ _ inner :: selections =>
    cons _ _ (induction_on_sets nil cons inner) (induction_on_sets nil cons selections)
  | fragmentSpread _ _ :: selections => cons _ _ nil (induction_on_sets nil cons selections)

/-- A selection is found some levels below the outermost ones of a selection set, and none of those
around it is excluded for all variables. -/
inductive Nests : Nat → List Selection → Selection → Prop where
  | outermost {selections : List Selection} {selection : Selection}
      (hmem : selection ∈ selections) : Nests 0 selections selection
  | inner {levels : Nat} {selections : List Selection} {outer selection : Selection}
      (hmem : outer ∈ selections) (hskip : outer.staticallySkipped = false)
      (hnests : Nests levels outer.inner selection) : Nests (levels + 1) selections selection

/-- A selection set, at a depth itself, holds a selection beyond a limit, and none of those around
it is excluded for all variables. -/
def ReachesBeyond (limit depth : Nat) (selections : List Selection) : Prop :=
  ∃ levels selection, Nests levels selections selection ∧ limit < depth + levels

variable {limit depth : Nat} {selections : List Selection}

theorem not_reachesBeyond_nil : ¬ ReachesBeyond limit depth [] := by
  rintro ⟨_, _, ⟨hmem⟩ | ⟨hmem, -, -⟩, -⟩
  · cases hmem
  · cases hmem

theorem reachesBeyond_cons {selection : Selection} :
    ReachesBeyond limit depth (selection :: selections) ↔
      (limit < depth ∨ selection.staticallySkipped = false ∧
          ReachesBeyond limit (depth + 1) selection.inner) ∨
        ReachesBeyond limit depth selections := by
  constructor
  · rintro ⟨_, found, hmem | ⟨hmem, hskip, hnests⟩, hdepth⟩
    · exact .inl (.inl hdepth)
    · rcases List.mem_cons.1 hmem with rfl | hmem
      · exact .inl (.inr ⟨hskip, _, found, hnests, by omega⟩)
      · exact .inr ⟨_, found, .inner hmem hskip hnests, hdepth⟩
  · rintro ((hdepth | ⟨hskip, levels, found, hnests, hdepth⟩) | ⟨levels, found, hnests, hdepth⟩)
    · exact ⟨0, selection, .outermost List.mem_cons_self, hdepth⟩
    · exact ⟨levels + 1, found, .inner List.mem_cons_self hskip hnests, by omega⟩
    · refine ⟨levels, found, ?_, hdepth⟩
      cases hnests with
      | outermost hmem => exact .outermost (List.mem_cons_of_mem _ hmem)
      | inner hmem hskip hnests => exact .inner (List.mem_cons_of_mem _ hmem) hskip hnests

end Document.Selection

namespace Selection

open Document.Selection (ReachesBeyond)

/-! ### Reading -/

variable {localDirective : String} {depth : Nat} {error : PlanningError}

/-- What becomes of a selection that counts, given what has become of what is inside it. -/
def prepared (localDirective : String) (found : List Selection) :
    Document.Selection → Option Selection
  | .field name aliasName arguments directives selections =>
    let field := fieldOfDocument localDirective name aliasName arguments directives
    some (if selections.isEmpty then leaf field else nested field found)
  | .inlineFragment typeCondition directives _ =>
    if found.isEmpty then none
    else some (inlineFragment typeCondition (.ofDirectives directives) found)
  | .fragmentSpread name directives => some (fragmentSpread name (.ofDirectives directives))

/-- All selections are read alike: first the depth is checked, then whether they count, and then
what is inside them is read. -/
theorem ofDocument?_eq (selection : Document.Selection) :
    ofDocument? localDirective depth selection =
      if recursionLimit < depth then .error (.recursionLimitExceeded recursionLimit)
      else if selection.staticallySkipped then .ok none
      else (ofDocumentSet localDirective (depth + 1) selection.inner).map
        (prepared localDirective · selection) := by
  cases selection with
  | field name aliasName arguments directives selections =>
    rw [ofDocument?]
    congr 2
    cases selections with
    | nil => rfl
    | cons first rest =>
      simp only [List.isEmpty_cons, Bool.false_eq_true, if_false, Document.Selection.inner]
      cases ofDocumentSet localDirective (depth + 1) (first :: rest) <;> rfl
  | inlineFragment typeCondition directives selections =>
    rw [ofDocument?]
    congr 2
  | fragmentSpread name directives =>
    rw [ofDocument?]
    congr 1
    exact apply_ite Except.ok ..

/-- A selection cannot be read exactly if it is nested too deeply itself, or holds one that is and
counts. -/
theorem ofDocument?_eq_error_iff {selection : Document.Selection}
    (hinner : ofDocumentSet localDirective (depth + 1) selection.inner = .error error ↔
      error = .recursionLimitExceeded recursionLimit ∧
        ReachesBeyond recursionLimit (depth + 1) selection.inner) :
    ofDocument? localDirective depth selection = .error error ↔
      error = .recursionLimitExceeded recursionLimit ∧
        (recursionLimit < depth ∨ selection.staticallySkipped = false ∧
          ReachesBeyond recursionLimit (depth + 1) selection.inner) := by
  rw [ofDocument?_eq]
  by_cases hdepth : recursionLimit < depth
  · rw [if_pos hdepth, Except.error.injEq, eq_comm]
    exact (and_iff_left (.inl hdepth)).symm
  · cases hskip : selection.staticallySkipped with
    | true => simp [hdepth]
    | false =>
      rw [if_neg hdepth, if_neg Bool.false_ne_true]
      cases hset : ofDocumentSet localDirective (depth + 1) selection.inner with
      | error error' => simpa [hset, hdepth, Except.map] using hinner
      | ok found => simpa [hset, hdepth, Except.map] using hinner

/-- A selection set cannot be read exactly if it holds a selection that is nested too deeply and
counts; there is no other error. -/
theorem ofDocumentSet_eq_error_iff {selections : List Document.Selection} :
    ofDocumentSet localDirective depth selections = .error error ↔
      error = .recursionLimitExceeded recursionLimit ∧
        ReachesBeyond recursionLimit depth selections := by
  induction selections using Document.Selection.induction_on_sets generalizing depth error with
  | nil => simp [ofDocumentSet, Document.Selection.not_reachesBeyond_nil]
  | cons selection selections ihinner ihrest =>
    have hfirst {error : PlanningError} :
        ofDocument? localDirective depth selection = .error error ↔
          error = .recursionLimitExceeded recursionLimit ∧
            (recursionLimit < depth ∨ selection.staticallySkipped = false ∧
              ReachesBeyond recursionLimit (depth + 1) selection.inner) :=
      ofDocument?_eq_error_iff ihinner
    rw [ofDocumentSet, Planner.bind_eq_error_iff, Document.Selection.reachesBeyond_cons,
      and_or_left, ← hfirst, ← ihrest]
    cases hread : ofDocument? localDirective depth selection with
    | error error' =>
      -- the rest is not read, and has no other error
      refine ⟨fun h ↦ .inl (h.resolve_right (by simp)), fun h ↦ .inl (h.elim id fun hrest ↦ ?_)⟩
      rw [(hfirst.1 hread).1, (ihrest.1 hrest).1]
    | ok first =>
      cases ofDocumentSet localDirective depth selections <;>
        simp [bind, Except.bind, pure, Except.pure]

/-! ### What has been read -/

/-- Selections without fragment spreads that need no more than some levels. A selection set takes
one level even if it is empty. -/
inductive Shallow : Nat → List Selection → Prop where
  | nil {levels : Nat} : Shallow (levels + 1) []
  | leaf {levels : Nat} {field : SelectedField} {rest : List Selection}
      (hrest : Shallow (levels + 1) rest) : Shallow (levels + 1) (leaf field :: rest)
  | nested {levels : Nat} {field : SelectedField} {selections rest : List Selection}
      (hinner : Shallow levels selections) (hrest : Shallow (levels + 1) rest) :
      Shallow (levels + 1) (nested field selections :: rest)
  | inlineFragment {levels : Nat} {typeCondition : Option String} {conditions : IncludeSkip}
      {selections rest : List Selection} (hinner : Shallow levels selections)
      (hrest : Shallow (levels + 1) rest) :
      Shallow (levels + 1) (inlineFragment typeCondition conditions selections :: rest)

namespace Shallow

variable {levels more : Nat} {selections others : List Selection}

theorem succ (h : Shallow levels selections) : Shallow (levels + 1) selections := by
  induction h with
  | nil => exact .nil
  | leaf _ ih => exact .leaf ih
  | nested _ _ ihinner ihrest => exact .nested ihinner ihrest
  | inlineFragment _ _ ihinner ihrest => exact .inlineFragment ihinner ihrest

theorem mono (h : Shallow levels selections) (hle : levels ≤ more) : Shallow more selections := by
  induction hle with
  | refl => exact h
  | step _ ih => exact ih.succ

theorem append (h : Shallow levels selections) (hothers : Shallow levels others) :
    Shallow levels (selections ++ others) := by
  induction h with
  | nil => exact hothers
  | leaf _ ih => exact .leaf (ih hothers)
  | nested hinner _ _ ih => exact .nested hinner (ih hothers)
  | inlineFragment hinner _ _ ih => exact .inlineFragment hinner (ih hothers)

end Shallow

/-- Where there is something to read, the depth is within the limit. -/
theorem depth_le_of_ofDocumentSet {selections : List Document.Selection} {found : List Selection}
    (h : ofDocumentSet localDirective depth selections = .ok found) (hne : selections ≠ []) :
    depth ≤ recursionLimit := by
  by_contra hdepth
  obtain ⟨selection, hmem⟩ := List.exists_mem_of_ne_nil _ hne
  have herror : ofDocumentSet localDirective depth selections
      = .error (.recursionLimitExceeded recursionLimit) :=
    ofDocumentSet_eq_error_iff.2 ⟨rfl, 0, selection, .outermost hmem, Nat.lt_of_not_le hdepth⟩
  cases h.symm.trans herror

/-- A selection that has been read needs one level more than what is inside it. Where nothing is
inside, no level need be left for it. -/
theorem shallow_prepared {levels : Nat} {selection : Document.Selection} {found : List Selection}
    (hspread : selection.hasSpread = false)
    (hinner : selection.inner ≠ [] → Shallow levels found)
    (hnil : selection.inner = [] → found = []) :
    Shallow (levels + 1) (prepared localDirective found selection).toList := by
  cases selection with
  | field name aliasName arguments directives selections =>
    rw [prepared]
    cases selections with
    | nil => exact .leaf .nil
    | cons first rest => exact .nested (hinner (List.cons_ne_nil _ _)) .nil
  | inlineFragment typeCondition directives selections =>
    rw [prepared]
    cases found with
    | nil => exact .nil
    | cons first rest =>
      exact .inlineFragment (hinner fun hempty ↦ List.cons_ne_nil _ _ (hnil hempty)) .nil
  | fragmentSpread name directives => cases hspread

/-- What has been read at a depth nests within the levels that are left there. -/
theorem shallow_ofDocumentSet {levels : Nat} {selections : List Document.Selection}
    {found : List Selection} (hspread : Document.Selection.anySpread selections = false)
    (hlevels : depth + levels = recursionLimit)
    (h : ofDocumentSet localDirective depth selections = .ok found) :
    Shallow (levels + 1) found := by
  induction selections using Document.Selection.induction_on_sets
    generalizing depth levels found with
  | nil =>
    cases h
    exact .nil
  | cons selection selections ihinner ihrest =>
    obtain ⟨hfirst, hspread⟩ := Bool.or_eq_false_iff.1 hspread
    rw [ofDocumentSet] at h
    obtain ⟨first, hread, h⟩ := Planner.bind_eq_ok_iff.1 h
    obtain ⟨rest, hrest, h⟩ := Planner.bind_eq_ok_iff.1 h
    cases h
    refine .append ?_ (ihrest hspread hlevels hrest)
    rw [ofDocument?_eq, if_neg (by omega)] at hread
    split at hread
    · cases hread
      exact .nil
    · cases hset : ofDocumentSet localDirective (depth + 1) selection.inner with
      | error error =>
        rw [hset] at hread
        cases hread
      | ok found =>
        rw [hset] at hread
        cases hread
        refine shallow_prepared hfirst (fun hne ↦ ?_) fun hempty ↦ ?_
        · have hdepth := depth_le_of_ofDocumentSet hset hne
          obtain ⟨levels, rfl⟩ : ∃ inner, levels = inner + 1 := ⟨levels - 1, by omega⟩
          exact ihinner (Document.Selection.anySpread_inner hfirst) (by omega) hset
        · rw [hempty] at hset
          cases hset
          rfl

end Selection

/-! ### Planning -/

namespace CollectedField

open Selection (Shallow)

/-- The nested selections of a collected field nest within some levels, and there are some unless
the field is a leaf. -/
structure NestsShallow (levels : Nat) (collected : CollectedField) : Prop where
  shallow : ∀ selections ∈ collected.selectionSets, Shallow levels selections
  nonempty : collected.isLeaf = false → collected.selectionSets ≠ []

variable {levels : Nat} {found : CollectedField}

theorem nestsShallow_addTo {collected : List CollectedField} (hfound : found.NestsShallow levels)
    (h : ∀ field ∈ collected, NestsShallow levels field) :
    ∀ field ∈ found.addTo collected, NestsShallow levels field := by
  induction collected with
  | nil => exact List.forall_mem_singleton.2 hfound
  | cons first rest ih =>
    obtain ⟨hfirst, hrest⟩ := List.forall_mem_cons.1 h
    rw [addTo]
    split
    · refine List.forall_mem_cons.2 ⟨⟨?_, fun hleaf hempty ↦ ?_⟩, hrest⟩
      · exact List.forall_mem_append.2 ⟨hfirst.shallow, hfound.shallow⟩
      · exact hfirst.nonempty hleaf (List.append_eq_nil_iff.1 hempty).1
    · exact List.forall_mem_cons.2 ⟨hfirst, ih hrest⟩

end CollectedField

namespace Planner

open Selection (Shallow)
open CollectedField (NestsShallow nestsShallow_addTo)

variable {levels : Nat}

/-- Collecting from selections that nest within the levels succeeds, and what is nested in the
fields needs one level less. -/
theorem exists_collect (fragments : Fragments) (scope : Scope) {more : Nat}
    {selections : List Selection} {found : List CollectedField}
    (h : Shallow levels selections) (hle : levels ≤ more + 1)
    (hfound : ∀ field ∈ found, NestsShallow more field) :
    ∃ collected, collect fragments levels selections scope found = .ok collected ∧
      ∀ field ∈ collected, NestsShallow more field := by
  induction h generalizing scope found with
  | nil => exact ⟨found, rfl, hfound⟩
  | leaf _ ih =>
    rw [collect_cons]
    exact ih scope hle (nestsShallow_addTo ⟨List.forall_mem_nil _, nofun⟩ hfound)
  | nested hinner _ _ ih =>
    rw [collect_cons]
    refine ih scope hle (nestsShallow_addTo ⟨?_, fun _ ↦ List.cons_ne_nil _ _⟩ hfound)
    exact List.forall_mem_singleton.2 (hinner.mono (by omega))
  | @inlineFragment _ typeCondition conditions selections rest _ _ ihinner ih =>
    obtain ⟨middle, hmiddle, hshallow⟩ :=
      ihinner (scope.enter typeCondition conditions) (by omega) hfound
    rw [collect_cons, collectSelection, hmiddle]
    exact ih scope hle hshallow

theorem exists_collectAll (fragments : Fragments) (scope : Scope) {more : Nat}
    {selectionSets : List (List Selection)} {found : List CollectedField}
    (h : ∀ selections ∈ selectionSets, Shallow levels selections) (hle : levels ≤ more + 1)
    (hfound : ∀ field ∈ found, NestsShallow more field) :
    ∃ collected, selectionSets.foldlM
        (fun found selections ↦ collect fragments levels selections scope found) found
          = .ok collected ∧
      ∀ field ∈ collected, NestsShallow more field := by
  induction selectionSets generalizing found with
  | nil => exact ⟨found, rfl, hfound⟩
  | cons selections rest ih =>
    obtain ⟨hfirst, hrest⟩ := List.forall_mem_cons.1 h
    obtain ⟨middle, hmiddle, hshallow⟩ := exists_collect fragments scope hfirst hle hfound
    rw [List.foldlM_cons, hmiddle]
    exact ih hrest hshallow

/-- Planning collected fields succeeds if planning what is nested in them does. -/
theorem exists_planFields {planInner : List (List Selection) → Scope → Nat →
      Except PlanningError (SelectionPlan × Nat)}
    (hplan : ∀ selectionSets scope next, selectionSets ≠ [] →
      (∀ selections ∈ selectionSets, Shallow levels selections) →
        ∃ planned, planInner selectionSets scope next = .ok planned)
    {collected : List CollectedField} (h : ∀ field ∈ collected, NestsShallow levels field)
    (next : Nat) : ∃ planned, planFields planInner collected next = .ok planned := by
  induction collected generalizing next with
  | nil => exact ⟨_, rfl⟩
  | cons first rest ih =>
    obtain ⟨hfirst, hrest⟩ := List.forall_mem_cons.1 h
    cases hleaf : first.isLeaf with
    | true =>
      obtain ⟨planned, hplanned⟩ := ih hrest next
      rw [planFields_leaf hleaf, hplanned]
      exact ⟨_, rfl⟩
    | false =>
      obtain ⟨⟨selection, middle⟩, hselection⟩ := hplan first.selectionSets
        { openFragments := first.scope.openFragments } next (hfirst.nonempty hleaf) hfirst.shallow
      obtain ⟨planned, hplanned⟩ := ih hrest middle
      rw [planFields_nested_ok hleaf rest hselection, hplanned]
      exact ⟨_, rfl⟩

/-- Planning a group of selection sets that nest within the levels succeeds. -/
theorem exists_planSelection (fragments : Fragments) {selectionSets : List (List Selection)}
    (scope : Scope) (next : Nat) (hne : selectionSets ≠ [])
    (h : ∀ selections ∈ selectionSets, Shallow levels selections) :
    ∃ planned, planSelection fragments levels selectionSets scope next = .ok planned := by
  induction levels generalizing selectionSets scope next with
  | zero =>
    obtain ⟨selections, hmem⟩ := List.exists_mem_of_ne_nil _ hne
    cases h selections hmem
  | succ levels ih =>
    obtain ⟨collected, hcollected, hshallow⟩ :=
      exists_collectAll fragments scope h (Nat.le_refl _) (List.forall_mem_nil _)
    obtain ⟨planned, hplanned⟩ := exists_planFields
      (fun selectionSets scope next hne h ↦ ih scope next hne h) hshallow (next + 1)
    rw [planSelection_fields hcollected, hplanned]
    exact ⟨_, rfl⟩

end Planner

namespace Query

open Document.Selection (anySpread Nests)

/-- An operation whose selections nest within the levels that planning has can be planned, unless it
is a subscription. -/
theorem exists_plan {query : Query} {operation : Operation} {operationName : Option String}
    (hoperation : query.operation operationName = .ok operation)
    (hkind : operation.kind ≠ .subscription)
    (hshallow : Selection.Shallow (recursionLimit + 1) operation.selections) :
    ∃ plan, query.plan operationName = .ok plan := by
  obtain ⟨planned, hplanned⟩ := Planner.exists_planSelection query.fragments
    { parentType := some operation.kind.rootType } 0 (List.cons_ne_nil _ _)
    (List.forall_mem_singleton.2 hshallow)
  rw [Query.plan, hoperation]
  simp only [bind, Except.bind, if_neg hkind, Planner.planRoot, hplanned]
  exact ⟨_, rfl⟩

/-- The only operation of a query goes by no name or by its own. -/
theorem operation_of_singleton {query : Query} {operation : Operation}
    (honly : query.operations = [operation]) (operationName : Option String) :
    (operationName = none ∨ operationName = operation.name) ∧
        query.operation operationName = .ok operation ∨
      ¬ (operationName = none ∨ operationName = operation.name) ∧
        ∃ name, query.operation operationName = .error (.unknownOperation name) := by
  cases operationName with
  | none => exact .inl ⟨.inl rfl, by simp only [Query.operation, honly]⟩
  | some name =>
    by_cases hname : operation.name = some name
    · exact .inl ⟨.inr hname.symm, by simp [Query.operation, honly, hname]⟩
    · refine .inr ⟨by simp [eq_comm, hname], name, ?_⟩
      simp [Query.operation, honly, hname]

/-- The limits of reading and planning agree. If the selections of an operation without fragment
spreads can be read, then the operation, in a query of its own, can be planned; planning it never
fails because of the limit. And selections cannot be read exactly if one of them is nested more
levels deep than the limit, with nothing around it that is excluded for all variables. -/
theorem nesting_limits_agree (localDirective text : String) :
    (∀ (definition : Document.Operation) selections, anySpread definition.selections = false →
      Selection.ofDocumentSet localDirective 0 definition.selections = .ok selections →
        ∃ query, ofDocument localDirective text [.operation definition] = .ok query ∧
          (definition.kind ≠ .subscription → ∀ operationName,
            operationName = none ∨ operationName = definition.name →
              ∃ plan, query.plan operationName = .ok plan) ∧
          ∀ operationName limit,
            query.plan operationName ≠ .error (.recursionLimitExceeded limit)) ∧
    ∀ selections error, Selection.ofDocumentSet localDirective 0 selections = .error error ↔
      error = .recursionLimitExceeded recursionLimit ∧
        ∃ levels selection, Nests levels selections selection ∧ recursionLimit < levels := by
  constructor
  · intro definition selections hspread hread
    let operation : Operation := ⟨definition.name, definition.kind,
      Operation.defaultsOf definition.variableDefinitions, selections⟩
    let query : Query := ⟨text, [operation], []⟩
    have hquery : ofDocument localDirective text [.operation definition] = .ok query := by
      rw [ofDocument, List.foldlM_cons, addDefinition, Operation.ofDocument, hread]
      rfl
    have honly : query.operations = [operation] := rfl
    have hoperation := operation_of_singleton honly
    have hshallow : Selection.Shallow (recursionLimit + 1) operation.selections :=
      Selection.shallow_ofDocumentSet hspread (Nat.zero_add _) hread
    refine ⟨query, hquery, fun hkind operationName hname ↦ ?_, fun operationName limit h ↦ ?_⟩
    · obtain ⟨-, hok⟩ := (hoperation operationName).resolve_right fun hother ↦ hother.1 hname
      exact exists_plan hok hkind hshallow
    · rcases hoperation operationName with ⟨-, hok⟩ | ⟨-, name, herror⟩
      · by_cases hkind : operation.kind = .subscription
        · rw [Query.plan, hok] at h
          simp only [bind, Except.bind, if_pos hkind] at h
          cases h
        · obtain ⟨plan, hplan⟩ := exists_plan hok hkind hshallow
          cases h.symm.trans hplan
      · rw [Query.plan, herror] at h
        cases h
  · intro selections error
    rw [Selection.ofDocumentSet_eq_error_iff, Document.Selection.ReachesBeyond]
    simp only [Nat.zero_add]

section Sample

/-- An operation with a field inside an inline fragment and one that is always skipped. -/
def petsOperation : Document.Operation :=
  ⟨some "Pets", .query, [], [
    .inlineFragment (some "Query") [] [.field "pets" none [] [] [.field "name" none [] [] []]],
    .field "owner" none [] [⟨"skip", [("if", .boolean true)]⟩] [.field "name" none [] [] []]]⟩

/-- A field below a number of fields around it. -/
def tower : Nat → List Document.Selection
  | 0 => [.field "top" none [] [] []]
  | levels + 1 => [.field "floor" none [] [] (tower levels)]

theorem nests_tower (levels : Nat) :
    Nests levels (tower levels) (.field "top" none [] [] []) := by
  induction levels with
  | zero => exact .outermost List.mem_cons_self
  | succ levels ih => exact .inner List.mem_cons_self rfl ih

theorem nesting_limits_agree_petsOperation :
    (∃ query plan, ofDocument "client" "" [.operation petsOperation] = .ok query ∧
      query.plan (some "Pets") = .ok plan) ∧
    Selection.ofDocumentSet "client" 0 (tower (recursionLimit + 1))
      = .error (.recursionLimitExceeded recursionLimit) := by
  obtain ⟨hplans, hrejects⟩ := nesting_limits_agree "client" ""
  constructor
  · obtain ⟨query, hquery, hplan, -⟩ := hplans petsOperation _ rfl rfl
    obtain ⟨plan, hplan⟩ := hplan nofun (some "Pets") (.inr rfl)
    exact ⟨query, plan, hquery, hplan⟩
  · exact (hrejects _ _).2 ⟨rfl, _, _, nests_tower _, Nat.lt_succ_self _⟩

end Sample

end Query

end GraphCache
