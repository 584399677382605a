import GraphCache.Proofs.FragmentGraph
import Mathlib.Tactic

/-!
# Fragments that are said to be recursive

The planner says that a fragment is recursive when it finds a spread of it while it is inside the
fragment. Below a field it takes itself to be inside the fragments around the first occurrence of
the field, whatever the occurrences that were merged with it. Where the later ones stand inside
these named fragments as well, or have nothing selected below them, this is what it should be: a
fragment that is said to be recursive leads back to itself. Where they do not, a fragment may be
said to be recursive that is not.

## Main definitions

* `Occurrence.fragmentNames`: the named fragments around an occurrence.
* `Planner.Group`: the groups of selection sets that are planned as one.
* `Planner.MergesWithinFragments`: occurrences stand inside the named fragments around those into
  which they are merged.

## Main results

* `Query.cyclic_of_recursiveFragment`: a fragment that is said to be recursive leads back to itself,
  if occurrences stand inside the named fragments around those into which they are merged.
* `Query.recursiveFragment_of_acyclic`: without that condition it need not.
-/

namespace GraphCache

/-- The named fragments around an occurrence, the outermost first. -/
def Occurrence.fragmentNames (occurrence : Occurrence) : List String :=
  occurrence.around.filterMap (·.name?)

namespace Planner

/-- The groups of selection sets that are planned as one: the given one and, for a field in a group,
the nested selections of the occurrences with which it is merged. -/
inductive Group (fragments : Fragments) (root : List (List Selection)) :
    List (List Selection) → Prop where
  | root : Group fragments root root
  | nested {selectionSets : List (List Selection)} {occurrences : List Occurrence}
      {occurrence : Occurrence} (houter : Group fragments root selectionSets)
      (hmeets : Walker.everywhere.Meets fragments selectionSets.flatten occurrences)
      (hmem : occurrence ∈ occurrences) :
      Group fragments root
        ((occurrences.filter fun other ↦ occurrence.key.same other.key).filterMap (·.selections?))

/-- In every group, an occurrence with nested selections stands inside all named fragments around an
earlier one into which it is merged. -/
def MergesWithinFragments (fragments : Fragments) (root : List (List Selection)) : Prop :=
  ∀ selectionSets, Group fragments root selectionSets → ∀ occurrences,
    Walker.everywhere.Meets fragments selectionSets.flatten occurrences →
      occurrences.Pairwise fun earlier later ↦ earlier.key.same later.key = true →
        later.selections?.isSome = true →
          ∀ name ∈ earlier.fragmentNames, name ∈ later.fragmentNames

/-- Each of the named fragments leads to all that is spread in the selections. -/
def AllLead (fragments : Fragments) (names : List String) (selections : List Selection) : Prop :=
  ∀ outer ∈ names, ∀ inner ∈ Selection.listSpreadNames selections,
    Relation.TransGen fragments.Spreads outer inner

section AllLead

variable {fragments : Fragments} {names : List String} {selection : Selection}
  {rest selections : List Selection}

theorem AllLead.tail (h : AllLead fragments names (selection :: rest)) :
    AllLead fragments names rest :=
  fun outer houter inner hinner ↦ h outer houter inner (List.mem_append_right _ hinner)

theorem AllLead.nested {field : SelectedField}
    (h : AllLead fragments names (.nested field selections :: rest)) :
    AllLead fragments names selections :=
  fun outer houter inner hinner ↦ h outer houter inner (List.mem_append_left _ hinner)

theorem AllLead.inlineFragment {typeCondition : Option String} {conditions : IncludeSkip}
    (h : AllLead fragments names (.inlineFragment typeCondition conditions selections :: rest)) :
    AllLead fragments names selections :=
  fun outer houter inner hinner ↦ h outer houter inner (List.mem_append_left _ hinner)

/-- Inside a fragment that is spread the fragments around it lead to all that is spread, and so does
the fragment itself. -/
theorem AllLead.fragmentSpread {name : String} {conditions : IncludeSkip} {fragment : Fragment}
    (h : AllLead fragments names (.fragmentSpread name conditions :: rest))
    (hget : Dict.get? fragments name = some fragment) :
    AllLead fragments (names ++ [name]) fragment.selections := by
  intro outer houter inner hinner
  have hspreads : fragments.Spreads name inner := ⟨fragment, hget, hinner⟩
  rcases List.mem_append.1 houter with houter | houter
  · exact (h outer houter name (List.mem_append_left _ List.mem_cons_self)).tail hspreads
  · rw [List.mem_singleton.1 houter]
    exact .single hspreads

theorem allLead_flatten {selectionSets : List (List Selection)} :
    AllLead fragments names selectionSets.flatten ↔
      ∀ selections ∈ selectionSets, AllLead fragments names selections := by
  constructor
  · intro h selections hmem outer houter inner hinner
    exact h outer houter inner
      (Selection.mem_listSpreadNames_flatten.2 ⟨selections, hmem, hinner⟩)
  · intro h outer houter inner hinner
    obtain ⟨selections, hmem, hinner⟩ := Selection.mem_listSpreadNames_flatten.1 hinner
    exact h selections hmem outer houter inner hinner

/-- Around an occurrence all named fragments lead to what is spread below it. -/
theorem AllLead.of_meets {occurrences : List Occurrence}
    (hmeets : Walker.everywhere.Meets fragments selections occurrences)
    (h : AllLead fragments names selections) {occurrence : Occurrence}
    (hmem : occurrence ∈ occurrences) {inner : List Selection}
    (hinner : inner ∈ occurrence.selections?) :
    AllLead fragments (names ++ occurrence.fragmentNames) inner := by
  induction hmeets generalizing names occurrence with
  | nil => cases hmem
  | leaf _ _ ih =>
    rcases List.mem_cons.1 hmem with rfl | hmem
    · cases hinner
    · exact ih h.tail hmem hinner
  | nested _ _ ih =>
    rcases List.mem_cons.1 hmem with rfl | hmem
    · cases hinner
      simpa [Occurrence.fragmentNames] using h.nested
    · exact ih h.tail hmem hinner
  | inlineFragment _ _ _ ihinner ihrest =>
    rcases List.mem_append.1 hmem with hmem | hmem
    · obtain ⟨original, horiginal, rfl⟩ := List.mem_map.1 hmem
      exact (ihinner h.inlineFragment horiginal hinner :)
    · exact ihrest h.tail hmem hinner
  | @fragmentSpread name conditions fragment rest _ _ hget _ _ _ ihinner ihrest =>
    rcases List.mem_append.1 hmem with hmem | hmem
    · obtain ⟨original, horiginal, rfl⟩ := List.mem_map.1 hmem
      have hbelow := ihinner (h.fragmentSpread hget) horiginal hinner
      rwa [List.append_assoc] at hbelow
    · exact ihrest h.tail hmem hinner
  | leafPassed htakes => cases htakes
  | nestedPassed htakes => cases htakes
  | inlineFragmentPassed henters => cases henters
  | fragmentSpreadPassed _ henters => cases henters

end AllLead

/-- The element that is found in a list comes before all others that might have been found. -/
theorem eq_or_rel_of_find? {α : Type} {R : α → α → Prop} {p : α → Bool} {xs : List α} {found x : α}
    (hrel : xs.Pairwise R) (hfind : xs.find? p = some found) (hmem : x ∈ xs) (hx : p x = true) :
    x = found ∨ R found x := by
  obtain ⟨-, before, after, rfl, hbefore⟩ := List.find?_eq_some_iff_append.1 hfind
  rcases List.mem_append.1 hmem with hmem | hmem
  · exact absurd hx (by simpa using hbefore x hmem)
  · exact (List.mem_cons.1 hmem).imp_right fun hmem ↦
      (List.pairwise_cons.1 (List.pairwise_append.1 hrel).2.1).1 x hmem

section Errors

variable {fragments : Fragments} {name : String}

/-- While fields are collected, a fragment that is said to be recursive is one. -/
theorem cyclic_of_collect {levels : Nat} {selections : List Selection} {scope : Scope}
    {found : List CollectedField}
    (hlead : AllLead fragments scope.openFragments selections)
    (h : collect fragments levels selections scope found = .error (.recursiveFragment name)) :
    fragments.Cyclic name := by
  induction levels generalizing selections scope found with
  | zero => cases h
  | succ levels ih =>
    induction selections generalizing found with
    | nil => cases h
    | cons selection rest ihrest =>
      rw [collect_cons] at h
      rcases bind_eq_error_iff.1 h with h | ⟨middle, -, h⟩
      · cases selection with
        | leaf field => cases h
        | nested field selections => cases h
        | inlineFragment typeCondition conditions selections =>
          have hopen : (scope.enter typeCondition conditions).openFragments =
              scope.openFragments := by
            cases typeCondition <;> rfl
          exact ih (hopen ▸ hlead.inlineFragment) h
        | fragmentSpread spread conditions =>
          rw [collectSelection] at h
          split at h
          · next hopen =>
            cases h
            exact hlead name hopen name (List.mem_append_left _ List.mem_cons_self)
          · split at h
            · cases h
            · next fragment hget => exact ih (hlead.fragmentSpread hget) h
      · exact ihrest hlead.tail h

theorem cyclic_of_collectAll {levels : Nat} {selectionSets : List (List Selection)}
    {scope : Scope} {found : List CollectedField}
    (hlead : ∀ selections ∈ selectionSets, AllLead fragments scope.openFragments selections)
    (h : selectionSets.foldlM
      (fun found selections ↦ collect fragments levels selections scope found) found =
        .error (.recursiveFragment name)) :
    fragments.Cyclic name := by
  induction selectionSets generalizing found with
  | nil => cases h
  | cons selections rest ih =>
    obtain ⟨hfirst, hrest⟩ := List.forall_mem_cons.1 hlead
    rw [List.foldlM_cons] at h
    rcases bind_eq_error_iff.1 h with h | ⟨middle, -, h⟩
    · exact cyclic_of_collect hfirst h
    · exact ih hrest h

/-- Planning collected fields fails where planning the group below one of them does. -/
theorem planFields_error {planInner : List (List Selection) → Scope → Nat →
    Except PlanningError (SelectionPlan × Nat)} {collected : List CollectedField} {next : Nat}
    {error : PlanningError} (h : planFields planInner collected next = .error error) :
    ∃ field ∈ collected, ∃ next,
      planInner field.selectionSets { openFragments := field.scope.openFragments } next =
        .error error := by
  induction collected generalizing next with
  | nil => cases h
  | cons first rest ih =>
    rw [planFields] at h
    split at h
    · rcases bind_eq_error_iff.1 h with h | ⟨planned, -, h⟩
      · obtain ⟨field, hmem, hfield⟩ := ih h
        exact ⟨field, List.mem_cons_of_mem _ hmem, hfield⟩
      · cases h
    · rcases bind_eq_error_iff.1 h with h | ⟨⟨selection, middle⟩, -, h⟩
      · exact ⟨first, List.mem_cons_self, next, h⟩
      · rcases bind_eq_error_iff.1 h with h | ⟨planned, -, h⟩
        · obtain ⟨field, hmem, hfield⟩ := ih h
          exact ⟨field, List.mem_cons_of_mem _ hmem, hfield⟩
        · cases h

end Errors

/-- Where occurrences stand inside the named fragments around those into which they are merged, a
fragment that is said to be recursive leads back to itself. -/
theorem cyclic_of_planSelection {fragments : Fragments} (hfragments : fragments.WellFormed)
    {root : List (List Selection)} (hmerges : MergesWithinFragments fragments root) {name : String}
    {levels : Nat} {selectionSets : List (List Selection)} {type? : Option String}
    {names : List String} {next : Nat} (hgroup : Group fragments root selectionSets)
    (hwell : Selection.listWellFormed selectionSets.flatten)
    (hlead : AllLead fragments names selectionSets.flatten)
    (h : planSelection fragments levels selectionSets
      { parentType := type?, openFragments := names } next = .error (.recursiveFragment name)) :
    fragments.Cyclic name := by
  induction levels generalizing selectionSets type? names next with
  | zero => cases h
  | succ levels ih =>
    rw [planSelection] at h
    rcases bind_eq_error_iff.1 h with h | ⟨collected, hcollect, h⟩
    · exact cyclic_of_collectAll (allLead_flatten.1 hlead) h
    rcases bind_eq_error_iff.1 h with h | ⟨planned, -, h⟩
    · obtain ⟨occurrences, hmeets, rfl⟩ := collectAll_ok hcollect
      have hoccurrences := hmeets.wellFormed hfragments hwell
      have hgathered := gathered_gather type? names occurrences hoccurrences
      -- the group below the field that fails is planned inside the fragments around the first
      -- occurrence; by `hmerges` these are around each of its members
      obtain ⟨field, hfield, next, hinner⟩ := planFields_error h
      obtain ⟨first, hfind, hkey, hscope⟩ := hgathered.first field hfield
      have hfirst := List.mem_of_find?_eq_some hfind
      have hsets := hgathered.selectionSets field hfield
      rw [hkey] at hsets
      rw [hsets, hscope, Scope.openFragments_within] at hinner
      refine ih (.nested hgroup hmeets hfirst) (Selection.listWellFormed_flatten.2 ?_)
        (allLead_flatten.2 ?_) hinner
      · intro selections hmem
        obtain ⟨occurrence, hoccurrence, hselections⟩ := List.mem_filterMap.1 hmem
        exact (hoccurrences occurrence (List.mem_of_mem_filter hoccurrence)).selections selections
          hselections
      · intro selections hmem
        obtain ⟨occurrence, hoccurrence, hselections⟩ := List.mem_filterMap.1 hmem
        obtain ⟨hoccurrence, hsame⟩ := List.mem_filter.1 hoccurrence
        have hnames := eq_or_rel_of_find? (hmerges selectionSets hgroup occurrences hmeets) hfind
          hoccurrence (hkey ▸ hsame)
        have hbelow := hlead.of_meets hmeets hoccurrence hselections
        intro outer houter
        refine hbelow outer
          (List.mem_append.2 ((List.mem_append.1 houter).imp_right fun hname ↦ ?_))
        rcases hnames with rfl | hnames
        · exact hname
        · exact hnames hsame (Option.isSome_iff_exists.2 ⟨selections, hselections⟩) outer hname
    · cases h

end Planner

namespace Query

/-- A fragment of a query that is said to be recursive leads back to itself, if occurrences with
nested selections stand inside the named fragments around those into which they are merged. -/
theorem cyclic_of_recursiveFragment {text localDirective : String} {query : Query}
    (hquery : ofText text localDirective = .ok query) {operationName : Option String}
    {operation : Operation} (hoperation : query.operation operationName = .ok operation)
    (hmerges : Planner.MergesWithinFragments query.fragments [operation.selections])
    {name : String} (h : query.plan operationName = .error (.recursiveFragment name)) :
    query.fragments.Cyclic name := by
  obtain ⟨hoperations, hfragments⟩ := wellFormed_ofText hquery
  have hwell := hoperations operation (mem_of_operation hoperation)
  rw [plan, hoperation] at h
  change (if _ then _ else _) = _ at h
  split at h
  · cases h
  · rcases Planner.bind_eq_error_iff.1 h with h | ⟨selection, -, h⟩
    · rw [Planner.planRoot_eq] at h
      cases hplan : Planner.planSelection query.fragments (recursionLimit + 1)
          [operation.selections] { parentType := some operation.kind.rootType } 0 with
      | error error =>
        rw [hplan] at h
        cases h
        exact Planner.cyclic_of_planSelection hfragments hmerges .root
          (Selection.listWellFormed_flatten.2 (List.forall_mem_singleton.2 hwell))
          (fun _ houter ↦ absurd houter List.not_mem_nil) hplan
      | ok planned =>
        rw [hplan] at h
        cases h
    · cases h

/-- A query with a fragment that is spread in itself, below a field that it selects twice. -/
def ancestorsText : String :=
  "{ node { ...F } } fragment F on Node { parent { id } parent { ...F } }"

/-- What is read of `ancestorsText`. -/
def ancestorsQuery : Query where
  text := ancestorsText
  operations :=
    [⟨none, .query, [], [.nested { name := "node" } [.fragmentSpread "F" .unconditional]]⟩]
  fragments :=
    [("F", ⟨"Node", [.nested { name := "parent" } [.leaf { name := "id" }],
      .nested { name := "parent" } [.fragmentSpread "F" .unconditional]]⟩)]

theorem ofText_ancestorsText : ofText ancestorsText "client" = .ok ancestorsQuery := by
  cbv

/-- What is selected in the groups that are planned for `ancestorsQuery`, and the fields that occur
there. -/
def ancestorsGroups : List (List Selection × List Occurrence) :=
  let spread : List Selection := [.fragmentSpread "F" .unconditional]
  let parent (selections : List Selection) : Occurrence :=
    ⟨{ name := "parent" }, some selections, [⟨some "F", some "Node", .unconditional⟩]⟩
  let parents := [parent [.leaf { name := "id" }], parent spread]
  [([.nested { name := "node" } spread], [⟨{ name := "node" }, some spread, []⟩]),
    (spread, parents),
    (.leaf { name := "id" } :: spread, ⟨{ name := "id" }, none, []⟩ :: parents),
    ([], [])]

theorem meets_ancestorsGroups :
    ∀ group ∈ ancestorsGroups,
      Walker.everywhere.Meets ancestorsQuery.fragments group.1 group.2 := by
  have hspread : Walker.everywhere.Meets ancestorsQuery.fragments
      [.fragmentSpread "F" .unconditional] _ :=
    .fragmentSpread rfl rfl (.nested rfl (.nested rfl .nil)) .nil
  simp only [ancestorsGroups, List.forall_mem_cons]
  exact ⟨.nested rfl .nil, hspread, .leaf rfl hspread, .nil, List.forall_mem_nil _⟩

theorem group_ancestorsQuery {selectionSets : List (List Selection)}
    (h : Planner.Group ancestorsQuery.fragments
      [[.nested { name := "node" } [.fragmentSpread "F" .unconditional]]] selectionSets) :
    ∃ group ∈ ancestorsGroups, selectionSets.flatten = group.1 := by
  have hnested : ∀ group ∈ ancestorsGroups, ∀ occurrence ∈ group.2,
      ∃ inner ∈ ancestorsGroups,
        ((group.2.filter fun other ↦ occurrence.key.same other.key).filterMap
          (·.selections?)).flatten = inner.1 := by
    simp only [ancestorsGroups, List.forall_mem_cons]
    refine ⟨⟨⟨_, .tail _ (.head _), rfl⟩, nofun⟩,
      ⟨⟨_, .tail _ (.tail _ (.head _)), rfl⟩, ⟨_, .tail _ (.tail _ (.head _)), rfl⟩, nofun⟩,
      ⟨⟨_, .tail _ (.tail _ (.tail _ (.head _))), rfl⟩, ⟨_, .tail _ (.tail _ (.head _)), rfl⟩,
        ⟨_, .tail _ (.tail _ (.head _)), rfl⟩, nofun⟩, nofun, nofun⟩
  induction h with
  | root => exact ⟨_, List.mem_cons_self, rfl⟩
  | nested _ hmeets hmem ih =>
    obtain ⟨group, hgroup, hflatten⟩ := ih
    rw [hflatten] at hmeets
    obtain rfl := hmeets.unique (meets_ancestorsGroups group hgroup)
    exact hnested group hgroup _ hmem

theorem mergesWithinFragments_ancestorsQuery :
    Planner.MergesWithinFragments ancestorsQuery.fragments
      [[.nested { name := "node" } [.fragmentSpread "F" .unconditional]]] := by
  intro selectionSets hgroup occurrences hmeets
  obtain ⟨group, hmem, hflatten⟩ := group_ancestorsQuery hgroup
  rw [hflatten] at hmeets
  obtain rfl := hmeets.unique (meets_ancestorsGroups group hmem)
  have hnames : ∀ group ∈ ancestorsGroups, group.2.Pairwise fun earlier later ↦
      earlier.key.same later.key = true → later.selections?.isSome = true →
        ∀ name ∈ earlier.fragmentNames, name ∈ later.fragmentNames := by
    decide
  exact hnames group hmem

theorem cyclic_of_recursiveFragment_ancestorsQuery :
    ofText ancestorsText "client" = .ok ancestorsQuery ∧
      (∃ operation, ancestorsQuery.operation none = .ok operation ∧
        Planner.MergesWithinFragments ancestorsQuery.fragments [operation.selections]) ∧
      ancestorsQuery.plan none = .error (.recursiveFragment "F") ∧
      ancestorsQuery.fragments.Cyclic "F" := by
  have hoperation : ancestorsQuery.operation none = .ok _ := rfl
  have hplan : ancestorsQuery.plan none = .error (.recursiveFragment "F") := rfl
  exact ⟨ofText_ancestorsText, ⟨_, hoperation, mergesWithinFragments_ancestorsQuery⟩, hplan,
    cyclic_of_recursiveFragment ofText_ancestorsText hoperation
      mergesWithinFragments_ancestorsQuery hplan⟩

/-- A query in which a field occurs inside a fragment and outside of it. Below the second occurrence
the fragment is spread once more. -/
def kinshipText : String :=
  "{ node { ...F ... on Node { parent { ...F } } } } fragment F on Node { parent { id } }"

/-- What is read of `kinshipText`. -/
def kinshipQuery : Query where
  text := kinshipText
  operations := [⟨none, .query, [], [.nested { name := "node" }
    [.fragmentSpread "F" .unconditional, .inlineFragment (some "Node") .unconditional
      [.nested { name := "parent" } [.fragmentSpread "F" .unconditional]]]]⟩]
  fragments := [("F", ⟨"Node", [.nested { name := "parent" } [.leaf { name := "id" }]]⟩)]

/-- A fragment may be said to be recursive in a query in which no fragment leads to another one. -/
theorem recursiveFragment_of_acyclic :
    ofText kinshipText "client" = .ok kinshipQuery ∧
      kinshipQuery.plan none = .error (.recursiveFragment "F") ∧
      ∀ name, ¬ kinshipQuery.fragments.Cyclic name := by
  refine ⟨by cbv, rfl, fun name hcycle ↦ ?_⟩
  obtain ⟨next, ⟨fragment, hget, hmem⟩, -⟩ := Relation.TransGen.head'_iff.1 hcycle
  cases List.mem_singleton.1 (Dict.mem_of_get? hget)
  cases hmem

end Query

end GraphCache
