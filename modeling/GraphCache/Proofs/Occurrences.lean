import GraphCache.Proofs.Numbering
import GraphCache.Proofs.WellFormedQueries

/-!
# Walking through selections

The selections of a query can be walked through directly: a field is met where it stands, an inline
fragment or a spread is entered where it occurs. The planner collects exactly the fields that such a
walk meets, with what it has to remember of the fragments around them.

A walk may be finite or not, since fragments may spread themselves; it is a relation and not a
function. Where the planner succeeds the walk that enters everything is finite, and so is every
walk that enters less.

## Main definitions

* `Enclosure`, `Occurrence`: a field with its nested selections and the fragments around it.
* `Walker`, `Walker.Meets`: a walk and the occurrences that it meets, in order.
* `Walker.at`: the walk at an object for given variables.
* `Scope.within`, `Occurrence.collected`: what the planner keeps of an occurrence.

## Main results

* `Walker.meets_iff_filter`: a walk meets those occurrences that it reaches.
* `Planner.collect_ok`: the planner collects the occurrences in the order of the walk.
-/

namespace GraphCache

/-- A fragment around a field. -/
structure Enclosure where
  /-- The name of the fragment, if it is spread by name. -/
  name? : Option String
  /-- The type to which the fragment applies. -/
  typeCondition : Option String
  /-- The conditions of the inline fragment or of the spread. -/
  conditions : IncludeSkip

/-- A field at the place where a walk through selections meets it. -/
structure Occurrence where
  /-- The field as it is selected. -/
  field : SelectedField
  /-- Its nested selections, if it has any. -/
  selections? : Option (List Selection)
  /-- The fragments around it, the outermost first. -/
  around : List Enclosure

namespace Occurrence

/-- An occurrence inside a further fragment. -/
def inside (enclosure : Enclosure) (occurrence : Occurrence) : Occurrence :=
  { occurrence with around := enclosure :: occurrence.around }

/-- The arguments of the field and of the fields below it are well-formed. -/
structure WellFormed (occurrence : Occurrence) : Prop where
  /-- The arguments of the field are well-formed. -/
  arguments : ArgumentValue.WellFormedFields occurrence.field.arguments
  /-- The nested selections are well-formed. -/
  selections : ∀ selections ∈ occurrence.selections?, Selection.listWellFormed selections

end Occurrence

/-- What a walk through selections takes into account. -/
structure Walker where
  /-- Whether it enters a fragment with this type condition and these conditions. -/
  enters : Option String → IncludeSkip → Bool
  /-- Whether it meets a field with these conditions of its own. -/
  takes : IncludeSkip → Bool

namespace Walker

/-- The walk that passes nothing by. -/
def everywhere : Walker :=
  ⟨fun _ _ ↦ true, fun _ ↦ true⟩

/-- The walk at an object of the given type, for given variables. It passes by what the variables
exclude, and fragments that apply to another type. Where the type is not known every fragment
applies. -/
def «at» (vars : Object) (typename : Option String) : Walker where
  enters typeCondition conditions :=
    !conditions.shouldSkip vars &&
      typeCondition.all fun type ↦ typename.all fun actual ↦ type == actual
  takes conditions := !conditions.shouldSkip vars

/-- Whether a walk gets to an occurrence: it enters the fragments around it and meets the field. -/
def reaches (walker : Walker) (occurrence : Occurrence) : Bool :=
  occurrence.around.all (fun enclosure ↦ walker.enters enclosure.typeCondition enclosure.conditions)
    && walker.takes occurrence.field.conditions

@[simp] theorem reaches_inside (walker : Walker) (enclosure : Enclosure)
    (occurrence : Occurrence) :
    walker.reaches (occurrence.inside enclosure) =
      (walker.enters enclosure.typeCondition enclosure.conditions
        && walker.reaches occurrence) := by
  simp [reaches, Occurrence.inside, Bool.and_assoc]

/-- A walk through selections, with the occurrences that it meets in order. There is no walk into a
fragment that is not defined. -/
inductive Meets (walker : Walker) (fragments : Fragments) :
    List Selection → List Occurrence → Prop where
  | nil : Meets walker fragments [] []
  | leaf {field : SelectedField} {rest : List Selection} {found : List Occurrence}
      (htakes : walker.takes field.conditions = true) (hrest : Meets walker fragments rest found) :
      Meets walker fragments (.leaf field :: rest) (⟨field, none, []⟩ :: found)
  | leafPassed {field : SelectedField} {rest : List Selection} {found : List Occurrence}
      (htakes : walker.takes field.conditions = false) (hrest : Meets walker fragments rest found) :
      Meets walker fragments (.leaf field :: rest) found
  | nested {field : SelectedField} {selections rest : List Selection} {found : List Occurrence}
      (htakes : walker.takes field.conditions = true) (hrest : Meets walker fragments rest found) :
      Meets walker fragments (.nested field selections :: rest)
        (⟨field, some selections, []⟩ :: found)
  | nestedPassed {field : SelectedField} {selections rest : List Selection}
      {found : List Occurrence} (htakes : walker.takes field.conditions = false)
      (hrest : Meets walker fragments rest found) :
      Meets walker fragments (.nested field selections :: rest) found
  | inlineFragment {typeCondition : Option String} {conditions : IncludeSkip}
      {selections rest : List Selection} {inner found : List Occurrence}
      (henters : walker.enters typeCondition conditions = true)
      (hinner : Meets walker fragments selections inner)
      (hrest : Meets walker fragments rest found) :
      Meets walker fragments (.inlineFragment typeCondition conditions selections :: rest)
        (inner.map (Occurrence.inside ⟨none, typeCondition, conditions⟩) ++ found)
  | inlineFragmentPassed {typeCondition : Option String} {conditions : IncludeSkip}
      {selections rest : List Selection} {found : List Occurrence}
      (henters : walker.enters typeCondition conditions = false)
      (hrest : Meets walker fragments rest found) :
      Meets walker fragments (.inlineFragment typeCondition conditions selections :: rest) found
  | fragmentSpread {name : String} {conditions : IncludeSkip} {fragment : Fragment}
      {rest : List Selection} {inner found : List Occurrence}
      (hget : Dict.get? fragments name = some fragment)
      (henters : walker.enters (some fragment.typeCondition) conditions = true)
      (hinner : Meets walker fragments fragment.selections inner)
      (hrest : Meets walker fragments rest found) :
      Meets walker fragments (.fragmentSpread name conditions :: rest)
        (inner.map (Occurrence.inside ⟨some name, some fragment.typeCondition, conditions⟩)
          ++ found)
  | fragmentSpreadPassed {name : String} {conditions : IncludeSkip} {fragment : Fragment}
      {rest : List Selection} {found : List Occurrence}
      (hget : Dict.get? fragments name = some fragment)
      (henters : walker.enters (some fragment.typeCondition) conditions = false)
      (hrest : Meets walker fragments rest found) :
      Meets walker fragments (.fragmentSpread name conditions :: rest) found

variable {walker : Walker} {fragments : Fragments}

theorem Meets.append {first rest : List Selection} {found others : List Occurrence}
    (hfirst : walker.Meets fragments first found) (hrest : walker.Meets fragments rest others) :
    walker.Meets fragments (first ++ rest) (found ++ others) := by
  induction hfirst with
  | nil => exact hrest
  | leaf htakes _ ih => exact .leaf htakes ih
  | leafPassed htakes _ ih => exact .leafPassed htakes ih
  | nested htakes _ ih => exact .nested htakes ih
  | nestedPassed htakes _ ih => exact .nestedPassed htakes ih
  | inlineFragment henters hinner _ _ ih =>
    rw [List.append_assoc]
    exact .inlineFragment henters hinner ih
  | inlineFragmentPassed henters _ ih => exact .inlineFragmentPassed henters ih
  | fragmentSpread hget henters hinner _ _ ih =>
    rw [List.append_assoc]
    exact .fragmentSpread hget henters hinner ih
  | fragmentSpreadPassed hget henters _ ih => exact .fragmentSpreadPassed hget henters ih

theorem filter_map_inside (walker : Walker) (enclosure : Enclosure)
    (found : List Occurrence) :
    (found.map (Occurrence.inside enclosure)).filter walker.reaches =
      if walker.enters enclosure.typeCondition enclosure.conditions then
        (found.filter walker.reaches).map (Occurrence.inside enclosure)
      else [] := by
  rw [List.filter_map]
  cases henters : walker.enters enclosure.typeCondition enclosure.conditions <;>
    simp [Function.comp_def, henters]

/-- Where the walk that passes nothing by is finite, every walk is; it meets the occurrences that it
reaches. -/
theorem Meets.filter {selections : List Selection} {occurrences : List Occurrence}
    (h : everywhere.Meets fragments selections occurrences) (walker : Walker) :
    walker.Meets fragments selections (occurrences.filter walker.reaches) := by
  induction h with
  | nil => exact .nil
  | @leaf field rest found _ _ ih =>
    cases htakes : walker.takes field.conditions with
    | true => simpa [reaches, htakes] using Meets.leaf htakes ih
    | false => simpa [reaches, htakes] using Meets.leafPassed htakes ih
  | @nested field selections rest found _ _ ih =>
    cases htakes : walker.takes field.conditions with
    | true => simpa [reaches, htakes] using Meets.nested htakes ih
    | false => simpa [reaches, htakes] using Meets.nestedPassed htakes ih
  | @inlineFragment typeCondition conditions selections rest inner found _ _ _ ihinner ihrest =>
    rw [List.filter_append, filter_map_inside]
    cases henters : walker.enters typeCondition conditions with
    | true => exact .inlineFragment henters ihinner ihrest
    | false => exact .inlineFragmentPassed henters ihrest
  | @fragmentSpread name conditions fragment rest inner found hget _ _ _ ihinner ihrest =>
    rw [List.filter_append, filter_map_inside]
    cases henters : walker.enters (some fragment.typeCondition) conditions with
    | true => exact .fragmentSpread hget henters ihinner ihrest
    | false => exact .fragmentSpreadPassed hget henters ihrest
  | leafPassed htakes => cases htakes
  | nestedPassed htakes => cases htakes
  | inlineFragmentPassed henters => cases henters
  | fragmentSpreadPassed _ henters => cases henters

/-- A walk meets the same occurrences each time. -/
theorem Meets.unique {selections : List Selection} {found others : List Occurrence}
    (h : walker.Meets fragments selections found) (h' : walker.Meets fragments selections others) :
    found = others := by
  induction h generalizing others with
  | nil => cases h'; rfl
  | leaf htakes _ ih =>
    cases h' with
    | leaf _ hrest => rw [ih hrest]
    | leafPassed htakes' => simp [htakes] at htakes'
  | leafPassed htakes _ ih =>
    cases h' with
    | leaf htakes' => simp [htakes] at htakes'
    | leafPassed _ hrest => exact ih hrest
  | nested htakes _ ih =>
    cases h' with
    | nested _ hrest => rw [ih hrest]
    | nestedPassed htakes' => simp [htakes] at htakes'
  | nestedPassed htakes _ ih =>
    cases h' with
    | nested htakes' => simp [htakes] at htakes'
    | nestedPassed _ hrest => exact ih hrest
  | inlineFragment henters _ _ ihinner ihrest =>
    cases h' with
    | inlineFragment _ hinner hrest => rw [ihinner hinner, ihrest hrest]
    | inlineFragmentPassed henters' => simp [henters] at henters'
  | inlineFragmentPassed henters _ ih =>
    cases h' with
    | inlineFragment henters' => simp [henters] at henters'
    | inlineFragmentPassed _ hrest => exact ih hrest
  | fragmentSpread hget henters _ _ ihinner ihrest =>
    cases h' with
    | fragmentSpread hget' _ hinner hrest =>
      cases hget.symm.trans hget'
      rw [ihinner hinner, ihrest hrest]
    | fragmentSpreadPassed hget' henters' =>
      cases hget.symm.trans hget'
      simp [henters] at henters'
  | fragmentSpreadPassed hget henters _ ih =>
    cases h' with
    | fragmentSpread hget' henters' =>
      cases hget.symm.trans hget'
      simp [henters] at henters'
    | fragmentSpreadPassed _ _ hrest => exact ih hrest

/-- A walk meets those occurrences that it reaches. -/
theorem meets_iff_filter {selections : List Selection} {occurrences : List Occurrence}
    (h : everywhere.Meets fragments selections occurrences) {found : List Occurrence} :
    walker.Meets fragments selections found ↔ found = occurrences.filter walker.reaches :=
  ⟨fun hmeets ↦ hmeets.unique (h.filter walker), fun hfound ↦ hfound ▸ h.filter walker⟩

/-- What holds for all fields of selections and fragments holds for the occurrences that are met in
them, and for the fields below these. -/
theorem Meets.forall_fields {p : SelectedField → Prop} {selections : List Selection}
    {occurrences : List Occurrence} (h : walker.Meets fragments selections occurrences)
    (hfragments : ∀ field ∈ fragments.fields, p field)
    (hselections : ∀ field ∈ Selection.listFields selections, p field) :
    ∀ occurrence ∈ occurrences, p occurrence.field ∧
      ∀ inner ∈ occurrence.selections?, ∀ field ∈ Selection.listFields inner, p field := by
  have hinside {inner : List Occurrence} (enclosure : Enclosure)
      (hinner : ∀ occurrence ∈ inner, p occurrence.field ∧
        ∀ inner ∈ occurrence.selections?, ∀ field ∈ Selection.listFields inner, p field) :
      ∀ occurrence ∈ inner.map (Occurrence.inside enclosure), p occurrence.field ∧
        ∀ inner ∈ occurrence.selections?, ∀ field ∈ Selection.listFields inner, p field :=
    List.forall_mem_map.2 hinner
  induction h with
  | nil => exact List.forall_mem_nil _
  | leaf _ _ ih =>
    obtain ⟨hfirst, hrest⟩ := List.forall_mem_cons.1 hselections
    exact List.forall_mem_cons.2 ⟨⟨hfirst, nofun⟩, ih hrest⟩
  | leafPassed _ _ ih => exact ih (List.forall_mem_cons.1 hselections).2
  | nested _ _ ih =>
    obtain ⟨hfirst, hrest⟩ := List.forall_mem_append.1 hselections
    obtain ⟨hfield, hinner⟩ := List.forall_mem_cons.1 hfirst
    exact List.forall_mem_cons.2
      ⟨⟨hfield, fun _ hmem ↦ Option.mem_some_iff.1 hmem ▸ hinner⟩, ih hrest⟩
  | nestedPassed _ _ ih => exact ih (List.forall_mem_append.1 hselections).2
  | inlineFragment _ _ _ ihinner ihrest =>
    obtain ⟨hinner, hrest⟩ := List.forall_mem_append.1 hselections
    exact List.forall_mem_append.2 ⟨hinside _ (ihinner hinner), ihrest hrest⟩
  | inlineFragmentPassed _ _ ih => exact ih (List.forall_mem_append.1 hselections).2
  | fragmentSpread hget _ _ _ ihinner ihrest =>
    refine List.forall_mem_append.2 ⟨hinside _ (ihinner fun field hmem ↦ hfragments field ?_),
      ihrest (List.forall_mem_append.1 hselections).2⟩
    exact List.mem_flatMap.2 ⟨_, Dict.mem_of_get? hget, hmem⟩
  | fragmentSpreadPassed _ _ _ ih => exact ih (List.forall_mem_append.1 hselections).2

/-- The occurrences in well-formed selections are well-formed. -/
theorem Meets.wellFormed {selections : List Selection} {occurrences : List Occurrence}
    (h : walker.Meets fragments selections occurrences) (hfragments : fragments.WellFormed)
    (hselections : Selection.listWellFormed selections) :
    ∀ occurrence ∈ occurrences, occurrence.WellFormed := by
  have hfields := h.forall_fields hfragments.forall_fields
    ((Selection.listWellFormed_iff_fields selections).1 hselections)
  intro occurrence hmem
  obtain ⟨harguments, hinner⟩ := hfields occurrence hmem
  exact ⟨harguments, fun inner hselected ↦
    (Selection.listWellFormed_iff_fields inner).2 (hinner inner hselected)⟩

end Walker

/-! ### Collecting -/

/-- The scope inside a fragment. -/
def Scope.enclose (scope : Scope) (enclosure : Enclosure) : Scope :=
  let inner := scope.enter enclosure.typeCondition enclosure.conditions
  { inner with openFragments := inner.openFragments ++ enclosure.name?.toList }

/-- The scope inside several fragments, the outermost first. -/
def Scope.within (scope : Scope) (around : List Enclosure) : Scope :=
  around.foldl Scope.enclose scope

theorem Scope.enclose_inline (scope : Scope) (typeCondition : Option String)
    (conditions : IncludeSkip) :
    scope.enclose ⟨none, typeCondition, conditions⟩ = scope.enter typeCondition conditions := by
  simp [Scope.enclose]

/-- What the planner keeps of an occurrence that it meets in a scope. -/
def Occurrence.collected (scope : Scope) (occurrence : Occurrence) : CollectedField :=
  ⟨occurrence.field, occurrence.selections?.isNone, occurrence.selections?.toList,
    scope.within occurrence.around⟩

namespace Planner

/-- The fields that the planner keeps of occurrences, added one after the other to those collected
before. -/
def gather (scope : Scope) (found : List CollectedField) (occurrences : List Occurrence) :
    List CollectedField :=
  occurrences.foldl (fun found occurrence ↦ (occurrence.collected scope).addTo found) found

theorem gather_append (scope : Scope) (found : List CollectedField)
    (occurrences others : List Occurrence) :
    gather scope found (occurrences ++ others) =
      gather scope (gather scope found occurrences) others :=
  List.foldl_append

theorem gather_inside (scope : Scope) (enclosure : Enclosure) (found : List CollectedField)
    (occurrences : List Occurrence) :
    gather scope found (occurrences.map (Occurrence.inside enclosure)) =
      gather (scope.enclose enclosure) found occurrences :=
  List.foldl_map

variable {fragments : Fragments} {scope : Scope} {found collected : List CollectedField}

theorem collect_cons (levels : Nat) (selection : Selection) (rest : List Selection) :
    collect fragments (levels + 1) (selection :: rest) scope found =
      collectSelection fragments (collect fragments levels) scope found selection >>=
        collect fragments (levels + 1) rest scope := by
  rw [collect, List.foldlM_cons]
  rfl

/-- A fragment that is defined, and not entered yet, is collected where it is spread. -/
theorem collectSelection_fragmentSpread {name : String} {conditions : IncludeSkip}
    {fragment : Fragment} (hopen : name ∉ scope.openFragments)
    (hget : Dict.get? fragments name = some fragment)
    (collectInner : List Selection → Scope → List CollectedField →
      Except PlanningError (List CollectedField)) :
    collectSelection fragments collectInner scope found (.fragmentSpread name conditions) =
      collectInner fragment.selections (scope.enterNamed name fragment conditions) found := by
  rw [collectSelection, if_neg hopen, hget]

/-- The planner collects the occurrences that it meets, in the order of the walk. -/
theorem collect_ok {levels : Nat} {selections : List Selection}
    (h : collect fragments levels selections scope found = .ok collected) :
    ∃ occurrences, Walker.everywhere.Meets fragments selections occurrences ∧
      collected = gather scope found occurrences := by
  -- what is inside a fragment is collected on the next level, the rest of a list on the same one
  induction levels generalizing selections scope found collected with
  | zero => cases h
  | succ levels ih =>
    induction selections generalizing found with
    | nil =>
      cases h
      exact ⟨[], .nil, rfl⟩
    | cons selection rest ihrest =>
      rw [collect_cons] at h
      obtain ⟨middle, hfirst, hrest⟩ := bind_eq_ok_iff.1 h
      obtain ⟨others, hothers, rfl⟩ := ihrest hrest
      cases selection with
      | leaf field =>
        cases hfirst
        exact ⟨⟨field, none, []⟩ :: others, .leaf rfl hothers, rfl⟩
      | nested field selections =>
        cases hfirst
        exact ⟨⟨field, some selections, []⟩ :: others, .nested rfl hothers, rfl⟩
      | inlineFragment typeCondition conditions selections =>
        rw [collectSelection, ← Scope.enclose_inline] at hfirst
        obtain ⟨inner, hinner, rfl⟩ := ih hfirst
        refine ⟨_, .inlineFragment rfl hinner hothers, ?_⟩
        rw [gather_append, gather_inside]
      | fragmentSpread name conditions =>
        rw [collectSelection] at hfirst
        split at hfirst
        · cases hfirst
        · split at hfirst
          · cases hfirst
          · next fragment hget =>
            obtain ⟨inner, hinner, rfl⟩ := ih hfirst
            refine ⟨_, .fragmentSpread hget rfl hinner hothers, ?_⟩
            rw [gather_append, gather_inside]
            rfl

/-- The planner collects the selection sets of a group one after the other. -/
theorem collectAll_ok {levels : Nat} {selectionSets : List (List Selection)}
    (h : selectionSets.foldlM
      (fun found selections ↦ collect fragments levels selections scope found)
      found = .ok collected) :
    ∃ occurrences, Walker.everywhere.Meets fragments selectionSets.flatten occurrences ∧
      collected = gather scope found occurrences := by
  induction selectionSets generalizing found with
  | nil =>
    cases h
    exact ⟨[], .nil, rfl⟩
  | cons selections rest ih =>
    rw [List.foldlM_cons] at h
    obtain ⟨middle, hfirst, hrest⟩ := bind_eq_ok_iff.1 h
    obtain ⟨occurrences, hmeets, rfl⟩ := collect_ok hfirst
    obtain ⟨others, hothers, rfl⟩ := ih hrest
    exact ⟨occurrences ++ others, hmeets.append hothers, (gather_append ..).symm⟩

end Planner

end GraphCache
