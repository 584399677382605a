import GraphCache.Proofs.Merging

/-!
# Rewriting selections

The selections of a query can be rewritten: their conditions are replaced, and so are the arguments
of their fields; what is skipped after that is dropped. A walk through rewritten selections meets
what becomes of the occurrences that are kept. If the rewriting does not change which occurrences
are to be merged, the planner collects from rewritten selections what becomes of the fields that it
collects from the original ones.

## Main definitions

* `Rewriting`: what becomes of selections.
* `Rewriting.Rewrites`, `Rewriting.RewritesOccurrence`, `Rewriting.RewritesKey`,
  `Rewriting.RewritesCollected`: selections, occurrences, what is compared of fields, and collected
  fields that are rewritten.

## Main results

* `Rewriting.Rewrites.meets`: a walk meets the rewritten occurrences.
* `Rewriting.gather_filter`: fields that are dropped do not matter for what becomes of the others.
* `Rewriting.gather_rewritten`: rewritten occurrences are gathered like the original ones.
-/

namespace GraphCache

/-- The conditions of a selection. -/
def Selection.conditions : Selection → IncludeSkip
  | leaf field => field.conditions
  | nested field _ => field.conditions
  | inlineFragment _ conditions _ => conditions
  | fragmentSpread _ conditions => conditions

/-- What is skipped for all variables is skipped for given ones. -/
theorem IncludeSkip.shouldSkip_of_staticallySkipped {conditions : IncludeSkip}
    (h : conditions.staticallySkipped = true) (vars : Object) :
    conditions.shouldSkip vars = true := by
  obtain ⟨includeIf, skipIf⟩ := conditions
  rcases Bool.or_eq_true_iff.1 h with hskip | hinclude
  · have hskip : skipIf = .yes := by simpa using hskip
    rw [shouldSkip, hskip]
    rfl
  · have hinclude : includeIf = .no := by simpa using hinclude
    rw [shouldSkip, hinclude]
    exact Bool.or_true _

/-- A way to rewrite selections. -/
structure Rewriting where
  /-- The conditions that take the place of others. -/
  conditions : IncludeSkip → IncludeSkip
  /-- Whether arguments may take the place of others. -/
  arguments : Arguments → Arguments → Prop

namespace Rewriting

variable (rewriting : Rewriting)

/-- Whether selections with these conditions are kept. -/
def keeps (conditions : IncludeSkip) : Bool :=
  !(rewriting.conditions conditions).staticallySkipped

/-- A field is rewritten to another one. -/
structure RewritesField (a b : SelectedField) : Prop where
  /-- The name stays. -/
  name : a.name = b.name
  /-- The key in the response stays. -/
  aliasName : a.aliasName = b.aliasName
  /-- The arguments are replaced. -/
  arguments : rewriting.arguments a.arguments b.arguments
  /-- The field stays local or remote. -/
  isLocal : a.isLocal = b.isLocal
  /-- The conditions are replaced. -/
  conditions : b.conditions = rewriting.conditions a.conditions

/-- Selections are rewritten to others. An inline fragment of which nothing remains may be
dropped. -/
inductive Rewrites : List Selection → List Selection → Prop where
  | nil : Rewrites [] []
  | leaf {a b : SelectedField} {as bs : List Selection}
      (hkeeps : rewriting.keeps a.conditions = true) (hfield : rewriting.RewritesField a b)
      (hrest : Rewrites as bs) : Rewrites (.leaf a :: as) (.leaf b :: bs)
  | nested {a b : SelectedField} {inner inner' as bs : List Selection}
      (hkeeps : rewriting.keeps a.conditions = true) (hfield : rewriting.RewritesField a b)
      (hinner : Rewrites inner inner') (hrest : Rewrites as bs) :
      Rewrites (.nested a inner :: as) (.nested b inner' :: bs)
  | inlineFragment {typeCondition : Option String} {conditions : IncludeSkip}
      {inner inner' as bs : List Selection} (hkeeps : rewriting.keeps conditions = true)
      (hinner : Rewrites inner inner') (hrest : Rewrites as bs) :
      Rewrites (.inlineFragment typeCondition conditions inner :: as)
        (.inlineFragment typeCondition (rewriting.conditions conditions) inner' :: bs)
  | fragmentSpread {name : String} {conditions : IncludeSkip} {as bs : List Selection}
      (hkeeps : rewriting.keeps conditions = true) (hrest : Rewrites as bs) :
      Rewrites (.fragmentSpread name conditions :: as)
        (.fragmentSpread name (rewriting.conditions conditions) :: bs)
  | dropped {first : Selection} {as bs : List Selection}
      (hdropped : rewriting.keeps first.conditions = false) (hrest : Rewrites as bs) :
      Rewrites (first :: as) bs
  | emptied {typeCondition : Option String} {conditions : IncludeSkip}
      {inner as bs : List Selection} (hinner : Rewrites inner []) (hrest : Rewrites as bs) :
      Rewrites (.inlineFragment typeCondition conditions inner :: as) bs

/-- A fragment is rewritten to another one. -/
structure RewritesFragment (a b : Fragment) : Prop where
  /-- The type to which the fragment applies stays. -/
  typeCondition : a.typeCondition = b.typeCondition
  /-- The selections are rewritten. -/
  selections : rewriting.Rewrites a.selections b.selections

/-- The fragments with the same names are rewritten. -/
def RewritesFragments (fragments fragments' : Fragments) : Prop :=
  ∀ name, Option.Rel rewriting.RewritesFragment (Dict.get? fragments name)
    (Dict.get? fragments' name)

/-- What becomes of a fragment around a field. -/
def enclosure (enclosure : Enclosure) : Enclosure :=
  { enclosure with conditions := rewriting.conditions enclosure.conditions }

/-- A field that is met on a walk is rewritten to another one. -/
structure RewritesOccurrence (a b : Occurrence) : Prop where
  /-- The field is rewritten. -/
  field : rewriting.RewritesField a.field b.field
  /-- The nested selections are rewritten. -/
  selections : Option.Rel rewriting.Rewrites a.selections? b.selections?
  /-- The conditions of the fragments around the field are replaced. -/
  around : b.around = a.around.map rewriting.enclosure

/-- The walk that passes by what is dropped. -/
def walker : Walker :=
  ⟨fun _ conditions ↦ rewriting.keeps conditions, rewriting.keeps⟩

variable {rewriting}

theorem RewritesField.responseKey {a b : SelectedField} (h : rewriting.RewritesField a b) :
    a.responseKey = b.responseKey := by
  rw [SelectedField.responseKey, SelectedField.responseKey, h.name, h.aliasName]

theorem Rewrites.append {as bs cs ds : List Selection} (hfirst : rewriting.Rewrites as bs)
    (hrest : rewriting.Rewrites cs ds) : rewriting.Rewrites (as ++ cs) (bs ++ ds) := by
  induction hfirst with
  | nil => exact hrest
  | leaf hkeeps hfield _ ih => exact .leaf hkeeps hfield ih
  | nested hkeeps hfield hinner _ _ ih => exact .nested hkeeps hfield hinner ih
  | inlineFragment hkeeps hinner _ _ ih => exact .inlineFragment hkeeps hinner ih
  | fragmentSpread hkeeps _ ih => exact .fragmentSpread hkeeps ih
  | dropped hdropped _ ih => exact .dropped hdropped ih
  | emptied hinner _ _ ih => exact .emptied hinner ih

theorem Rewrites.flatten {sets sets' : List (List Selection)}
    (h : List.Forall₂ rewriting.Rewrites sets sets') :
    rewriting.Rewrites sets.flatten sets'.flatten := by
  induction h with
  | nil => exact .nil
  | cons hfirst _ ih => exact hfirst.append ih

/-! ### Walking through rewritten selections -/

/-- Occurrences inside a fragment are rewritten if they are. -/
theorem RewritesOccurrence.inside {found others : List Occurrence}
    (h : List.Forall₂ rewriting.RewritesOccurrence found others) (enclosure : Enclosure) :
    List.Forall₂ rewriting.RewritesOccurrence (found.map (Occurrence.inside enclosure))
      (others.map (Occurrence.inside (rewriting.enclosure enclosure))) := by
  refine List.forall₂_map_left_iff.2 (List.forall₂_map_right_iff.2 (h.imp fun a b hab ↦ ?_))
  exact ⟨hab.field, hab.selections, congrArg (rewriting.enclosure enclosure :: ·) hab.around⟩

private theorem filter_cons_kept {occurrence : Occurrence} {rest : List Occurrence}
    (hkeeps : rewriting.keeps occurrence.field.conditions = true)
    (haround : occurrence.around = []) :
    (occurrence :: rest).filter rewriting.walker.reaches
      = occurrence :: rest.filter rewriting.walker.reaches := by
  rw [List.filter_cons_of_pos]
  simp [Walker.reaches, walker, haround, hkeeps]

private theorem filter_cons_dropped {occurrence : Occurrence} {rest : List Occurrence}
    (hdropped : rewriting.keeps occurrence.field.conditions = false) :
    (occurrence :: rest).filter rewriting.walker.reaches
      = rest.filter rewriting.walker.reaches := by
  rw [List.filter_cons_of_neg]
  simp [Walker.reaches, walker, hdropped]

private theorem filter_inside (enclosure : Enclosure) (inner rest : List Occurrence) :
    (inner.map (Occurrence.inside enclosure) ++ rest).filter rewriting.walker.reaches
      = (if rewriting.keeps enclosure.conditions then
          (inner.filter rewriting.walker.reaches).map (Occurrence.inside enclosure) else [])
        ++ rest.filter rewriting.walker.reaches := by
  rw [List.filter_append, Walker.filter_map_inside]
  rfl

/-- A walk through rewritten selections meets the rewritten occurrences, except those that are
dropped. -/
theorem Rewrites.meets {fragments fragments' : Fragments}
    (hfragments : rewriting.RewritesFragments fragments fragments')
    {selections selections' : List Selection} (h : rewriting.Rewrites selections selections')
    {occurrences : List Occurrence}
    (hmeets : Walker.everywhere.Meets fragments selections occurrences) :
    ∃ others, Walker.everywhere.Meets fragments' selections' others ∧
      List.Forall₂ rewriting.RewritesOccurrence
        (occurrences.filter rewriting.walker.reaches) others := by
  induction hmeets generalizing selections' with
  | nil =>
    cases h
    exact ⟨[], .nil, .nil⟩
  | leaf _ _ ih =>
    cases h with
    | leaf hkeeps hfield hrest =>
      obtain ⟨others, hothers, hrewritten⟩ := ih hrest
      rw [filter_cons_kept hkeeps rfl]
      exact ⟨_, .leaf rfl hothers, .cons ⟨hfield, .none, rfl⟩ hrewritten⟩
    | dropped hdropped hrest =>
      rw [filter_cons_dropped hdropped]
      exact ih hrest
  | nested _ _ ih =>
    cases h with
    | nested hkeeps hfield hinner hrest =>
      obtain ⟨others, hothers, hrewritten⟩ := ih hrest
      rw [filter_cons_kept hkeeps rfl]
      exact ⟨_, .nested rfl hothers, .cons ⟨hfield, .some hinner, rfl⟩ hrewritten⟩
    | dropped hdropped hrest =>
      rw [filter_cons_dropped hdropped]
      exact ih hrest
  | @inlineFragment typeCondition conditions _ _ inner found _ _ _ ihinner ihrest =>
    rw [filter_inside]
    cases h with
    | inlineFragment hkeeps hinner hrest =>
      obtain ⟨others, hothers, hrewritten⟩ := ihrest hrest
      obtain ⟨inside, hinside, hrewritten'⟩ := ihinner hinner
      rw [if_pos hkeeps]
      exact ⟨_, .inlineFragment rfl hinside hothers,
        List.rel_append (RewritesOccurrence.inside hrewritten' _) hrewritten⟩
    | dropped hdropped hrest =>
      have hnot : rewriting.keeps conditions = false := hdropped
      rw [if_neg (ne_true_of_eq_false hnot)]
      exact ihrest hrest
    | emptied hinner hrest =>
      -- where nothing remains of the selections, no occurrence in them is kept
      obtain ⟨inside, hinside, hrewritten'⟩ := ihinner hinner
      cases hinside
      rw [List.forall₂_nil_right_iff.1 hrewritten', List.map_nil, ite_self]
      exact ihrest hrest
  | @fragmentSpread name conditions fragment _ inner found hget _ _ _ ihinner ihrest =>
    rw [filter_inside]
    cases h with
    | fragmentSpread hkeeps hrest =>
      have hrel := hfragments name
      rw [hget] at hrel
      cases hget' : Dict.get? fragments' name with
      | none =>
        rw [hget'] at hrel
        cases hrel
      | some fragment' =>
        rw [hget'] at hrel
        cases hrel with
        | some hfragment =>
          obtain ⟨others, hothers, hrewritten⟩ := ihrest hrest
          obtain ⟨inside, hinside, hrewritten'⟩ := ihinner hfragment.selections
          rw [if_pos hkeeps]
          refine ⟨_, .fragmentSpread hget' rfl hinside hothers, List.rel_append ?_ hrewritten⟩
          rw [← hfragment.typeCondition]
          exact RewritesOccurrence.inside hrewritten' _
    | dropped hdropped hrest =>
      have hnot : rewriting.keeps conditions = false := hdropped
      rw [if_neg (ne_true_of_eq_false hnot)]
      exact ihrest hrest
  | leafPassed htakes => cases htakes
  | nestedPassed htakes => cases htakes
  | inlineFragmentPassed henters => cases henters
  | fragmentSpreadPassed _ henters => cases henters

end Rewriting

/-! ### What is compared of rewritten fields -/

/-- All that is compared of a field except for its arguments and its conditions. -/
def FieldKey.shape (key : FieldKey) : String × String × Bool × Bool × List String :=
  (key.responseKey, key.name, key.isLocal, key.isLeaf, key.typeConditions)

theorem FieldKey.same_iff_shape {a b : FieldKey} :
    a.same b = true ↔ a.shape = b.shape ∧
      ArgumentValue.sameFields a.arguments b.arguments = true ∧ a.conditions = b.conditions := by
  simp only [same_iff, shape, Prod.mk.injEq]
  tauto

namespace Rewriting

variable {rewriting : Rewriting}

variable (rewriting) in
/-- What is compared of a field is rewritten. -/
structure RewritesKey (a b : FieldKey) : Prop where
  /-- The key in the response stays. -/
  responseKey : a.responseKey = b.responseKey
  /-- The name stays. -/
  name : a.name = b.name
  /-- The arguments are replaced. -/
  arguments : rewriting.arguments a.arguments b.arguments
  /-- The field stays local or remote. -/
  isLocal : a.isLocal = b.isLocal
  /-- The field stays a leaf or not. -/
  isLeaf : a.isLeaf = b.isLeaf
  /-- The types to which the fragments apply stay. -/
  typeConditions : a.typeConditions = b.typeConditions
  /-- The conditions are replaced; those that always hold after that do not count. -/
  conditions : b.conditions =
    (a.conditions.map rewriting.conditions).filter fun conditions ↦ !conditions.isUnconditional
  /-- The conditions do not always hold. -/
  conditional : ∀ conditions ∈ a.conditions, conditions.isUnconditional = false

theorem RewritesKey.shape {a b : FieldKey} (h : rewriting.RewritesKey a b) : a.shape = b.shape := by
  rw [FieldKey.shape, FieldKey.shape, h.responseKey, h.name, h.isLocal, h.isLeaf, h.typeConditions]

variable (rewriting) in
/-- Whether a field is kept. -/
def keepsKey (key : FieldKey) : Bool :=
  key.conditions.all rewriting.keeps

/-- A property of all conditions of an occurrence, if what is unconditional has it. -/
theorem all_conditions_occurrence {p : IncludeSkip → Bool} (hp : p .unconditional = true)
    (occurrence : Occurrence) :
    occurrence.conditions.all p =
      (occurrence.around.all (fun enclosure ↦ p enclosure.conditions)
        && p occurrence.field.conditions) := by
  have hcounts (conditions : IncludeSkip) :
      (!!conditions.isUnconditional || p conditions) = p conditions := by
    cases h : conditions.isUnconditional with
    | true => simp [(IncludeSkip.isUnconditional_iff conditions).1 h, hp]
    | false => rfl
  rw [Occurrence.conditions, List.all_filter]
  simp only [hcounts]
  simp [List.all_map, Function.comp_def]

theorem keepsKey_occurrence (hkeeps : rewriting.keeps .unconditional = true)
    (occurrence : Occurrence) :
    rewriting.keepsKey occurrence.key = rewriting.walker.reaches occurrence :=
  all_conditions_occurrence hkeeps occurrence

theorem isNone_eq_of_rel {a b : Option (List Selection)}
    (h : Option.Rel rewriting.Rewrites a b) : a.isNone = b.isNone := by
  cases h <;> rfl

/-- Conditions that always hold can be left out before the others are replaced. -/
private theorem filter_map_filter
    (hunconditional : rewriting.conditions .unconditional = .unconditional)
    (all : List IncludeSkip) :
    ((all.filter fun conditions ↦ !conditions.isUnconditional).map rewriting.conditions).filter
        (fun conditions ↦ !conditions.isUnconditional)
      = (all.map rewriting.conditions).filter fun conditions ↦ !conditions.isUnconditional := by
  rw [List.filter_map, List.filter_map, List.filter_filter]
  refine congrArg _ (List.filter_congr fun conditions _ ↦ ?_)
  cases hown : conditions.isUnconditional with
  | true => simp [(IncludeSkip.isUnconditional_iff conditions).1 hown, hunconditional]
  | false => simp

theorem RewritesOccurrence.key
    (hunconditional : rewriting.conditions .unconditional = .unconditional)
    {a b : Occurrence} (h : rewriting.RewritesOccurrence a b) :
    rewriting.RewritesKey a.key b.key where
  responseKey := h.field.responseKey
  name := h.field.name
  arguments := h.field.arguments
  isLocal := h.field.isLocal
  isLeaf := isNone_eq_of_rel h.selections
  typeConditions := by
    have htypes : (fun enclosure ↦ (rewriting.enclosure enclosure).typeCondition)
        = Enclosure.typeCondition := rfl
    simp only [Occurrence.key, Occurrence.typeConditions, h.around, List.filterMap_map,
      Function.comp_def, htypes]
  conditions := by
    have hall : b.around.map (·.conditions) ++ [b.field.conditions]
        = (a.around.map (·.conditions) ++ [a.field.conditions]).map rewriting.conditions := by
      simp [h.around, h.field.conditions, enclosure]
    rw [Occurrence.key, Occurrence.key, Occurrence.conditions, Occurrence.conditions, hall,
      filter_map_filter hunconditional]
  conditional conditions hmem := by
    simpa using (List.mem_filter.1 hmem).2

/-- Given variables exclude the same before and after rewriting, and lead to the same names of
fields in records. -/
structure Faithful (rewriting : Rewriting) (vars : Object) : Prop where
  /-- Whatever is unconditional stays so. -/
  conditions_unconditional : rewriting.conditions .unconditional = .unconditional
  /-- The variables exclude the same as before. -/
  shouldSkip_conditions : ∀ conditions,
    (rewriting.conditions conditions).shouldSkip vars = conditions.shouldSkip vars
  /-- The names in records are the same as before. -/
  storageName : ∀ {a b : Arguments}, rewriting.arguments a b → ∀ name,
    storageName name (ArgumentValue.bindAll vars a)
      = storageName name (ArgumentValue.bindAll vars b)

namespace Faithful

variable {vars : Object} (h : rewriting.Faithful vars)

include h

theorem keeps_unconditional : rewriting.keeps .unconditional = true := by
  rw [keeps, h.conditions_unconditional]
  rfl

/-- A field that is dropped has a condition that excludes it. -/
theorem any_of_dropped {key : FieldKey} (hdropped : rewriting.keepsKey key = false) :
    key.conditions.any (·.shouldSkip vars) = true := by
  obtain ⟨conditions, hmem, hnot⟩ := List.all_eq_false.1 hdropped
  refine List.any_eq_true.2 ⟨conditions, hmem, ?_⟩
  rw [← h.shouldSkip_conditions]
  refine IncludeSkip.shouldSkip_of_staticallySkipped ?_ vars
  simpa [keeps] using hnot

/-- A field is excluded if it was so before. -/
theorem any_of_rewritten {key key' : FieldKey} (hkey : rewriting.RewritesKey key key') :
    key'.conditions.any (·.shouldSkip vars) = key.conditions.any (·.shouldSkip vars) := by
  have hcounts (conditions : IncludeSkip) :
      (!conditions.isUnconditional && conditions.shouldSkip vars) = conditions.shouldSkip vars := by
    cases hown : conditions.isUnconditional with
    | true => simp [IncludeSkip.shouldSkip_of_isUnconditional hown]
    | false => rfl
  rw [hkey.conditions, List.any_filter]
  simp only [hcounts, List.any_map, Function.comp_def]
  rw [Bool.eq_iff_iff, List.any_eq_true, List.any_eq_true]
  refine exists_congr fun conditions ↦ and_congr_right fun _ ↦ ?_
  rw [h.shouldSkip_conditions]

end Faithful

/-! ### Gathering rewritten occurrences -/

section Gather

variable (type? : Option String) (names : List String)

private theorem addTo_filter (hkeeps : rewriting.keeps .unconditional = true)
    (occurrence : Occurrence) (found : List CollectedField) :
    ((occurrence.collected { parentType := type?, openFragments := names }).addTo found).filter
        (fun field ↦ rewriting.keepsKey field.key)
      = if rewriting.walker.reaches occurrence then
          (occurrence.collected { parentType := type?, openFragments := names }).addTo
            (found.filter fun field ↦ rewriting.keepsKey field.key)
        else found.filter fun field ↦ rewriting.keepsKey field.key := by
  have hown : rewriting.keepsKey
      (occurrence.collected { parentType := type?, openFragments := names }).key
        = rewriting.walker.reaches occurrence := by
    rw [Occurrence.key_collected, keepsKey_occurrence hkeeps]
  induction found with
  | nil =>
    rw [CollectedField.addTo, List.filter_cons, hown]
    rfl
  | cons first rest ih =>
    rw [CollectedField.addTo]
    split
    · next hmerges =>
      -- fields that are merged have the same conditions, so both are kept or none
      have hsame : rewriting.keepsKey first.key = rewriting.walker.reaches occurrence := by
        rw [CollectedField.mergesWith_eq] at hmerges
        rw [← hown, keepsKey, keepsKey, (FieldKey.same_iff.1 hmerges).2.2.2.2.2.2]
      rw [List.filter_cons, List.filter_cons]
      have hkey : CollectedField.key { first with selectionSets := first.selectionSets
          ++ (occurrence.collected { parentType := type?, openFragments := names }).selectionSets }
            = first.key := rfl
      rw [hkey, hsame]
      split
      · rw [CollectedField.addTo, if_pos hmerges]
      · rfl
    · next hmerges =>
      rw [List.filter_cons, List.filter_cons, ih]
      split
      · split
        · rw [CollectedField.addTo, if_neg hmerges]
        · rfl
      · rfl

/-- Fields that are dropped do not matter for what becomes of the others. -/
theorem gather_filter (hkeeps : rewriting.keeps .unconditional = true)
    (found : List CollectedField) (occurrences : List Occurrence) :
    (Planner.gather { parentType := type?, openFragments := names } found occurrences).filter
        (fun field ↦ rewriting.keepsKey field.key)
      = Planner.gather { parentType := type?, openFragments := names }
          (found.filter fun field ↦ rewriting.keepsKey field.key)
          (occurrences.filter rewriting.walker.reaches) := by
  induction occurrences generalizing found with
  | nil => rfl
  | cons occurrence rest ih =>
    rw [Planner.gather, List.foldl_cons, ← Planner.gather, ih, addTo_filter type? names hkeeps,
      List.filter_cons]
    split
    · rfl
    · rfl

variable (rewriting) in
/-- A field that was collected from occurrences is rewritten to one that was collected from others:
the first occurrence is rewritten, and so are the nested selections of all occurrences. -/
inductive RewritesCollected (occurrences others : List Occurrence) :
    CollectedField → CollectedField → Prop where
  | intro {occurrence other : Occurrence} {sets sets' : List (List Selection)}
      (hmem : occurrence ∈ occurrences) (hmem' : other ∈ others)
      (hoccurrence : rewriting.RewritesOccurrence occurrence other)
      (hsets : List.Forall₂ rewriting.Rewrites sets sets') :
      RewritesCollected occurrences others
        { occurrence.collected { parentType := type?, openFragments := names } with
          selectionSets := sets }
        { other.collected { parentType := type?, openFragments := names } with
          selectionSets := sets' }

variable {type? names} {occurrences others : List Occurrence}

theorem RewritesCollected.exists_occurrences {c d : CollectedField}
    (h : rewriting.RewritesCollected type? names occurrences others c d) :
    ∃ a ∈ occurrences, ∃ b ∈ others, rewriting.RewritesOccurrence a b ∧
      c.key = a.key ∧ d.key = b.key := by
  cases h with
  | intro hmem hmem' hoccurrence _ =>
    exact ⟨_, hmem, _, hmem', hoccurrence, Occurrence.key_collected .., Occurrence.key_collected ..⟩

private theorem rel_toList {a b : Option (List Selection)}
    (h : Option.Rel rewriting.Rewrites a b) :
    List.Forall₂ rewriting.Rewrites a.toList b.toList := by
  cases h with
  | some h => exact .cons h .nil
  | none => exact .nil

private theorem addTo_rewritten {found found' : List CollectedField}
    (h : List.Forall₂ (rewriting.RewritesCollected type? names occurrences others) found found')
    {a b : CollectedField}
    (hfirst : rewriting.RewritesCollected type? names occurrences others a b)
    (hmerges : ∀ c d, rewriting.RewritesCollected type? names occurrences others c d →
      c.mergesWith a = d.mergesWith b) :
    List.Forall₂ (rewriting.RewritesCollected type? names occurrences others)
      (a.addTo found) (b.addTo found') := by
  induction h with
  | nil => exact .cons hfirst .nil
  | @cons c d cs ds hcd hrest ih =>
    rw [CollectedField.addTo, CollectedField.addTo, hmerges c d hcd]
    split
    · cases hcd with
      | intro hmem hmem' hoccurrence hsets =>
        cases hfirst with
        | intro _ _ _ hmore =>
          exact .cons (.intro hmem hmem' hoccurrence (List.rel_append hsets hmore)) hrest
    · exact .cons hcd ih

/-- Rewritten occurrences are gathered like the original ones if the same of them are merged. -/
theorem gather_rewritten
    (hmerges : ∀ a ∈ occurrences, ∀ b ∈ others, ∀ c ∈ occurrences, ∀ d ∈ others,
      rewriting.RewritesOccurrence a b → rewriting.RewritesOccurrence c d →
        a.key.same c.key = b.key.same d.key)
    {met met' : List Occurrence} (hmet : List.Forall₂ rewriting.RewritesOccurrence met met')
    (hsubset : met ⊆ occurrences) (hsubset' : met' ⊆ others) {found found' : List CollectedField}
    (hfound : List.Forall₂ (rewriting.RewritesCollected type? names occurrences others) found
      found') :
    List.Forall₂ (rewriting.RewritesCollected type? names occurrences others)
      (Planner.gather { parentType := type?, openFragments := names } found met)
      (Planner.gather { parentType := type?, openFragments := names } found' met') := by
  induction hmet generalizing found found' with
  | nil => exact hfound
  | @cons a b as bs hab _ ih =>
    obtain ⟨ha, has⟩ := List.cons_subset.1 hsubset
    obtain ⟨hb, hbs⟩ := List.cons_subset.1 hsubset'
    refine ih has hbs (addTo_rewritten hfound (.intro ha hb hab (rel_toList hab.selections)) ?_)
    intro c d hcd
    obtain ⟨occurrence, hc, other, hd, hrewritten, hkey, hkey'⟩ := hcd.exists_occurrences
    rw [CollectedField.mergesWith_eq, CollectedField.mergesWith_eq, hkey, hkey',
      Occurrence.key_collected, Occurrence.key_collected]
    exact hmerges _ hc _ hd _ ha _ hb hrewritten hab

end Gather

end Rewriting

end GraphCache
