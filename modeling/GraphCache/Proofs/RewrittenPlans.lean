import GraphCache.Proofs.CorrespondingPlans
import GraphCache.Proofs.Flattening
import GraphCache.Proofs.PlanningRuns
import GraphCache.Proofs.Rewriting

/-!
# Plans of rewritten selections

Selections that are rewritten get a plan if the original ones have one, and both plans read alike.
This holds as long as the rewriting does not change which of the collected fields become one. So it
has to be known of the fields that the planner collects from a group of selection sets that those
which could become one in the other group are one already.

## Main definitions

* `Planner.MergesAlike`: fields of one group that are alike have become one.
* `Rewriting.RespectsMerging`: fields that become one on one side are alike on the other side.

## Main results

* `Rewriting.collect_rewritten`: rewritten selections can be collected.
* `Rewriting.planSelection_rewritten`: the plans of a group and of the rewritten group read alike.
-/

namespace GraphCache

/-! ### Scopes -/

/-- The scope without its conditions. -/
def Scope.unconditional (scope : Scope) : Scope :=
  { scope with conditions := [] }

namespace Rewriting

variable {rewriting : Rewriting}

theorem unconditional_enclose {scope scope' : Scope}
    (h : scope.unconditional = scope'.unconditional) (enclosure : Enclosure) :
    (scope.enclose enclosure).unconditional
      = (scope'.enclose (rewriting.enclosure enclosure)).unconditional := by
  obtain ⟨parentType, typeConditions, conditions, openFragments⟩ := scope
  obtain ⟨name?, typeCondition, own⟩ := enclosure
  cases h
  cases typeCondition <;> rfl

variable (rewriting) in
/-- Rewriting the fragments around a field only changes the conditions. -/
theorem unconditional_within {scope scope' : Scope} (h : scope.unconditional = scope'.unconditional)
    (around : List Enclosure) :
    (scope.within around).unconditional
      = (scope'.within (around.map rewriting.enclosure)).unconditional := by
  induction around generalizing scope scope' with
  | nil => exact h
  | cons enclosure around ih => exact ih (unconditional_enclose h enclosure)

/-! ### Collecting -/

/-- Where selections can be collected, rewritten ones can be collected, too. -/
theorem collect_rewritten {fragments fragments' : Fragments}
    (hfragments : rewriting.RewritesFragments fragments fragments') {levels : Nat}
    {selections selections' : List Selection} (h : rewriting.Rewrites selections selections')
    {scope scope' : Scope} (hopen : scope.openFragments = scope'.openFragments)
    {found collected : List CollectedField}
    (hcollect : Planner.collect fragments levels selections scope found = .ok collected)
    (found' : List CollectedField) :
    ∃ collected', Planner.collect fragments' levels selections' scope' found' = .ok collected' := by
  induction levels generalizing selections selections' scope scope' found collected found' with
  | zero => cases hcollect
  | succ levels ih =>
    have henter (typeCondition : Option String) (conditions : IncludeSkip) :
        (scope.enter typeCondition conditions).openFragments
          = (scope'.enter typeCondition (rewriting.conditions conditions)).openFragments := by
      cases typeCondition <;> exact hopen
    induction h generalizing found found' with
    | nil => exact ⟨found', rfl⟩
    | leaf _ _ _ ihrest | nested _ _ _ _ _ ihrest =>
      rw [Planner.collect_cons] at hcollect
      obtain ⟨_, _, hrest⟩ := Planner.bind_eq_ok_iff.1 hcollect
      obtain ⟨collected', hcollected⟩ := ihrest hrest _
      exact ⟨collected', (Planner.collect_cons ..).trans hcollected⟩
    | @inlineFragment typeCondition conditions _ _ _ _ _ hinner _ _ ihrest =>
      rw [Planner.collect_cons] at hcollect
      obtain ⟨middle, hfirst, hrest⟩ := Planner.bind_eq_ok_iff.1 hcollect
      obtain ⟨middle', hmiddle⟩ := ih hinner (henter typeCondition conditions) hfirst found'
      obtain ⟨collected', hcollected⟩ := ihrest hrest middle'
      refine ⟨collected', ?_⟩
      rw [Planner.collect_cons]
      exact Planner.bind_eq_ok_iff.2 ⟨middle', hmiddle, hcollected⟩
    | @fragmentSpread name conditions _ _ _ _ ihrest =>
      rw [Planner.collect_cons] at hcollect
      obtain ⟨middle, hfirst, hrest⟩ := Planner.bind_eq_ok_iff.1 hcollect
      rw [Planner.collectSelection] at hfirst
      split at hfirst
      · cases hfirst
      · next hnot =>
        have hrel := hfragments name
        cases hget : Dict.get? fragments name with
        | none =>
          rw [hget] at hfirst
          cases hfirst
        | some fragment =>
          rw [hget] at hfirst hrel
          cases hget' : Dict.get? fragments' name with
          | none =>
            rw [hget'] at hrel
            cases hrel
          | some fragment' =>
            rw [hget'] at hrel
            cases hrel with
            | some hfragment =>
              have hopen' : (scope.enterNamed name fragment conditions).openFragments
                  = (scope'.enterNamed name fragment'
                      (rewriting.conditions conditions)).openFragments :=
                congrArg (· ++ [name]) hopen
              obtain ⟨middle', hmiddle⟩ := ih hfragment.selections hopen' hfirst found'
              obtain ⟨collected', hcollected⟩ := ihrest hrest middle'
              refine ⟨collected', ?_⟩
              rw [Planner.collect_cons,
                Planner.collectSelection_fragmentSpread (hopen ▸ hnot) hget']
              exact Planner.bind_eq_ok_iff.2 ⟨middle', hmiddle, hcollected⟩
    | dropped _ _ ihrest =>
      rw [Planner.collect_cons] at hcollect
      obtain ⟨_, _, hrest⟩ := Planner.bind_eq_ok_iff.1 hcollect
      exact ihrest hrest found'
    | emptied _ _ _ ihrest =>
      rw [Planner.collect_cons] at hcollect
      obtain ⟨_, _, hrest⟩ := Planner.bind_eq_ok_iff.1 hcollect
      exact ihrest hrest found'

/-- Where a group of selection sets can be collected, the rewritten group can be collected, too. -/
theorem collectAll_rewritten {fragments fragments' : Fragments}
    (hfragments : rewriting.RewritesFragments fragments fragments') {levels : Nat}
    {sets sets' : List (List Selection)} (h : List.Forall₂ rewriting.Rewrites sets sets')
    {scope : Scope} {found collected : List CollectedField}
    (hcollect : sets.foldlM (fun found selections ↦
      Planner.collect fragments levels selections scope found) found = .ok collected)
    (found' : List CollectedField) :
    ∃ collected', sets'.foldlM (fun found selections ↦
      Planner.collect fragments' levels selections scope found) found' = .ok collected' := by
  induction h generalizing found found' with
  | nil => exact ⟨found', rfl⟩
  | cons hfirst _ ih =>
    rw [List.foldlM_cons] at hcollect
    obtain ⟨middle, hmiddle, hrest⟩ := Planner.bind_eq_ok_iff.1 hcollect
    obtain ⟨middle', hmiddle'⟩ := collect_rewritten hfragments hfirst rfl hmiddle found'
    obtain ⟨collected', hcollected⟩ := ih hrest middle'
    refine ⟨collected', ?_⟩
    rw [List.foldlM_cons]
    exact Planner.bind_eq_ok_iff.2 ⟨middle', hmiddle', hcollected⟩

end Rewriting

/-! ### Fields that become one -/

/-- Of the fields that the planner collects from a group of selection sets, those that count and
are alike have become one; and so it is below each field that counts and has nested selections. -/
def Planner.MergesAlike (counts : FieldKey → Bool) (alike : FieldKey → FieldKey → Prop)
    (fragments : Fragments) : Nat → List (List Selection) → Scope → Prop
  | 0, _, _ => True
  | levels + 1, selectionSets, scope => ∀ collected,
    selectionSets.foldlM (fun found selections =>
        collect fragments (levels + 1) selections scope found) [] = .ok collected →
      (∀ a ∈ collected, ∀ b ∈ collected, counts a.key = true → counts b.key = true →
        alike a.key b.key → a.key.same b.key = true) ∧
      ∀ field ∈ collected, counts field.key = true → field.isLeaf = false →
        MergesAlike counts alike fragments levels field.selectionSets
          { openFragments := field.scope.openFragments }

theorem Planner.MergesAlike.mono {counts counts' : FieldKey → Bool}
    {alike : FieldKey → FieldKey → Prop} {fragments : Fragments}
    (hcounts : ∀ key, counts' key = true → counts key = true) {levels : Nat}
    {selectionSets : List (List Selection)} {scope : Scope}
    (h : MergesAlike counts alike fragments levels selectionSets scope) :
    MergesAlike counts' alike fragments levels selectionSets scope := by
  induction levels generalizing selectionSets scope with
  | zero => trivial
  | succ levels ih =>
    intro collected hcollect
    obtain ⟨hmerges, hinner⟩ := h collected hcollect
    exact ⟨fun a ha b hb hcounts' hcounts'' ↦
        hmerges a ha b hb (hcounts _ hcounts') (hcounts _ hcounts''),
      fun field hfield hfieldCounts hleaf ↦ ih (hinner field hfield (hcounts _ hfieldCounts) hleaf)⟩

/-- If no fields are alike there is nothing to merge. -/
theorem Planner.MergesAlike.of_none (counts : FieldKey → Bool) (fragments : Fragments)
    (levels : Nat) (selectionSets : List (List Selection)) (scope : Scope) :
    MergesAlike counts (fun _ _ ↦ False) fragments levels selectionSets scope := by
  induction levels generalizing selectionSets scope with
  | zero => trivial
  | succ levels ih =>
    exact fun collected _ ↦ ⟨fun _ _ _ _ _ _ hfalse ↦ hfalse.elim, fun field _ _ _ ↦ ih _ _⟩

/-- It is enough to look at the fields that are collected. -/
theorem Planner.MergesAlike.of_collect {counts : FieldKey → Bool}
    {alike : FieldKey → FieldKey → Prop} {fragments : Fragments} {levels : Nat}
    {selectionSets : List (List Selection)} {scope : Scope} {collected : List CollectedField}
    (hcollect : selectionSets.foldlM (fun found selections =>
      collect fragments (levels + 1) selections scope found) [] = .ok collected)
    (hmerges : ∀ a ∈ collected, ∀ b ∈ collected, alike a.key b.key → a.key.same b.key = true)
    (hinner : ∀ field ∈ collected, field.isLeaf = false →
      MergesAlike counts alike fragments levels field.selectionSets
        { openFragments := field.scope.openFragments }) :
    MergesAlike counts alike fragments (levels + 1) selectionSets scope := by
  intro found hfound
  obtain rfl : collected = found := Except.ok.inj (hcollect.symm.trans hfound)
  exact ⟨fun a ha b hb _ _ ↦ hmerges a ha b hb, fun field hfield _ ↦ hinner field hfield⟩

/-- Fields that are merged with fields that are alike are alike themselves. -/
def FieldKey.Congruent (alike : FieldKey → FieldKey → Prop) : Prop :=
  ∀ {a b c d : FieldKey}, a.WellFormed → b.WellFormed → c.WellFormed → d.WellFormed →
    a.same b = true → c.same d = true → alike b d → alike a c

/-- The nested selections of collected fields are well-formed. -/
theorem Planner.Gathered.wellFormed {scope : Scope} {occurrences : List Occurrence}
    {collected : List CollectedField} (h : Gathered scope occurrences collected)
    (hwell : ∀ occurrence ∈ occurrences, occurrence.WellFormed) {field : CollectedField}
    (hfield : field ∈ collected) :
    ∀ selections ∈ field.selectionSets, Selection.listWellFormed selections := by
  rw [h.selectionSets field hfield]
  intro selections hmem
  obtain ⟨occurrence, hoccurrence, hselections⟩ := List.mem_filterMap.1 hmem
  exact (hwell occurrence (List.mem_of_mem_filter hoccurrence)).selections selections hselections

namespace Rewriting

variable {rewriting : Rewriting}

/-- Occurrences of fields that count and are alike are merged, if that is so for the fields into
which they are gathered. -/
theorem same_of_alike (counts : FieldKey → Bool) {alike : FieldKey → FieldKey → Prop}
    (hcounts : ∀ a b : FieldKey, a.same b = true → counts a = counts b)
    (halike : FieldKey.Congruent alike) {type? : Option String} {names : List String}
    {occurrences : List Occurrence} (hwell : ∀ occurrence ∈ occurrences, occurrence.WellFormed)
    (hmerges : ∀ a ∈ Planner.gather { parentType := type?, openFragments := names } [] occurrences,
      ∀ b ∈ Planner.gather { parentType := type?, openFragments := names } [] occurrences,
        counts a.key = true → counts b.key = true → alike a.key b.key → a.key.same b.key = true)
    {a b : Occurrence} (ha : a ∈ occurrences) (hb : b ∈ occurrences)
    (hcountsA : counts a.key = true) (hcountsB : counts b.key = true) (h : alike a.key b.key) :
    a.key.same b.key = true := by
  have hgathered := Planner.gathered_gather type? names occurrences hwell
  have hkey (field : CollectedField) (hfield : field ∈
      Planner.gather { parentType := type?, openFragments := names } [] occurrences) :
      field.key.WellFormed := by
    obtain ⟨other, hfind, hother, -⟩ := hgathered.first field hfield
    exact hother ▸ (hwell other (List.mem_of_find?_eq_some hfind)).key
  obtain ⟨fieldA, hfieldA, hsameA⟩ := hgathered.covers a ha
  obtain ⟨fieldB, hfieldB, hsameB⟩ := hgathered.covers b hb
  have hwellA := (hwell a ha).key
  have hwellB := (hwell b hb).key
  have hfields : fieldA.key.same fieldB.key = true :=
    hmerges fieldA hfieldA fieldB hfieldB ((hcounts _ _ hsameA).trans hcountsA)
      ((hcounts _ _ hsameB).trans hcountsB)
      (halike (hkey _ hfieldA) hwellA (hkey _ hfieldB) hwellB hsameA hsameB h)
  have hback := FieldKey.same_symm (hkey _ hfieldA) hwellA hsameA
  exact FieldKey.same_trans hwellA (hkey _ hfieldA) hwellB hback
    (FieldKey.same_trans (hkey _ hfieldA) (hkey _ hfieldB) hwellB hfields hsameB)

/-- Fields that become one on one side are alike on the other side, or become one there, too. -/
structure RespectsMerging (rewriting : Rewriting) (alike alike' : FieldKey → FieldKey → Prop) :
    Prop where
  /-- It does not matter which of the fields that become one are compared. -/
  congruent : FieldKey.Congruent alike
  /-- It does not matter which of the fields that become one are compared. -/
  congruent' : FieldKey.Congruent alike'
  /-- Fields are alike if they become one after they are rewritten. -/
  back : ∀ {a b c d : FieldKey}, rewriting.RewritesKey a b → rewriting.RewritesKey c d →
    b.same d = true → alike a c
  /-- Rewritten fields become one if the original ones do, or they are alike. -/
  forth : ∀ {a b c d : FieldKey}, rewriting.RewritesKey a b → rewriting.RewritesKey c d →
    a.same c = true → b.same d = true ∨ alike' b d

end Rewriting

/-! ### Planning -/

namespace ArgumentValue

/-- Arguments without variables are bound to their values. -/
theorem bindFields_of_literalFields? (vars : Object) {arguments : Arguments}
    {values : List (String × Json)} (h : literalFields? arguments = some values) :
    bindFields vars arguments = values := by
  induction arguments generalizing values with
  | nil =>
    cases h
    rfl
  | cons argument arguments ih =>
    obtain ⟨name, value⟩ := argument
    simp only [literalFields?, List.mapM_cons, Option.bind_eq_bind, Option.bind_eq_some_iff,
      Option.map_eq_some_iff, Option.pure_def, Option.some.injEq] at h
    obtain ⟨_, ⟨json, hliteral, rfl⟩, rest, hrest, rfl⟩ := h
    cases value with
    | literal found =>
      cases hliteral
      rw [bindFields, bind?]
      exact congrArg _ (ih hrest)
    | _ => cases hliteral

end ArgumentValue

/-- What the planner works out in advance about arguments is what they are bound to. -/
theorem CollectedField.boundArguments_planned (collected : CollectedField) (vars : Object) :
    collected.planned.boundArguments vars
      = ArgumentValue.bindAll vars collected.field.arguments := by
  simp only [PlannedField.boundArguments, planned]
  cases h : ArgumentValue.literalFields? collected.field.arguments with
  | none => rfl
  | some values =>
    rw [ArgumentValue.bindAll, ArgumentValue.bindFields_of_literalFields? vars h]
    rfl

theorem CollectedField.isSkipped_planned (collected : CollectedField) (vars : Object) :
    collected.planned.isSkipped vars = collected.key.conditions.any (·.shouldSkip vars) := rfl

namespace Rewriting

variable {rewriting : Rewriting} {vars : Object}

section Collected

variable {type? : Option String} {names : List String} {occurrences others : List Occurrence}
  {c d : CollectedField} (h : rewriting.RewritesCollected type? names occurrences others c d)

include h

theorem RewritesCollected.isLeaf_eq : c.isLeaf = d.isLeaf := by
  cases h with
  | intro _ _ hoccurrence _ => exact isNone_eq_of_rel hoccurrence.selections

theorem RewritesCollected.selectionSets :
    List.Forall₂ rewriting.Rewrites c.selectionSets d.selectionSets := by
  cases h with
  | intro _ _ _ hsets => exact hsets

theorem RewritesCollected.scope :
    c.scope.parentType = d.scope.parentType ∧ c.scope.openFragments = d.scope.openFragments := by
  cases h with
  | @intro occurrence other _ _ _ _ hoccurrence _ =>
    have hwithin := unconditional_within rewriting
      (rfl : Scope.unconditional { parentType := type?, openFragments := names } = _)
      occurrence.around
    rw [← hoccurrence.around] at hwithin
    have hparent := congrArg Scope.parentType hwithin
    have hopen := congrArg Scope.openFragments hwithin
    exact ⟨hparent, hopen⟩

/-- Rewritten fields are planned to read alike. -/
theorem RewritesCollected.readsAs (hfaithful : rewriting.Faithful vars) :
    c.planned.ReadsAs vars d.planned := by
  obtain ⟨_, _, _, _, hoccurrence, hkey, hkey'⟩ := h.exists_occurrences
  have hrewritten : rewriting.RewritesKey c.key d.key := by
    rw [hkey, hkey']
    exact hoccurrence.key hfaithful.conditions_unconditional
  exact
    { name := hrewritten.name
      responseKey := hrewritten.responseKey
      storageName := by
        rw [PlannedField.storageNameFor_of_collected ⟨c, rfl⟩,
          PlannedField.storageNameFor_of_collected ⟨d, rfl⟩, c.boundArguments_planned,
          d.boundArguments_planned]
        have hname : c.planned.name = d.planned.name := hrewritten.name
        rw [hname]
        exact hfaithful.storageName hrewritten.arguments _
      isLocal := hrewritten.isLocal
      parentType := h.scope.1
      typeConditions := hrewritten.typeConditions
      isSkipped := by
        rw [c.isSkipped_planned, d.isSkipped_planned]
        exact (hfaithful.any_of_rewritten hrewritten).symm }

end Collected

section PlanFields

variable {planInner planInner' : List (List Selection) → Scope → Nat →
    Except PlanningError (SelectionPlan × Nat)}
  {type? : Option String} {names : List String} {occurrences others : List Occurrence}

/-- The collected fields that are kept are planned to read alike, if the groups below them are. -/
theorem planFields_rewritten (hfaithful : rewriting.Faithful vars)
    {collected collected' : List CollectedField}
    (hrewritten : List.Forall₂ (rewriting.RewritesCollected type? names occurrences others)
      (collected.filter fun field ↦ rewriting.keepsKey field.key) collected')
    (hbelow : ∀ c ∈ collected, rewriting.keepsKey c.key = true → c.isLeaf = false →
      ∀ d ∈ collected', rewriting.RewritesCollected type? names occurrences others c d →
        ∀ next next' plan last,
          planInner c.selectionSets { openFragments := c.scope.openFragments } next
            = .ok (plan, last) →
          ∃ plan' last', planInner' d.selectionSets { openFragments := d.scope.openFragments } next'
            = .ok (plan', last') ∧ FieldPlan.ListReadsAs vars plan.fields plan'.fields)
    {next : Nat} {plans : List FieldPlan} {last : Nat}
    (h : Planner.planFields planInner collected next = .ok (plans, last)) (next' : Nat) :
    ∃ plans' last', Planner.planFields planInner' collected' next' = .ok (plans', last') ∧
      FieldPlan.ListReadsAs vars plans plans' := by
  induction collected generalizing collected' next plans next' with
  | nil =>
    cases hrewritten
    cases h
    exact ⟨[], next', rfl, .nil⟩
  | cons c rest ih =>
    obtain ⟨hfirst, hrest⟩ := List.forall_mem_cons.1 hbelow
    obtain ⟨plan, others, middle, rfl, hplanned, hothers⟩ := Planner.planFields_cons_plannedAs h
    -- a field that is dropped is planned on one side only
    cases hkeeps : rewriting.keepsKey c.key with
    | false =>
      rw [List.filter_cons_of_neg (by simp [hkeeps])] at hrewritten
      have hskipped : c.planned.isSkipped vars = true := hfaithful.any_of_dropped hkeeps
      obtain ⟨plans', last', hplans', hreads⟩ := ih hrewritten hrest hothers next'
      exact ⟨plans', last', hplans', .skipped (hplanned.field_eq ▸ hskipped) hreads⟩
    | true =>
      rw [List.filter_cons_of_pos (by simp [hkeeps])] at hrewritten
      cases hrewritten with
      | @cons _ d _ ds hcd hremaining =>
        have hinner := fun e he hkeepsE hleafE f hf ↦
          hrest e he hkeepsE hleafE f (List.mem_cons_of_mem d hf)
        have hreads := hcd.readsAs hfaithful
        cases hplanned with
        | leaf hleaf =>
          obtain ⟨plans', last', hplans', hreadsRest⟩ := ih hremaining hinner hothers next'
          refine ⟨_, last', ?_, .cons (.leaf hreads) hreadsRest⟩
          rw [Planner.planFields_leaf (hcd.isLeaf_eq ▸ hleaf), hplans']
          rfl
        | nested hleaf hselection =>
          obtain ⟨selection', middle', hselection', hreadsInner⟩ :=
            hfirst hkeeps hleaf d List.mem_cons_self hcd _ next' _ _ hselection
          obtain ⟨plans', last', hplans', hreadsRest⟩ := ih hremaining hinner hothers middle'
          refine ⟨.nested d.planned selection'.id selection'.fields :: plans', last', ?_,
            .cons (.nested hreads hreadsInner) hreadsRest⟩
          rw [Planner.planFields_nested_ok (hcd.isLeaf_eq ▸ hleaf) _ hselection', hplans']
          rfl

end PlanFields

section PlanSelection

variable {alike alike' : FieldKey → FieldKey → Prop} {fragments fragments' : Fragments}
  (hfaithful : rewriting.Faithful vars) (hrespects : rewriting.RespectsMerging alike alike')

include hfaithful hrespects

/-- Occurrences are merged exactly if rewritten ones are. -/
theorem same_eq_same {type? : Option String} {names : List String}
    {occurrences others : List Occurrence}
    (hoccurrences : ∀ occurrence ∈ occurrences, occurrence.WellFormed)
    (hothers : ∀ occurrence ∈ others, occurrence.WellFormed)
    (hmerges : ∀ a ∈ Planner.gather { parentType := type?, openFragments := names } [] occurrences,
      ∀ b ∈ Planner.gather { parentType := type?, openFragments := names } [] occurrences,
        rewriting.keepsKey a.key = true → rewriting.keepsKey b.key = true → alike a.key b.key →
          a.key.same b.key = true)
    (hmerges' : ∀ a ∈ Planner.gather { parentType := type?, openFragments := names } [] others,
      ∀ b ∈ Planner.gather { parentType := type?, openFragments := names } [] others,
        alike' a.key b.key → a.key.same b.key = true)
    {a b c d : Occurrence} (ha : a ∈ occurrences.filter rewriting.walker.reaches) (hb : b ∈ others)
    (hc : c ∈ occurrences.filter rewriting.walker.reaches) (hd : d ∈ others)
    (hab : rewriting.RewritesOccurrence a b) (hcd : rewriting.RewritesOccurrence c d) :
    a.key.same c.key = b.key.same d.key := by
  have hkeeps := hfaithful.keeps_unconditional
  have hkey := hab.key hfaithful.conditions_unconditional
  have hkey' := hcd.key hfaithful.conditions_unconditional
  obtain ⟨ha, hreachesA⟩ := List.mem_filter.1 ha
  obtain ⟨hc, hreachesC⟩ := List.mem_filter.1 hc
  rw [← keepsKey_occurrence hkeeps] at hreachesA hreachesC
  have hcounts : ∀ a b : FieldKey, a.same b = true → rewriting.keepsKey a = rewriting.keepsKey b :=
    fun a b hsame ↦ by rw [keepsKey, keepsKey, (FieldKey.same_iff.1 hsame).2.2.2.2.2.2]
  rw [Bool.eq_iff_iff]
  constructor
  · intro hsame
    rcases hrespects.forth hkey hkey' hsame with hmerged | halike
    · exact hmerged
    · exact same_of_alike (fun _ ↦ true) (fun _ _ _ ↦ rfl) hrespects.congruent' hothers
        (fun a ha b hb _ _ ↦ hmerges' a ha b hb) hb hd rfl rfl halike
  · intro hsame
    exact same_of_alike rewriting.keepsKey hcounts hrespects.congruent hoccurrences hmerges ha hc
      hreachesA hreachesC (hrespects.back hkey hkey' hsame)

variable (hfragments : rewriting.RewritesFragments fragments fragments')
  (hwell : fragments.WellFormed) (hwell' : fragments'.WellFormed)

include hfragments hwell hwell'

/-- Where a group of selection sets has a plan, the rewritten group has one, and both read alike. -/
theorem planSelection_rewritten {levels : Nat} {sets sets' : List (List Selection)}
    (h : List.Forall₂ rewriting.Rewrites sets sets') {type? : Option String} {names : List String}
    (hsets : ∀ selections ∈ sets, Selection.listWellFormed selections)
    (hsets' : ∀ selections ∈ sets', Selection.listWellFormed selections)
    (hmerges : Planner.MergesAlike rewriting.keepsKey alike fragments levels sets
      { parentType := type?, openFragments := names })
    (hmerges' : Planner.MergesAlike (fun _ ↦ true) alike' fragments' levels sets'
      { parentType := type?, openFragments := names })
    {next : Nat} {plan : SelectionPlan} {last : Nat}
    (hplan : Planner.planSelection fragments levels sets
      { parentType := type?, openFragments := names } next = .ok (plan, last)) (next' : Nat) :
    ∃ plan' last', Planner.planSelection fragments' levels sets'
      { parentType := type?, openFragments := names } next' = .ok (plan', last') ∧
        FieldPlan.ListReadsAs vars plan.fields plan'.fields := by
  induction levels generalizing sets sets' type? names next plan last next' with
  | zero => cases hplan
  | succ levels ih =>
    obtain ⟨inner, collected, hlevels, hcollect, -, hfields⟩ := Planner.planSelection_ok hplan
    obtain rfl : levels = inner := Nat.succ.inj hlevels
    obtain ⟨collected', hcollect'⟩ := collectAll_rewritten hfragments h hcollect []
    obtain ⟨hmergesHere, hmergesBelow⟩ := hmerges collected hcollect
    obtain ⟨hmergesHere', hmergesBelow'⟩ := hmerges' collected' hcollect'
    obtain ⟨occurrences, hmeets, rfl⟩ := Planner.collectAll_ok hcollect
    obtain ⟨others, hmeets', rfl⟩ := Planner.collectAll_ok hcollect'
    obtain ⟨rewritten, hmeets'', hrewritten⟩ := (Rewrites.flatten h).meets hfragments hmeets
    obtain rfl := hmeets''.unique hmeets'
    have hoccurrences := hmeets.wellFormed hwell (Selection.listWellFormed_flatten.2 hsets)
    have hothers := hmeets'.wellFormed hwell' (Selection.listWellFormed_flatten.2 hsets')
    have hcollected : List.Forall₂ (rewriting.RewritesCollected type? names
        (occurrences.filter rewriting.walker.reaches) rewritten)
        ((Planner.gather { parentType := type?, openFragments := names } [] occurrences).filter
          fun field ↦ rewriting.keepsKey field.key)
        (Planner.gather { parentType := type?, openFragments := names } [] rewritten) := by
      rw [gather_filter type? names hfaithful.keeps_unconditional]
      refine gather_rewritten (fun a ha b hb c hc d hd hab hcd ↦ ?_) hrewritten
        (List.Subset.refl _) (List.Subset.refl _) .nil
      exact same_eq_same hfaithful hrespects hoccurrences hothers hmergesHere
        (fun a ha b hb ↦ hmergesHere' a ha b hb rfl rfl) ha hb hc hd hab hcd
    obtain ⟨plans', last', hplans', hreads⟩ := planFields_rewritten hfaithful hcollected
      (fun c hc hkeeps hleaf d hd hcd next next' plan last hinner ↦ by
        have hbelow := hmergesBelow' d hd rfl (hcd.isLeaf_eq ▸ hleaf)
        rw [← hcd.scope.2] at hbelow ⊢
        exact ih hcd.selectionSets
          ((Planner.gathered_gather type? names _ hoccurrences).wellFormed hoccurrences hc)
          ((Planner.gathered_gather type? names _ hothers).wellFormed hothers hd)
          (hmergesBelow c hc hkeeps hleaf) hbelow hinner next') hfields (next' + 1)
    refine ⟨⟨next', plans'⟩, last', ?_, hreads⟩
    rw [Planner.planSelection_fields hcollect', hplans']
    rfl

end PlanSelection

end Rewriting

end GraphCache
