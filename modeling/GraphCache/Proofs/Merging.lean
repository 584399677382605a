import GraphCache.Proofs.Entries
import GraphCache.Proofs.Occurrences

/-!
# Fields that become one

Fields of a group of selection sets become one if they differ at most in their nested selections.
The planner finds this out while it adds one occurrence after the other. Seen as a whole, the
occurrences fall into classes: the first occurrence of each class stands for it, and the nested
selections of the class are those of its members in order.

## Main definitions

* `FieldKey`, `FieldKey.same`: all that is compared of two fields.
* `CollectedField.key`, `FieldPlan.key`, `Occurrence.key`: what is compared of a field that is
  collected, planned or met on a walk.

## Main results

* `FieldKey.same_refl`, `FieldKey.same_symm`, `FieldKey.same_trans`: merging is an equivalence.
* `FieldKey.isSelected_of_same`: fields with one key are selected for the same variables and types.
* `Planner.gather_cons`: the class of the first field, and those of the others.
* `Planner.gathered_gather`: what the classes of a list of occurrences are.
-/

namespace GraphCache

/-- All of a field that counts when fields are merged. -/
structure FieldKey where
  /-- The key of the field's value in the response. -/
  responseKey : String
  /-- The name of the field. -/
  name : String
  /-- The arguments, in order. -/
  arguments : Arguments
  /-- Whether the field is computed by a local resolver. -/
  isLocal : Bool
  /-- Whether the field has no nested selections. -/
  isLeaf : Bool
  /-- The types to which the fragments around it apply, each once. -/
  typeConditions : List String
  /-- The conditions of the fragments around it and its own. -/
  conditions : List IncludeSkip

namespace FieldKey

/-- Whether fields with these keys are merged. -/
def same (a b : FieldKey) : Bool :=
  a.responseKey == b.responseKey && a.name == b.name
    && ArgumentValue.sameFields a.arguments b.arguments
    && a.isLocal == b.isLocal && a.isLeaf == b.isLeaf
    && a.typeConditions == b.typeConditions && a.conditions == b.conditions

theorem same_iff {a b : FieldKey} :
    a.same b = true ↔
      a.responseKey = b.responseKey ∧ a.name = b.name ∧
        ArgumentValue.sameFields a.arguments b.arguments = true ∧ a.isLocal = b.isLocal ∧
          a.isLeaf = b.isLeaf ∧ a.typeConditions = b.typeConditions ∧
            a.conditions = b.conditions := by
  simp only [same, Bool.and_eq_true, beq_iff_eq, and_assoc]

/-- No object in a literal of the arguments repeats a key. -/
def WellFormed (key : FieldKey) : Prop :=
  ArgumentValue.WellFormedFields key.arguments

variable {a b c : FieldKey}

theorem same_refl (ha : a.WellFormed) : a.same a = true :=
  same_iff.2 ⟨rfl, rfl, ArgumentValue.sameFields_refl ha, rfl, rfl, rfl, rfl⟩

theorem same_symm (ha : a.WellFormed) (hb : b.WellFormed) (h : a.same b = true) :
    b.same a = true := by
  obtain ⟨hresponseKey, hname, harguments, hlocal, hleaf, htypes, hconditions⟩ := same_iff.1 h
  exact same_iff.2 ⟨hresponseKey.symm, hname.symm, ArgumentValue.sameFields_symm ha hb harguments,
    hlocal.symm, hleaf.symm, htypes.symm, hconditions.symm⟩

theorem same_trans (ha : a.WellFormed) (hb : b.WellFormed) (hc : c.WellFormed)
    (hab : a.same b = true) (hbc : b.same c = true) : a.same c = true := by
  obtain ⟨hresponseKey, hname, harguments, hlocal, hleaf, htypes, hconditions⟩ := same_iff.1 hab
  obtain ⟨hresponseKey', hname', harguments', hlocal', hleaf', htypes', hconditions'⟩ :=
    same_iff.1 hbc
  exact same_iff.2 ⟨hresponseKey.trans hresponseKey', hname.trans hname',
    ArgumentValue.sameFields_trans ha hb hc harguments harguments', hlocal.trans hlocal',
    hleaf.trans hleaf', htypes.trans htypes', hconditions.trans hconditions'⟩

/-- Two fields that a third one is merged with are merged themselves. -/
theorem same_of_same_of_same (ha : a.WellFormed) (hb : b.WellFormed) (hc : c.WellFormed)
    (hac : a.same c = true) (hbc : b.same c = true) : a.same b = true :=
  same_trans ha hc hb hac (same_symm hb hc hbc)

/-- Whether a field with this key is evaluated at an object of the given type for these variables.
An object of unknown type satisfies every type condition. -/
def isSelected (key : FieldKey) (vars : Object) (typename : Option String) : Bool :=
  key.conditions.all (fun conditions ↦ !conditions.shouldSkip vars) &&
    key.typeConditions.all fun type ↦ typename.all fun actual ↦ type == actual

/-- Fields that are merged are selected for the same variables and types. -/
theorem isSelected_of_same (h : a.same b = true) (vars : Object) (typename : Option String) :
    a.isSelected vars typename = b.isSelected vars typename := by
  obtain ⟨-, -, -, -, -, htypes, hconditions⟩ := same_iff.1 h
  rw [isSelected, isSelected, htypes, hconditions]

end FieldKey

/-- What is compared of a field that was collected. -/
def CollectedField.key (collected : CollectedField) : FieldKey where
  responseKey := collected.field.responseKey
  name := collected.field.name
  arguments := collected.field.arguments
  isLocal := collected.field.isLocal
  isLeaf := collected.isLeaf
  typeConditions := collected.scope.typeConditions
  conditions := collected.conditions

theorem CollectedField.mergesWith_eq (a b : CollectedField) : a.mergesWith b = a.key.same b.key :=
  rfl

/-- What is compared of a planned field. -/
def FieldPlan.key (plan : FieldPlan) : FieldKey where
  responseKey := plan.field.responseKey
  name := plan.field.name
  arguments := plan.field.arguments
  isLocal := plan.field.isLocal
  isLeaf := plan.selection?.isNone
  typeConditions := plan.field.typeConditions
  conditions := plan.field.conditions

theorem FieldPlan.isSelected_key (plan : FieldPlan) (vars : Object) (typename : Option String) :
    plan.key.isSelected vars typename = plan.field.isSelected vars typename := by
  rw [FieldKey.isSelected, PlannedField.isSelected, PlannedField.isSkipped, List.not_any_eq_all_not]
  cases typename <;> simp [FieldPlan.key, PlannedField.appliesTo]

/-- A condition that always holds excludes nothing. -/
theorem IncludeSkip.shouldSkip_of_isUnconditional {conditions : IncludeSkip}
    (h : conditions.isUnconditional = true) (vars : Object) :
    conditions.shouldSkip vars = false := by
  rw [(isUnconditional_iff conditions).1 h]
  rfl

namespace Occurrence

/-- The conditions of the fragments around a field and its own. Conditions that always hold do not
count. -/
def conditions (occurrence : Occurrence) : List IncludeSkip :=
  (occurrence.around.map (·.conditions) ++ [occurrence.field.conditions]).filter
    fun conditions ↦ !conditions.isUnconditional

/-- The types to which the fragments around a field apply, each once. -/
def typeConditions (occurrence : Occurrence) : List String :=
  (occurrence.around.filterMap (·.typeCondition)).eraseDups

/-- What is compared of a field that is met on a walk. -/
def key (occurrence : Occurrence) : FieldKey where
  responseKey := occurrence.field.responseKey
  name := occurrence.field.name
  arguments := occurrence.field.arguments
  isLocal := occurrence.field.isLocal
  isLeaf := occurrence.selections?.isNone
  typeConditions := occurrence.typeConditions
  conditions := occurrence.conditions

theorem WellFormed.key {occurrence : Occurrence} (h : occurrence.WellFormed) :
    occurrence.key.WellFormed :=
  h.arguments

theorem all_conditions (occurrence : Occurrence) (vars : Object) :
    occurrence.conditions.all (fun conditions ↦ !conditions.shouldSkip vars) =
      (occurrence.around.all (fun enclosure ↦ !enclosure.conditions.shouldSkip vars) &&
        !occurrence.field.conditions.shouldSkip vars) := by
  have hskip (conditions : IncludeSkip) :
      (!!conditions.isUnconditional || !conditions.shouldSkip vars) =
        !conditions.shouldSkip vars := by
    cases h : conditions.isUnconditional with
    | true => simp [IncludeSkip.shouldSkip_of_isUnconditional h]
    | false => rfl
  rw [conditions, List.all_filter]
  simp only [hskip]
  simp [List.all_map, Function.comp_def]

theorem all_typeConditions (occurrence : Occurrence) (p : String → Bool) :
    occurrence.typeConditions.all p =
      occurrence.around.all fun enclosure ↦ enclosure.typeCondition.all p := by
  rw [Bool.eq_iff_iff]
  simp only [typeConditions, List.all_eq_true, List.mem_eraseDups, List.mem_filterMap,
    Option.all_eq_true]
  exact ⟨fun h enclosure hmem type htype ↦ h type ⟨enclosure, hmem, htype⟩,
    fun h type ⟨enclosure, hmem, htype⟩ ↦ h enclosure hmem type htype⟩

/-- The walk at an object gets to those occurrences whose key is selected there. -/
theorem isSelected_key (occurrence : Occurrence) (vars : Object) (typename : Option String) :
    occurrence.key.isSelected vars typename = (Walker.at vars typename).reaches occurrence := by
  rw [FieldKey.isSelected, key, all_conditions, all_typeConditions, Walker.reaches, Walker.at,
    Bool.eq_iff_iff]
  simp only [Bool.and_eq_true, List.all_eq_true, forall_and]
  tauto

end Occurrence

/-! ### The scope of an occurrence -/

namespace Scope

theorem conditions_within (scope : Scope) (around : List Enclosure) :
    (scope.within around).conditions =
      scope.conditions ++
        (around.map (·.conditions)).filter fun conditions ↦ !conditions.isUnconditional := by
  induction around generalizing scope with
  | nil => simp [within]
  | cons enclosure around ih =>
    have hfirst : (scope.enclose enclosure).conditions =
        scope.conditionsWith enclosure.conditions := by
      obtain ⟨name?, typeCondition, conditions⟩ := enclosure
      cases typeCondition <;> rfl
    rw [within, List.foldl_cons, ← within, ih, hfirst, conditionsWith, List.map_cons,
      List.filter_cons]
    cases enclosure.conditions.isUnconditional <;> simp

theorem typeConditions_enclose (scope : Scope) (enclosure : Enclosure) :
    (scope.enclose enclosure).typeConditions =
      match enclosure.typeCondition with
      | some type =>
        if type ∈ scope.typeConditions then scope.typeConditions
        else scope.typeConditions ++ [type]
      | none => scope.typeConditions := by
  obtain ⟨name?, typeCondition, conditions⟩ := enclosure
  cases typeCondition <;> rfl

/-- The type conditions of a scope are those of the fragments that were entered, each once. -/
theorem typeConditions_within (scope : Scope) (types : List String)
    (h : scope.typeConditions = types.eraseDups) (around : List Enclosure) :
    (scope.within around).typeConditions =
      (types ++ around.filterMap (·.typeCondition)).eraseDups := by
  induction around generalizing scope types with
  | nil => simpa [within] using h
  | cons enclosure around ih =>
    rw [within, List.foldl_cons, ← within]
    cases htype : enclosure.typeCondition with
    | none =>
      rw [ih (scope.enclose enclosure) types (by rw [typeConditions_enclose, htype, h]),
        List.filterMap_cons_none htype]
    | some type =>
      have hfirst : (scope.enclose enclosure).typeConditions = (types ++ [type]).eraseDups := by
        rw [typeConditions_enclose, htype, eraseDups_concat, h]
      rw [ih _ _ hfirst, List.filterMap_cons_some htype, List.append_assoc, List.singleton_append]

theorem openFragments_within (scope : Scope) (around : List Enclosure) :
    (scope.within around).openFragments =
      scope.openFragments ++ around.filterMap (·.name?) := by
  induction around generalizing scope with
  | nil => simp [within]
  | cons enclosure around ih =>
    have hfirst : (scope.enclose enclosure).openFragments =
        scope.openFragments ++ enclosure.name?.toList := by
      obtain ⟨name?, typeCondition, conditions⟩ := enclosure
      cases typeCondition <;> rfl
    rw [within, List.foldl_cons, ← within, ih, hfirst, List.append_assoc]
    cases hname : enclosure.name? with
    | none => rw [List.filterMap_cons_none hname, Option.toList_none, List.nil_append]
    | some name =>
      rw [List.filterMap_cons_some hname, Option.toList_some, List.singleton_append]

end Scope

/-- Outside of all fragments the planner compares of an occurrence what is to be compared. -/
theorem Occurrence.key_collected (occurrence : Occurrence) (type? : Option String)
    (names : List String) :
    (occurrence.collected { parentType := type?, openFragments := names }).key =
      occurrence.key := by
  have htypes := Scope.typeConditions_within { parentType := type?, openFragments := names } []
    rfl occurrence.around
  have hconditions := Scope.conditions_within { parentType := type?, openFragments := names }
    occurrence.around
  simp only [CollectedField.key, collected, CollectedField.conditions, Scope.conditionsWith,
    htypes, hconditions, key, typeConditions, conditions, List.filter_append, List.filter_singleton]
  cases occurrence.field.conditions.isUnconditional <;> simp

/-! ### Classes of occurrences -/

namespace Planner

/-- The fields into which occurrences are gathered stand for the classes of occurrences that are
merged. -/
structure Gathered (scope : Scope) (occurrences : List Occurrence)
    (collected : List CollectedField) : Prop where
  /-- A field is its first occurrence, and was found where that stands. -/
  first : ∀ field ∈ collected, ∃ occurrence,
    occurrences.find? (fun other ↦ field.key.same other.key) = some occurrence ∧
      field.key = occurrence.key ∧ field.scope = scope.within occurrence.around
  /-- A field has the nested selections of its occurrences, in order. -/
  selectionSets : ∀ field ∈ collected,
    field.selectionSets =
      (occurrences.filter fun other ↦ field.key.same other.key).filterMap (·.selections?)
  /-- Every occurrence belongs to a field. -/
  covers : ∀ occurrence ∈ occurrences, ∃ field ∈ collected, field.key.same occurrence.key = true
  /-- No two fields are to be merged. -/
  distinct : collected.Pairwise fun a b ↦ a.key.same b.key = false
  /-- The fields are in the order of their first occurrences. -/
  ordered : collected.Pairwise fun a b ↦
    occurrences.findIdx (fun other ↦ a.key.same other.key) <
      occurrences.findIdx fun other ↦ b.key.same other.key

section Gather

variable (type? : Option String) (names : List String)

/-- Of the occurrences that are gathered, the first field takes its own; the others go to the fields
behind it. -/
theorem gather_cons (first : CollectedField) (rest : List CollectedField)
    (occurrences : List Occurrence) :
    gather { parentType := type?, openFragments := names } (first :: rest) occurrences =
      { first with
        selectionSets := first.selectionSets ++
          (occurrences.filter fun other ↦ first.key.same other.key).filterMap (·.selections?) } ::
        gather { parentType := type?, openFragments := names } rest
          (occurrences.filter fun other ↦ !first.key.same other.key) := by
  induction occurrences generalizing first rest with
  | nil => simp [gather]
  | cons occurrence occurrences ih =>
    rw [gather, List.foldl_cons, CollectedField.addTo, CollectedField.mergesWith_eq,
      Occurrence.key_collected]
    cases hsame : first.key.same occurrence.key with
    | true =>
      rw [if_pos rfl, ← gather, ih]
      have hkey : CollectedField.key { first with
          selectionSets := first.selectionSets ++ occurrence.selections?.toList } = first.key := rfl
      cases hselections : occurrence.selections? <;>
        simp_all [Occurrence.collected]
    | false =>
      rw [if_neg Bool.false_ne_true, ← gather, ih]
      simp [hsame, gather]

end Gather

/-- Dropping items that neither of two predicates looks for does not change which of them finds one
first. -/
private theorem findIdx_lt_of_filter {α : Type} {p q keep : α → Bool} {items : List α}
    (hp : ∀ item ∈ items, p item = true → keep item = true)
    (hq : ∀ item ∈ items, q item = true → keep item = true)
    (h : (items.filter keep).findIdx p < (items.filter keep).findIdx q) :
    items.findIdx p < items.findIdx q := by
  induction items with
  | nil => exact h
  | cons item items ih =>
    obtain ⟨hpfirst, hp⟩ := List.forall_mem_cons.1 hp
    obtain ⟨hqfirst, hq⟩ := List.forall_mem_cons.1 hq
    have ih := ih hp hq
    rw [List.filter_cons] at h
    rw [List.findIdx_cons, List.findIdx_cons]
    cases hitem : p item with
    | true =>
      cases hitem' : q item with
      | true => simp [hpfirst hitem, List.findIdx_cons, hitem, hitem'] at h
      | false => simp
    | false =>
      cases hitem' : q item with
      | true => simp [hqfirst hitem', List.findIdx_cons, hitem'] at h
      | false =>
        refine Nat.succ_lt_succ (ih ?_)
        cases hkeep : keep item with
        | true =>
          rw [if_pos hkeep, List.findIdx_cons, List.findIdx_cons, hitem, hitem'] at h
          exact Nat.lt_of_succ_lt_succ h
        | false => simpa [hkeep] using h

section Cons

variable {scope : Scope} {occurrence : Occurrence} {rest : List Occurrence}
  {collected : List CollectedField} (hfirst : occurrence.WellFormed)
  (hrest : ∀ other ∈ rest, other.WellFormed)
  (h : Gathered scope (rest.filter fun other ↦ !occurrence.key.same other.key) collected)

include h

/-- The fields of the remaining occurrences are not merged with the first one. -/
theorem Gathered.key_of_others {field : CollectedField} (hfield : field ∈ collected) :
    ∃ other ∈ rest, field.key = other.key ∧ occurrence.key.same field.key = false := by
  obtain ⟨other, hfind, hkey, -⟩ := h.first field hfield
  obtain ⟨hmem, hsame⟩ := List.mem_filter.1 (List.mem_of_find?_eq_some hfind)
  exact ⟨other, hmem, hkey, by simpa [hkey] using hsame⟩

include hfirst hrest

theorem Gathered.not_same_of_others {field : CollectedField} (hfield : field ∈ collected) :
    field.key.same occurrence.key = false := by
  obtain ⟨other, hmem, hkey, hsame⟩ := h.key_of_others hfield
  rw [hkey] at hsame ⊢
  by_contra htrue
  have hsymm := FieldKey.same_symm (hrest other hmem).key hfirst.key (by simpa using htrue)
  simp [hsymm] at hsame

/-- An occurrence that belongs to one of the remaining fields does not belong to the first one. -/
theorem Gathered.keep_of_others {field : CollectedField} (hfield : field ∈ collected)
    {other : Occurrence} (hother : other ∈ rest) (hsame : field.key.same other.key = true) :
    (!occurrence.key.same other.key) = true := by
  obtain ⟨witness, hmem, hkey, hne⟩ := h.key_of_others hfield
  rw [hkey] at hne hsame
  by_contra htrue
  have hclass := FieldKey.same_of_same_of_same hfirst.key (hrest witness hmem).key
    (hrest other hother).key (by simpa using htrue) hsame
  simp [hclass] at hne

theorem Gathered.filter_of_others {field : CollectedField} (hfield : field ∈ collected) :
    (rest.filter fun other ↦ !occurrence.key.same other.key).filter
        (fun other ↦ field.key.same other.key) =
      (occurrence :: rest).filter fun other ↦ field.key.same other.key := by
  rw [List.filter_filter, List.filter_cons_of_neg
    (by simp [h.not_same_of_others hfirst hrest hfield])]
  refine List.filter_congr fun other hother ↦ ?_
  cases hsame : field.key.same other.key with
  | true => simpa using h.keep_of_others hfirst hrest hfield hother hsame
  | false => simp

/-- The first of several occurrences, with its class, comes before the fields of the others. -/
theorem Gathered.cons {head : CollectedField} (hkey : head.key = occurrence.key)
    (hscope : head.scope = scope.within occurrence.around)
    (hsets : head.selectionSets = occurrence.selections?.toList ++
      (rest.filter fun other ↦ occurrence.key.same other.key).filterMap (·.selections?)) :
    Gathered scope (occurrence :: rest) (head :: collected) := by
  have hself : head.key.same occurrence.key = true := by
    rw [hkey]
    exact FieldKey.same_refl hfirst.key
  refine ⟨List.forall_mem_cons.2 ⟨⟨occurrence, ?_, hkey, hscope⟩, fun field hfield ↦ ?_⟩,
    List.forall_mem_cons.2 ⟨?_, fun field hfield ↦ ?_⟩,
    List.forall_mem_cons.2 ⟨⟨head, List.mem_cons_self, hself⟩, fun other hother ↦ ?_⟩,
    List.pairwise_cons.2 ⟨fun field hfield ↦ ?_, h.distinct⟩,
    List.pairwise_cons.2 ⟨fun field hfield ↦ ?_, h.ordered.imp_of_mem fun {a b} ha hb hlt ↦ ?_⟩⟩
  · exact List.find?_cons_of_pos hself
  · obtain ⟨other, hfind, hother, hwithin⟩ := h.first field hfield
    rw [← List.head?_filter, h.filter_of_others hfirst hrest hfield, List.head?_filter] at hfind
    exact ⟨other, hfind, hother, hwithin⟩
  · rw [List.filter_cons_of_pos (p := fun other : Occurrence ↦ head.key.same other.key) hself,
      hsets, hkey, List.filterMap_cons]
    cases occurrence.selections? <;> rfl
  · rw [h.selectionSets field hfield, h.filter_of_others hfirst hrest hfield]
  · cases hsame : occurrence.key.same other.key with
    | true => exact ⟨head, List.mem_cons_self, hkey ▸ hsame⟩
    | false =>
      obtain ⟨field, hfield, hcovers⟩ :=
        h.covers other (List.mem_filter.2 ⟨hother, by simp [hsame]⟩)
      exact ⟨field, List.mem_cons_of_mem _ hfield, hcovers⟩
  · obtain ⟨-, -, -, hne⟩ := h.key_of_others hfield
    exact hkey ▸ hne
  · rw [List.findIdx_cons, hself, List.findIdx_cons, h.not_same_of_others hfirst hrest hfield]
    exact Nat.succ_pos _
  · rw [List.findIdx_cons, List.findIdx_cons, h.not_same_of_others hfirst hrest ha,
      h.not_same_of_others hfirst hrest hb]
    exact Nat.succ_lt_succ (findIdx_lt_of_filter
      (fun _ hmem ↦ h.keep_of_others hfirst hrest ha hmem)
      (fun _ hmem ↦ h.keep_of_others hfirst hrest hb hmem) hlt)

end Cons

/-- The fields that are gathered from well-formed occurrences stand for the classes of these. -/
theorem gathered_gather (type? : Option String) (names : List String)
    (occurrences : List Occurrence) (hwell : ∀ occurrence ∈ occurrences, occurrence.WellFormed) :
    Gathered { parentType := type?, openFragments := names } occurrences
      (gather { parentType := type?, openFragments := names } [] occurrences) := by
  -- by induction on the number of occurrences: the first one takes its class out of the others
  induction hlength : occurrences.length using Nat.strongRecOn generalizing occurrences with
  | _ length ih =>
    cases occurrences with
    | nil => exact ⟨nofun, nofun, nofun, .nil, .nil⟩
    | cons occurrence rest =>
      obtain ⟨hfirst, hrest⟩ := List.forall_mem_cons.1 hwell
      have hshort : (rest.filter fun other ↦ !occurrence.key.same other.key).length < length :=
        hlength ▸ Nat.lt_succ_of_le (List.length_filter_le ..)
      have hothers := ih _ hshort _
        (fun other hother ↦ hrest other (List.mem_of_mem_filter hother)) rfl
      rw [gather, List.foldl_cons, ← gather, CollectedField.addTo, gather_cons,
        Occurrence.key_collected]
      exact hothers.cons hfirst hrest (Occurrence.key_collected ..) rfl rfl

end Planner

end GraphCache
