import GraphCache.Proofs.Evaluation
import GraphCache.Proofs.Prospects

/-!
# The field that prevails

Of several fields with one response key only the last one that counts at an object gives the value
of the key; the first one fixes the place. What an object holds under a key, and which work is kept
for it, depends on that field alone.

## Main definitions

* `FieldPlan.prevailing?`: the last field with a key that counts at an object of some type.
* `FieldPlan.selectedKeys`: the keys of the fields that count, in the order of their first fields.
* `Assembler.current?`: what an object under construction holds under a key.
* `Assembler.Built`: an object under construction holds what was completed for its fields.

## Main results

* `Evaluator.get?_fields`, `Evaluator.mem_faults_fields`: what direct evaluation gives under a key.
* `Assembler.current?_insert`: setting a field changes what is held under one key only.
* `Assembler.mem_faults_work`, `Assembler.mem_deferred_work`: the work of an object, key by key.
-/

namespace GraphCache

variable {World : Type}

namespace FieldPlan

/-- The last of the listed fields, the first of which has the given position in its selection set,
that has a response key and counts at an object of the given type. -/
def prevailing? (vars : Object) (typename : Option String) (key : String) (position : Nat) :
    List FieldPlan → Option (Nat × FieldPlan)
  | [] => none
  | plan :: rest =>
    (prevailing? vars typename key (position + 1) rest).or
      (if plan.field.isSelected vars typename ∧ plan.field.responseKey = key then
        some (position, plan) else none)

/-- The keys of the listed fields that count at an object of the given type. -/
def selectedKeys (vars : Object) (typename : Option String) : List FieldPlan → List String
  | [] => []
  | plan :: rest =>
    if plan.field.isSelected vars typename then
      plan.field.responseKey
        :: (selectedKeys vars typename rest).filter (· != plan.field.responseKey)
    else selectedKeys vars typename rest

section Prevailing

variable {vars : Object} {typename : Option String} {key : String} {position : Nat}
  {plan : FieldPlan} {rest : List FieldPlan}

/-- A field that does not count, or that has another key, does not prevail. -/
theorem prevailing?_cons_of_not
    (h : ¬ (plan.field.isSelected vars typename ∧ plan.field.responseKey = key)) :
    prevailing? vars typename key position (plan :: rest)
      = prevailing? vars typename key (position + 1) rest := by
  rw [prevailing?, if_neg h, Option.or_none]

/-- A field prevails if no later one does. -/
theorem prevailing?_cons_of_last (hselected : plan.field.isSelected vars typename)
    (h : prevailing? vars typename plan.field.responseKey (position + 1) rest = none) :
    prevailing? vars typename plan.field.responseKey position (plan :: rest)
      = some (position, plan) := by
  rw [prevailing?, h, Option.none_or, if_pos ⟨hselected, rfl⟩]

/-- A later field that prevails does so among all fields. -/
theorem prevailing?_cons_of_some {found : Nat × FieldPlan}
    (h : prevailing? vars typename key (position + 1) rest = some found) :
    prevailing? vars typename key position (plan :: rest) = some found := by
  rw [prevailing?, h, Option.some_or]

/-- A field prevails among the later ones, or it is the first one and no later one prevails. -/
theorem prevailing?_cons_eq_some_iff {found : Nat × FieldPlan} :
    prevailing? vars typename key position (plan :: rest) = some found ↔
      prevailing? vars typename key (position + 1) rest = some found ∨
        prevailing? vars typename key (position + 1) rest = none ∧
          plan.field.isSelected vars typename ∧ plan.field.responseKey = key ∧
          found = (position, plan) := by
  rw [prevailing?, Option.or_eq_some_iff]
  refine or_congr_right (and_congr_right fun _ ↦ ?_)
  split
  · next hcounts => simp [hcounts.1, hcounts.2, eq_comm]
  · next hcounts =>
    exact ⟨nofun, fun h ↦ (hcounts ⟨h.1, h.2.1⟩).elim⟩

/-- The field that prevails is listed at its position, has the key and counts. -/
theorem of_prevailing? {plans : List FieldPlan} {found : Nat × FieldPlan}
    (h : prevailing? vars typename key position plans = some found) :
    position ≤ found.1 ∧ plans[found.1 - position]? = some found.2 ∧
      found.2.field.responseKey = key ∧ found.2.field.isSelected vars typename := by
  induction plans generalizing position with
  | nil => cases h
  | cons plan rest ih =>
    rcases prevailing?_cons_eq_some_iff.1 h with h | ⟨_, hselected, hkey, rfl⟩
    · obtain ⟨hle, hlisted, hfound⟩ := ih h
      refine ⟨by omega, ?_, hfound⟩
      have hindex : found.1 - position = (found.1 - (position + 1)) + 1 := by omega
      rw [hindex, List.getElem?_cons_succ]
      exact hlisted
    · exact ⟨Nat.le_refl _, by simp, hkey, hselected⟩

/-- Where the list starts matters only for the position. -/
theorem prevailing?_isSome (plans : List FieldPlan) :
    (prevailing? vars typename key position plans).isSome
      = decide (key ∈ selectedKeys vars typename plans) := by
  induction plans generalizing position with
  | nil => rfl
  | cons plan rest ih =>
    rw [prevailing?, Option.isSome_or, ih, selectedKeys]
    by_cases hselected : plan.field.isSelected vars typename
    · by_cases hkey : plan.field.responseKey = key
      · simp [hselected, hkey]
      · simp [hselected, hkey, Ne.symm hkey]
    · simp [hselected]

end Prevailing

end FieldPlan

namespace Evaluator

open FieldPlan

variable (evaluator : Evaluator) (plans : List FieldPlan) (position : Nat) (object : Object)
  (mode : ReadMode) (typeHint : Option String)

/-- What direct evaluation gives for a field of an object. -/
def member (plan : FieldPlan) : Evaluated Json :=
  evaluator.field plan object mode (Execution.knownType plan.field object typeHint)

/-- An evaluated object has the keys of the fields that count. -/
theorem keys_fields :
    Dict.keys (evaluator.fields plans position object mode typeHint).1
      = selectedKeys evaluator.variableValues (typename? object) plans := by
  induction plans generalizing position with
  | nil => rfl
  | cons plan rest ih =>
    rw [selectedKeys, ← ih (position + 1)]
    by_cases h : plan.field.isSelected evaluator.variableValues (typename? object) = true
    · rw [if_pos h]
      cases hlater : Dict.get? (evaluator.fields rest (position + 1) object mode typeHint).1
          plan.field.responseKey with
      | some value =>
        rw [fields_cons_of_replaced h hlater, ← Dict.keys_filter_ne]
        rfl
      | none =>
        have hfresh := (Dict.get?_eq_none_iff _ _).1 hlater
        rw [fields_cons_of_last h hlater, List.filter_eq_self.2]
        · rfl
        · intro key hkey
          have hne : key ≠ plan.field.responseKey := fun heq ↦ hfresh (heq ▸ hkey)
          simpa using hne
    · rw [if_neg h, fields_cons_of_not_selected h]

/-- An evaluated object holds under a key what the field that prevails gives. -/
theorem get?_fields (key : String) :
    Dict.get? (evaluator.fields plans position object mode typeHint).1 key
      = (prevailing? evaluator.variableValues (typename? object) key position plans).map
          fun found => (evaluator.member object mode typeHint found.2).1 := by
  induction plans generalizing position with
  | nil => rfl
  | cons plan rest ih =>
    by_cases h : plan.field.isSelected evaluator.variableValues (typename? object) = true
    · cases hlater : Dict.get? (evaluator.fields rest (position + 1) object mode typeHint).1
          plan.field.responseKey with
      | some value =>
        rw [fields_cons_of_replaced h hlater, Dict.get?_cons]
        by_cases hkey : plan.field.responseKey = key
        · subst hkey
          rw [ih (position + 1)] at hlater
          obtain ⟨found, hfound, rfl⟩ := Option.map_eq_some_iff.1 hlater
          rw [if_pos rfl, prevailing?_cons_of_some hfound]
          rfl
        · rw [if_neg hkey, Dict.get?_filter_ne, if_neg hkey, ih (position + 1),
            prevailing?_cons_of_not (fun hcounts ↦ hkey hcounts.2)]
      | none =>
        rw [fields_cons_of_last h hlater, Dict.get?_cons]
        by_cases hkey : plan.field.responseKey = key
        · subst hkey
          have hnone : prevailing? evaluator.variableValues (typename? object)
              plan.field.responseKey (position + 1) rest = none := by
            rw [ih (position + 1)] at hlater
            exact Option.map_eq_none_iff.1 hlater
          rw [if_pos rfl, prevailing?_cons_of_last h hnone]
          rfl
        · rw [if_neg hkey, ih (position + 1),
            prevailing?_cons_of_not (fun hcounts ↦ hkey hcounts.2)]
    · rw [fields_cons_of_not_selected h, ih (position + 1),
        prevailing?_cons_of_not (fun hcounts ↦ h hcounts.1)]

/-- The faults in an evaluated object are those of the fields that prevail. -/
theorem mem_faults_fields (fault : Fault) :
    fault ∈ (evaluator.fields plans position object mode typeHint).2 ↔
      ∃ key found, prevailing? evaluator.variableValues (typename? object) key position plans
          = some found ∧
        ∃ inner ∈ (evaluator.member object mode typeHint found.2).2,
          fault = inner.under (({} : Trail).field found.1 key) := by
  induction plans generalizing position with
  | nil => simp [fields, prevailing?]
  | cons plan rest ih =>
    have hrest := ih (position + 1)
    by_cases h : plan.field.isSelected evaluator.variableValues (typename? object) = true
    · cases hlater : Dict.get? (evaluator.fields rest (position + 1) object mode typeHint).1
          plan.field.responseKey with
      | some value =>
        rw [fields_cons_of_replaced h hlater, hrest]
        refine exists_congr fun key ↦ exists_congr fun found ↦ and_congr_left fun _ ↦ ?_
        refine ⟨prevailing?_cons_of_some, fun hfound ↦ ?_⟩
        rcases prevailing?_cons_eq_some_iff.1 hfound with hfound | ⟨hnone, _, rfl, _⟩
        · exact hfound
        · rw [get?_fields, hnone] at hlater
          cases hlater
      | none =>
        have hnone : prevailing? evaluator.variableValues (typename? object)
            plan.field.responseKey (position + 1) rest = none := by
          rw [get?_fields] at hlater
          exact Option.map_eq_none_iff.1 hlater
        rw [fields_cons_of_last h hlater, List.mem_append, hrest, List.mem_map]
        constructor
        · rintro (⟨inner, hinner, rfl⟩ | ⟨key, found, hfound, hfault⟩)
          · exact ⟨_, _, prevailing?_cons_of_last h hnone, inner, hinner, rfl⟩
          · exact ⟨key, found, prevailing?_cons_of_some hfound, hfault⟩
        · rintro ⟨key, found, hfound, inner, hinner, rfl⟩
          rcases prevailing?_cons_eq_some_iff.1 hfound with hfound | ⟨_, _, rfl, rfl⟩
          · exact .inr ⟨key, found, hfound, inner, hinner, rfl⟩
          · exact .inl ⟨inner, hinner, rfl⟩
    · rw [fields_cons_of_not_selected h, hrest]
      refine exists_congr fun key ↦ exists_congr fun found ↦ and_congr_left fun _ ↦ ?_
      rw [prevailing?_cons_of_not fun hcounts ↦ h hcounts.1]

end Evaluator

namespace Assembler

open FieldPlan

/-- No key of an object under construction is repeated, and work is kept for keys that are set. -/
structure Tidy (assembler : Assembler World) : Prop where
  /-- No key is repeated. -/
  once : (Dict.keys assembler.object).Nodup
  /-- The work of each key is kept once. -/
  pendingOnce : (Dict.keys assembler.pending).Nodup
  /-- Work is kept for keys that are set. -/
  pendingSet : ∀ entry ∈ assembler.pending, entry.1 ∈ Dict.keys assembler.object

/-- What an object under construction holds under a key: a value, and the work that it left
behind. -/
def current? (assembler : Assembler World) (key : String) : Option (Completed World Json) :=
  (Dict.get? assembler.object key).map fun value =>
    (value, (assembler.workOf? key).getD .none)

theorem Tidy.empty : Tidy (empty : Assembler World) :=
  ⟨.nil, .nil, by simp [Assembler.empty]⟩

section Insert

variable {assembler : Assembler World} {key : String} {value : Json} {work : Work World}

theorem Tidy.insert (h : assembler.Tidy) : (assembler.insert key value work).1.Tidy where
  once := Dict.nodup_keys_insert h.once key value
  pendingOnce := nodup_pending_insert h.pendingOnce
  pendingSet entry hentry := by
    have hobject : (assembler.insert key value work).1.object
        = Dict.insert assembler.object key value := rfl
    rw [hobject]
    rcases mem_pending_insert hentry with ⟨hentry, _⟩ | rfl
    · rw [← Dict.get?_isSome_iff, Dict.get?_insert]
      split
      · rfl
      · exact (Dict.get?_isSome_iff _ _).2 (h.pendingSet entry hentry)
    · exact Dict.mem_keys_insert_self _ _ _

theorem workOf?_insert (other : String) :
    ((assembler.insert key value work).1.workOf? other).getD .none
      = if key = other then work else (assembler.workOf? other).getD .none := by
  simp only [workOf?, Assembler.insert]
  split
  · next hclean =>
    rw [Dict.get?_filter_ne, (Work.isClean_iff work).1 hclean]
    split
    · rfl
    · rfl
  · rw [Dict.get?_append, Dict.get?_filter_ne, Dict.get?_cons]
    by_cases hkey : key = other
    · simp [hkey]
    · simp [hkey]

/-- Setting a field changes what is held under one key only. -/
theorem current?_insert (other : String) :
    (assembler.insert key value work).1.current? other
      = if key = other then some (value, work) else assembler.current? other := by
  have hobject : (assembler.insert key value work).1.object
      = Dict.insert assembler.object key value := rfl
  rw [current?, workOf?_insert, hobject, Dict.get?_insert]
  by_cases hkey : key = other
  · simp [hkey]
  · simp [hkey, current?]

end Insert

variable {assembler : Assembler World}

/-- Work that is kept for a key is that of the field that is held. -/
theorem Tidy.current?_of_mem (h : assembler.Tidy) {entry : String × Work World}
    (hentry : entry ∈ assembler.pending) :
    ∃ value, Dict.get? assembler.object entry.1 = some value ∧
      assembler.current? entry.1 = some (value, entry.2) := by
  obtain ⟨value, hvalue⟩ := Option.isSome_iff_exists.1
    ((Dict.get?_isSome_iff _ _).2 (h.pendingSet entry hentry))
  have hwork : assembler.workOf? entry.1 = some entry.2 :=
    (Dict.get?_eq_some_iff h.pendingOnce _ _).2 hentry
  exact ⟨value, hvalue, by simp [current?, hvalue, hwork]⟩

/-- What the kept work has, the work of the fields that are held has. -/
theorem Tidy.exists_pending_iff (h : assembler.Tidy) (property : Work World → Prop)
    (hnone : ¬ property .none) :
    (∃ entry ∈ assembler.pending, property entry.2) ↔
      ∃ key completed, assembler.current? key = some completed ∧ property completed.2 := by
  constructor
  · rintro ⟨entry, hentry, hproperty⟩
    obtain ⟨value, _, hcurrent⟩ := h.current?_of_mem hentry
    exact ⟨entry.1, _, hcurrent, hproperty⟩
  · rintro ⟨key, completed, hcurrent, hproperty⟩
    obtain ⟨value, _, rfl⟩ := Option.map_eq_some_iff.1 hcurrent
    cases hwork : assembler.workOf? key with
    | none =>
      rw [hwork] at hproperty
      exact (hnone hproperty).elim
    | some work =>
      rw [hwork] at hproperty
      exact ⟨(key, work), (Dict.get?_eq_some_iff h.pendingOnce _ _).1 hwork, hproperty⟩

/-- The faults in an object are those of the fields that it holds. -/
theorem Tidy.mem_faults_work (h : assembler.Tidy) (fault : Fault) :
    fault ∈ assembler.work.faults ↔
      ∃ key completed, assembler.current? key = some completed ∧ fault ∈ completed.2.faults := by
  rw [work_faults, List.mem_flatMap]
  exact h.exists_pending_iff (fun work ↦ fault ∈ work.faults) List.not_mem_nil

/-- The deferred fields in an object are those under the fields that it holds. -/
theorem Tidy.mem_deferred_work (h : assembler.Tidy) (deferred : Deferred World) :
    deferred ∈ assembler.work.deferred ↔
      ∃ key completed, assembler.current? key = some completed ∧
        deferred ∈ completed.2.deferred := by
  rw [work_deferred, List.mem_flatMap]
  exact h.exists_pending_iff (fun work ↦ deferred ∈ work.deferred) List.not_mem_nil

/-- An object under construction, of which the fields before the listed ones are set. Under each
key it holds what was completed for some field with a given property; if no listed field prevails
for the key, then that field prevails among all fields. -/
structure Built (vars : Object) (typename : Option String) (fields : List FieldPlan)
    (property : Nat × FieldPlan → Completed World Json → Prop) (position : Nat)
    (rest : List FieldPlan) (assembler : Assembler World) : Prop where
  /-- Keys and work are in order. -/
  tidy : assembler.Tidy
  /-- The keys that are set and those that are still to be set are the keys of all fields. -/
  keys : Dict.keys assembler.object
      ++ (selectedKeys vars typename rest).filter (· ∉ Dict.keys assembler.object)
    = selectedKeys vars typename fields
  /-- Under each key there is what was completed for one of the fields. -/
  current : ∀ key completed, assembler.current? key = some completed →
    ∃ found work, completed.2 = work.under (({} : Trail).field found.1 key) ∧
      property found (completed.1, work) ∧
      (prevailing? vars typename key position rest = none →
        prevailing? vars typename key 0 fields = some found)

namespace Built

variable {vars : Object} {typename : Option String} {fields : List FieldPlan}
  {property : Nat × FieldPlan → Completed World Json → Prop} {position : Nat} {plan : FieldPlan}
  {rest : List FieldPlan}

theorem empty : Built vars typename fields property 0 fields (empty : Assembler World) where
  tidy := .empty
  keys := by simp [Assembler.empty, Dict.keys]
  current key completed h := by cases h

/-- A field that does not count leaves the object as it is. -/
theorem skip (h : Built vars typename fields property position (plan :: rest) assembler)
    (hskipped : ¬ plan.field.isSelected vars typename = true) :
    Built vars typename fields property (position + 1) rest assembler where
  tidy := h.tidy
  keys := by
    have hkeys := h.keys
    rwa [selectedKeys, if_neg hskipped] at hkeys
  current key completed hcurrent := by
    obtain ⟨found, work, hwork, hproperty, hprevails⟩ := h.current key completed hcurrent
    refine ⟨found, work, hwork, hproperty, fun hnone ↦ hprevails ?_⟩
    rw [prevailing?_cons_of_not fun hcounts ↦ hskipped hcounts.1, hnone]

/-- A field that counts is set. -/
theorem insert (h : Built vars typename fields property position (plan :: rest) assembler)
    (hlater : ∀ key found, prevailing? vars typename key position (plan :: rest) = some found →
      prevailing? vars typename key 0 fields = some found)
    (hselected : plan.field.isSelected vars typename = true) {value : Json} {work : Work World}
    (hproperty : property (position, plan) (value, work)) :
    Built vars typename fields property (position + 1) rest
      (assembler.insert plan.field.responseKey value
        (work.under (({} : Trail).field position plan.field.responseKey))).1 where
  tidy := h.tidy.insert
  keys := by
    have hobject : (assembler.insert plan.field.responseKey value
        (work.under (({} : Trail).field position plan.field.responseKey))).1.object
          = Dict.insert assembler.object plan.field.responseKey value := rfl
    rw [hobject, ← h.keys, Dict.keys_insert, selectedKeys, if_pos hselected]
    split
    · next hmem =>
      rw [List.filter_cons_of_neg (by simpa using hmem), List.filter_filter]
      congr 1
      refine List.filter_congr fun key _ ↦ ?_
      have hne : key ∉ Dict.keys assembler.object → key ≠ plan.field.responseKey := by
        rintro hnot rfl
        exact hnot hmem
      by_cases hkey : key ∈ Dict.keys assembler.object
      · simp [hkey]
      · simp [hkey, hne hkey]
    · next hmem =>
      rw [List.filter_cons_of_pos (by simpa using hmem), List.filter_filter, List.append_assoc,
        List.singleton_append]
      congr 2
      refine List.filter_congr fun key _ ↦ ?_
      rw [Bool.eq_iff_iff]
      simp
  current key completed hcurrent := by
    rw [current?_insert] at hcurrent
    split at hcurrent
    · next hkey =>
      cases hcurrent
      subst hkey
      exact ⟨(position, plan), work, rfl, hproperty, fun hnone ↦
        hlater _ _ (prevailing?_cons_of_last hselected hnone)⟩
    · next hkey =>
      obtain ⟨found, work, hwork, hproperty, hprevails⟩ := h.current key completed hcurrent
      refine ⟨found, work, hwork, hproperty, fun hnone ↦ hprevails ?_⟩
      rw [prevailing?_cons_of_not fun hcounts ↦ hkey hcounts.2, hnone]

/-- When all fields are set, each key holds what was completed for the field that prevails. -/
theorem prevails (h : Built vars typename fields property position [] assembler) {key : String}
    {completed : Completed World Json} (hcurrent : assembler.current? key = some completed) :
    ∃ found work, prevailing? vars typename key 0 fields = some found ∧
      completed.2 = work.under (({} : Trail).field found.1 key) ∧
      property found (completed.1, work) := by
  obtain ⟨found, work, hwork, hproperty, hprevails⟩ := h.current key completed hcurrent
  exact ⟨found, work, hprevails rfl, hwork, hproperty⟩

/-- When all fields are set, the object has the keys of the fields that count. -/
theorem keys_object (h : Built vars typename fields property position [] assembler) :
    Dict.keys assembler.object = selectedKeys vars typename fields := by
  have hkeys := h.keys
  rwa [selectedKeys, List.filter_nil, List.append_nil] at hkeys

/-- When all fields are set, something is held for each field that prevails. -/
theorem exists_current (h : Built vars typename fields property position [] assembler)
    {key : String} {found : Nat × FieldPlan}
    (hfound : prevailing? vars typename key 0 fields = some found) :
    ∃ value work, Dict.get? assembler.object key = some value ∧
      assembler.current? key = some (value, work.under (({} : Trail).field found.1 key)) ∧
      property found (value, work) := by
  have hisSome : (prevailing? vars typename key 0 fields).isSome
      = decide (key ∈ selectedKeys vars typename fields) := prevailing?_isSome fields
  rw [hfound, ← h.keys_object] at hisSome
  have hkey : key ∈ Dict.keys assembler.object := of_decide_eq_true hisSome.symm
  obtain ⟨value, hvalue⟩ := Option.isSome_iff_exists.1 ((Dict.get?_isSome_iff _ _).2 hkey)
  have hcurrent : assembler.current? key
      = some (value, (assembler.workOf? key).getD .none) := by
    rw [current?, hvalue, Option.map_some]
  obtain ⟨other, work, hprevails, hwork, hproperty⟩ := h.prevails hcurrent
  obtain rfl : found = other := Option.some.inj (hfound.symm.trans hprevails)
  exact ⟨value, work, hvalue, by rw [hcurrent, ← hwork], hproperty⟩

/-- When all fields are set, the work that is kept for a key is that of the field that prevails. -/
theorem prevails_of_mem (h : Built vars typename fields property position [] assembler)
    {entry : String × Work World} (hentry : entry ∈ assembler.pending) :
    ∃ value found work, Dict.get? assembler.object entry.1 = some value ∧
      prevailing? vars typename entry.1 0 fields = some found ∧
      entry.2 = work.under (({} : Trail).field found.1 entry.1) ∧
      property found (value, work) := by
  obtain ⟨value, hvalue, hcurrent⟩ := h.tidy.current?_of_mem hentry
  obtain ⟨found, work, hprevails, hwork, hproperty⟩ := h.prevails hcurrent
  exact ⟨value, found, work, hvalue, hprevails, hwork, hproperty⟩

end Built

end Assembler

end GraphCache
