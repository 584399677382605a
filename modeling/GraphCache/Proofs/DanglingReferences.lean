import GraphCache.Proofs.ErrorPaths
import GraphCache.Proofs.Readings

/-!
# Dangling references

If a record is removed from the cache, the references to it dangle. Each slot of a response where
such a reference is followed then holds `null` with one error, in place of whatever it held before
and of the errors in it. Nothing else changes.

## Main definitions

* `Evaluator.meets`: the paths at which references to a record are followed, the outermost ones.
* `Isolates`: how an evaluation changes when a record is removed.
* `Executor.without`: an execution on the cache without a record.

## Main results

* `Evaluator.field_isolated`, `Evaluator.object_isolated`, `Evaluator.value_isolated`: one case for
  each kind of what is read.
* `Executor.dangling_reference_isolated`: the responses with and without a record.
-/

namespace GraphCache

variable {World : Type}

/-- Removes the record with a key. -/
def Snapshot.without (store : Snapshot) (key : String) : Snapshot :=
  store.filter (·.1 != key)

namespace Snapshot

variable (store : Snapshot) {key : String}

/-- A reference to a record that was removed leads nowhere. -/
theorem resolve_without_self {value : Json} (h : value.reference? = some key) :
    (store.without key).resolve value = .missing key := by
  have hget : Dict.get? (store.without key) key = none := by
    rw [without, Dict.get?_filter_ne, if_pos rfl]
  rw [resolve, h]
  simp only [hget]

/-- All other references lead where they led before. -/
theorem resolve_without_of_ne {value : Json} (h : value.reference? ≠ some key) :
    (store.without key).resolve value = store.resolve value := by
  unfold resolve
  cases hreference : value.reference? with
  | none => rfl
  | some other =>
    have hne : key ≠ other := fun heq ↦ h (by rw [hreference, heq])
    have hget : Dict.get? (store.without key) other = Dict.get? store other := by
      rw [without, Dict.get?_filter_ne, if_neg hne]
    simp only [hget]

end Snapshot

namespace Evaluator

/-- Direct evaluation on the cache without the record with a key. -/
def without (evaluator : Evaluator) (key : String) : Evaluator :=
  { evaluator with store := evaluator.store.without key }

/-- Whether a path leads to a reference to the record with a key, without passing another one. -/
def meets (evaluator : Evaluator) (key : String) : Reading → Path → Bool
  | reading, [] => reading.reference? == some key
  | reading, step :: path =>
    reading.reference? != some key &&
      (evaluator.child? reading step).any fun inner => meets evaluator key inner path

end Evaluator

/-- `null` for the slots at the given paths. -/
def Json.nullAt (there : Path → Bool) (path : Path) : Option Json :=
  if there path then some .null else none

/-- How an evaluation changes when the record with a key is removed, given the paths at which
references to it are followed. -/
structure Isolates (key : String) (met : Path → Bool) (before after : Evaluated Json) : Prop where
  /-- The slots at the given paths become `null`. -/
  data : after.1 = before.1.fill (Json.nullAt met)
  /-- There were such slots. -/
  slots : ∀ path, met path = true → ∃ value, before.1.at? path = some value
  /-- Outside these slots the faults are the same. -/
  outside : ∀ fault : Fault, Path.passes met fault.trail.path = false →
    (fault ∈ after.2 ↔ fault ∈ before.2)
  /-- A fault in these slots tells that the record is missing. -/
  inside : ∀ fault ∈ after.2, Path.passes met fault.trail.path = true →
    met fault.trail.path = true ∧ fault.error = .missingEntity key
  /-- There is one for each slot. -/
  met : ∀ path, met path = true → ∃ fault ∈ after.2, fault.trail.path = path

/-- How the evaluation of the items of a list changes, the first of which has the given index, when
the record with a key is removed. -/
structure IsolatesItems (key : String) (met : Path → Bool) (position : Nat)
    (before after : Evaluated (List Json)) : Prop where
  /-- The slots at the given paths become `null`. -/
  data : after.1 = Json.fillItems (Json.nullAt met) position before.1
  /-- There were such slots. -/
  slots : ∀ index path, met (.index (position + index) :: path) = true →
    ∃ item, before.1[index]? = some item ∧ ∃ value, item.at? path = some value
  /-- Outside these slots the faults are the same. -/
  outside : ∀ fault : Fault, Path.passes met fault.trail.path = false →
    (fault ∈ after.2 ↔ fault ∈ before.2)
  /-- A fault in these slots tells that the record is missing. -/
  inside : ∀ fault ∈ after.2, Path.passes met fault.trail.path = true →
    met fault.trail.path = true ∧ fault.error = .missingEntity key
  /-- There is one for each slot. -/
  met : ∀ index path, met (.index (position + index) :: path) = true →
    ∃ fault ∈ after.2, fault.trail.path = .index (position + index) :: path

variable {key : String}

/-- Where no reference to the record is followed, nothing changes. -/
theorem Isolates.same {met : Path → Bool} (h : ∀ path, met path = false)
    (evaluated : Evaluated Json) : Isolates key met evaluated evaluated where
  data := (Json.fill_eq_self (fun path ↦ by simp [Json.nullAt, h]) _).symm
  slots path hmet := by simp [h] at hmet
  outside _ _ := Iff.rfl
  inside fault _ hpasses := by
    obtain ⟨outer, _, hmet⟩ := Path.passes_iff.1 hpasses
    simp [h] at hmet
  met path hmet := by simp [h] at hmet

/-- A reference to the record becomes `null` with one fault. -/
theorem Isolates.cut {met : Path → Bool} (hroot : met [] = true)
    (hbelow : ∀ step path, met (step :: path) = false) (before : Evaluated Json) :
    Isolates key met before (Evaluator.failing (.missingEntity key)) where
  data := by
    have hnull : Json.nullAt met [] = some .null := by simp [Json.nullAt, hroot]
    exact (Json.fill_of_root hnull _).symm
  slots path hmet := by
    cases path with
    | nil => exact ⟨_, rfl⟩
    | cons step path => simp [hbelow] at hmet
  outside fault hpasses := by
    have hpassed : Path.passes met fault.trail.path = true :=
      Path.passes_iff.2 ⟨[], List.nil_prefix, hroot⟩
    rw [hpassed] at hpasses
    cases hpasses
  inside fault hfault _ := by
    rw [List.mem_singleton.1 hfault]
    exact ⟨hroot, rfl⟩
  met path hmet := by
    cases path with
    | nil => exact ⟨_, List.mem_singleton_self _, rfl⟩
    | cons step path => simp [hbelow] at hmet

namespace IsolatesItems

theorem nil {met : Path → Bool} (position : Nat)
    (h : ∀ index path, met (.index (position + index) :: path) = false) :
    IsolatesItems key met position ([], []) ([], []) where
  data := rfl
  slots index path hmet := by simp [h] at hmet
  outside _ _ := Iff.rfl
  inside fault hfault _ := by cases hfault
  met index path hmet := by simp [h] at hmet

/-- The items of a list change one by one. -/
theorem cons {met : Path → Bool} {position : Nat} {before after : Evaluated Json}
    {befores afters : Evaluated (List Json)} (hroot : met [] = false)
    (h : Isolates key (fun path => met (.index position :: path)) before after)
    (hrest : IsolatesItems key met (position + 1) befores afters) :
    IsolatesItems key met position
      (before.1 :: befores.1,
        before.2.map (·.under (({} : Trail).index position)) ++ befores.2)
      (after.1 :: afters.1,
        after.2.map (·.under (({} : Trail).index position)) ++ afters.2) where
  data := by
    rw [Json.fillItems, hrest.data, h.data]
    rfl
  slots index path hmet := by
    cases index with
    | zero => exact ⟨before.1, rfl, h.slots path hmet⟩
    | succ index =>
      have hindex : position + (index + 1) = position + 1 + index := by omega
      rw [hindex] at hmet
      exact hrest.slots index path hmet
  outside fault hpasses := by
    rw [List.mem_append, List.mem_append, hrest.outside fault hpasses, List.mem_map, List.mem_map]
    refine or_congr_left (exists_congr fun inner ↦ and_congr_left ?_)
    rintro rfl
    exact h.outside inner (Bool.or_eq_false_iff.1 hpasses).2
  inside fault hfault hpasses := by
    rcases List.mem_append.1 hfault with hfault | hfault
    · obtain ⟨inner, hinner, rfl⟩ := List.mem_map.1 hfault
      have hbelow : inner.trail.path.passes (fun path ↦ met (.index position :: path)) = true := by
        rw [← Bool.false_or (Path.passes _ _), ← hroot]
        exact hpasses
      exact h.inside inner hinner hbelow
    · exact hrest.inside fault hfault hpasses
  met index path hmet := by
    cases index with
    | zero =>
      obtain ⟨inner, hinner, hpath⟩ := h.met path hmet
      refine ⟨_, List.mem_append_left _ (List.mem_map_of_mem hinner), ?_⟩
      rw [← hpath]
      rfl
    | succ index =>
      have hindex : position + (index + 1) = position + 1 + index := by omega
      rw [hindex] at hmet ⊢
      obtain ⟨fault, hfault, hpath⟩ := hrest.met index path hmet
      exact ⟨fault, List.mem_append_right _ hfault, hpath⟩

/-- A list changes in its items. -/
theorem array {met : Path → Bool} {before after : Evaluated (List Json)} (hroot : met [] = false)
    (hkey : ∀ name path, met (.key name :: path) = false)
    (h : IsolatesItems key met 0 before after) :
    Isolates key met (.array before.1, before.2) (.array after.1, after.2) where
  data := by
    have hnull : Json.nullAt met [] = none := by simp [Json.nullAt, hroot]
    rw [Json.fill, hnull, Option.getD_none, h.data]
  slots path hmet := by
    cases path with
    | nil => simp [hroot] at hmet
    | cons step path =>
      cases step with
      | key name => simp [hkey] at hmet
      | index index =>
        rw [← Nat.zero_add index] at hmet
        obtain ⟨item, hitem, value, hvalue⟩ := h.slots index path hmet
        exact ⟨value, by rw [Json.at?, Json.child?, hitem, Option.bind_some, hvalue]⟩
  outside := h.outside
  inside := h.inside
  met path hmet := by
    cases path with
    | nil => simp [hroot] at hmet
    | cons step path =>
      cases step with
      | key name => simp [hkey] at hmet
      | index index =>
        rw [← Nat.zero_add index] at hmet ⊢
        exact h.met index path hmet

end IsolatesItems

namespace Evaluator

variable {evaluator : Evaluator}

section Values

variable {fields : List FieldPlan}

/-- Where a reference to the record is followed, no other one is followed any further. -/
theorem meets_of_reference? (evaluator : Evaluator) {reading : Reading}
    (h : reading.reference? = some key) :
    evaluator.meets key reading [] = true ∧
      ∀ step path, evaluator.meets key reading (step :: path) = false := by
  simp [meets, h]

/-- A value that leads to an object meets the references that the object meets. -/
theorem meets_of_source? {mode : ReadMode} {typeHint : Option String} {object : Object}
    {source : Source} (href : (Json.object object).reference? ≠ some key)
    (h : evaluator.source? (.value fields mode typeHint (.object object)) = some source)
    (path : Path) :
    evaluator.meets key (.value fields mode typeHint (.object object)) path
      = evaluator.meets key (.object fields source) path := by
  have hvalue : (Reading.value fields mode typeHint (.object object)).reference? ≠ some key := href
  have hobject : (Reading.object fields source).reference? ≠ some key := nofun
  cases path with
  | nil => rw [meets, meets, beq_false_of_ne hvalue, beq_false_of_ne hobject]
  | cons step path =>
    rw [meets, meets, bne, bne, beq_false_of_ne hvalue, beq_false_of_ne hobject,
      child?_of_source? h]

/-- No reference is followed where nothing is read any further. -/
theorem meets_eq_false {reading : Reading} (href : reading.reference? ≠ some key)
    (h : ∀ step, evaluator.child? reading step = none) (path : Path) :
    evaluator.meets key reading path = false := by
  cases path with
  | nil => rw [meets, beq_false_of_ne href]
  | cons step path => rw [meets, h, Option.any_none, Bool.and_false]

/-- No reference is followed in a value that is neither a list nor an object. -/
theorem meets_scalar {mode : ReadMode} {typeHint : Option String} {json : Json}
    (harray : ∀ items, json ≠ .array items) (hobject : ∀ object, json ≠ .object object)
    (path : Path) : evaluator.meets key (.value fields mode typeHint json) path = false := by
  have href : (Reading.value fields mode typeHint json).reference? ≠ some key := by
    intro h
    exact hobject _ (Json.reference?_eq_some_iff.1 h)
  exact meets_eq_false href (child?_of_scalar harray hobject) path

/-- What an object meets under a key, the field that prevails for the key meets. -/
theorem meets_key (source : Source) (name : String) (path : Path) :
    evaluator.meets key (.object fields source) (.key name :: path)
      = (FieldPlan.prevailing? evaluator.variableValues (typename? source.object) name 0
          fields).any fun found =>
            (evaluator.below? source found.2).any (evaluator.meets key · path) := by
  have hobject : (Reading.object fields source).reference? ≠ some key := nofun
  rw [meets, bne, beq_false_of_ne hobject, child?, fieldAt?_object]
  cases FieldPlan.prevailing? evaluator.variableValues (typename? source.object) name 0 fields with
  | none => rfl
  | some found => rfl

/-- Evaluating an object changes only where references to the record are followed. -/
def IsolatesObjects (evaluator : Evaluator) (key : String) (fields : List FieldPlan) : Prop :=
  ∀ source, Isolates key (evaluator.meets key (.object fields source))
    (evaluator.read (.object fields source)) ((evaluator.without key).read (.object fields source))

/-- Evaluating the value of a field changes only where references to the record are followed. -/
def IsolatesField (evaluator : Evaluator) (key : String) (plan : FieldPlan) : Prop :=
  ∀ source : Source, Isolates key
    (fun path => (evaluator.below? source plan).any (evaluator.meets key · path))
    (evaluator.member source.object source.mode source.typeHint plan)
    ((evaluator.without key).member source.object source.mode source.typeHint plan)

section Object

variable (hexpand : evaluator.IsolatesObjects key fields)

include hexpand

/-- Without the record, a value that is read changes only where references to it are followed. -/
theorem object_value_isolated (mode : ReadMode) (typeHint : Option String) (object : Object) :
    Isolates key (evaluator.meets key (.value fields mode typeHint (.object object)))
      (evaluator.read (.value fields mode typeHint (.object object)))
      ((evaluator.without key).read (.value fields mode typeHint (.object object))) := by
  by_cases href : (Json.object object).reference? = some key
  · have hreading : (Reading.value fields mode typeHint (.object object)).reference?
        = some key := href
    obtain ⟨hroot, hbelow⟩ := meets_of_reference? evaluator hreading
    have hafter : (evaluator.without key).read (.value fields mode typeHint (.object object))
        = failing (.missingEntity key) := by
      have hresolve : (evaluator.without key).store.resolve (.object object) = .missing key :=
        Snapshot.resolve_without_self _ href
      simp only [read, Evaluator.value, hresolve]
    rw [hafter]
    exact .cut hroot hbelow _
  · have hresolve : (evaluator.without key).store.resolve (.object object)
        = evaluator.store.resolve (.object object) := Snapshot.resolve_without_of_ne _ href
    have hsame : (evaluator.without key).source? (.value fields mode typeHint (.object object))
        = evaluator.source? (.value fields mode typeHint (.object object)) := by
      rw [source?, source?, hresolve]
    cases hsource : evaluator.source? (.value fields mode typeHint (.object object)) with
    | some source =>
      have hmet : evaluator.meets key (.value fields mode typeHint (.object object))
          = evaluator.meets key (.object fields source) :=
        funext (meets_of_source? href hsource)
      rw [hmet, read_of_source? hsource, read_of_source? (hsame.trans hsource)]
      exact hexpand source
    | none =>
      have hafter : (evaluator.without key).read (.value fields mode typeHint (.object object))
          = evaluator.read (.value fields mode typeHint (.object object)) := by
        rw [source?] at hsource
        split at hsource
        · cases hsource
        · next other hmissing =>
          simp only [read, Evaluator.value, hresolve, hmissing]
        · cases hsource
      have hvalue : (Reading.value fields mode typeHint (.object object)).reference?
          ≠ some key := href
      rw [hafter]
      exact .same (meets_eq_false hvalue (child?_of_source?_eq_none hsource)) _

-- Each theorem of the block needs the assumptions of the others.
set_option linter.unusedSectionVars false in
mutual

theorem value_isolated (mode : ReadMode) (typeHint : Option String) (json : Json) :
    Isolates key (evaluator.meets key (.value fields mode typeHint json))
      (evaluator.read (.value fields mode typeHint json))
      ((evaluator.without key).read (.value fields mode typeHint json)) := by
  cases json with
  | null => exact .same (meets_scalar (by simp) (by simp)) _
  | bool _ => exact .same (meets_scalar (by simp) (by simp)) _
  | number _ => exact .same (meets_scalar (by simp) (by simp)) _
  | string _ => exact .same (meets_scalar (by simp) (by simp)) _
  | array list =>
    have hitems := items_isolated mode typeHint 0 list
      (evaluator.meets key (.value fields mode typeHint (.array list))) rfl fun index path ↦ by
        rw [Nat.zero_add]
        rfl
    simp only [read, Evaluator.value]
    exact hitems.array rfl fun name path ↦ rfl
  | object object => exact object_value_isolated hexpand mode typeHint object

theorem items_isolated (mode : ReadMode) (typeHint : Option String) (position : Nat)
    (list : List Json) (met : Path → Bool) (hroot : met [] = false)
    (hitems : ∀ index path, met (.index (position + index) :: path)
      = (list[index]?.map (Reading.value fields mode typeHint)).any (evaluator.meets key · path)) :
    IsolatesItems key met position
      (evaluator.items (evaluator.fields fields 0) mode typeHint position list)
      ((evaluator.without key).items ((evaluator.without key).fields fields 0) mode typeHint
        position list) := by
  cases list with
  | nil => exact .nil position fun index path ↦ (hitems index path).trans (by simp)
  | cons item rest =>
    have hitem := value_isolated mode typeHint item
    have hmet : (fun path ↦ met (.index position :: path))
        = evaluator.meets key (.value fields mode typeHint item) := by
      funext path
      exact hitems 0 path
    rw [← hmet] at hitem
    have hrest := items_isolated mode typeHint (position + 1) rest met hroot fun index path ↦ by
      have hindex : position + 1 + index = position + (index + 1) := by omega
      rw [hindex, hitems, List.getElem?_cons_succ]
    exact .cons hroot hitem hrest

end

end Object

/-- What an object meets under a key changes with the field that prevails for the key. -/
theorem member_isolated (hfields : ∀ plan ∈ fields, evaluator.IsolatesField key plan)
    (source : Source) {name : String} {found : Nat × FieldPlan}
    (hfound : FieldPlan.prevailing? evaluator.variableValues (typename? source.object) name 0
      fields = some found) :
    Isolates key (fun path => evaluator.meets key (.object fields source) (.key name :: path))
      (evaluator.member source.object source.mode source.typeHint found.2)
      ((evaluator.without key).member source.object source.mode source.typeHint found.2) := by
  obtain ⟨_, hlisted, _⟩ := FieldPlan.of_prevailing? hfound
  have hmet : (fun path ↦ evaluator.meets key (.object fields source) (.key name :: path))
      = fun path ↦ (evaluator.below? source found.2).any (evaluator.meets key · path) := by
    funext path
    rw [meets_key, hfound, Option.any_some]
  rw [hmet]
  exact hfields found.2 (List.mem_of_getElem? hlisted) source

/-- An object that is evaluated changes in its fields. -/
theorem object_isolated (hfields : ∀ plan ∈ fields, evaluator.IsolatesField key plan) :
    evaluator.IsolatesObjects key fields := by
  intro source
  have hmember {name : String} {found : Nat × FieldPlan} (hfound : FieldPlan.prevailing?
      evaluator.variableValues (typename? source.object) name 0 fields = some found) :=
    member_isolated hfields source hfound
  have hvars : (evaluator.without key).variableValues = evaluator.variableValues := rfl
  have hbelow : ∀ path, evaluator.meets key (.object fields source) path = true →
      ∃ name inner found, path = .key name :: inner ∧
        FieldPlan.prevailing? evaluator.variableValues (typename? source.object) name 0 fields
          = some found := by
    intro path hmet
    cases path with
    | nil => cases hmet
    | cons step path =>
      cases step with
      | index position => cases hmet
      | key name =>
        rw [meets_key] at hmet
        obtain ⟨found, hfound, _⟩ := (Option.any_eq_true _ _).1 hmet
        exact ⟨name, path, found, rfl, hfound⟩
  refine ⟨?data, ?slots, ?outside, ?inside, ?met⟩
  case data =>
    have hnull : Json.nullAt (evaluator.meets key (.object fields source)) [] = none := rfl
    simp only [read, Json.fill, hnull, Option.getD_none]
    refine congrArg Json.object (Dict.ext_get? (nodup_keys_fields _ _ _ _ _ _) ?_ fun name ↦ ?_)
    · rw [Json.keys_fillFields, keys_fields, keys_fields, hvars]
    · rw [Json.get?_fillFields, get?_fields, get?_fields, hvars]
      cases hfound : FieldPlan.prevailing? evaluator.variableValues (typename? source.object) name
          0 fields with
      | none => rfl
      | some found => exact congrArg some (hmember hfound).data
  case slots =>
    intro path hmet
    obtain ⟨name, inner, found, rfl, hfound⟩ := hbelow path hmet
    obtain ⟨value, hvalue⟩ := (hmember hfound).slots inner hmet
    have hget : Dict.get? (evaluator.fields fields 0 source.object source.mode source.typeHint).1
        name = some (evaluator.member source.object source.mode source.typeHint found.2).1 := by
      rw [get?_fields, hfound, Option.map_some]
    refine ⟨value, ?_⟩
    simp only [read, Json.at?, Json.child?, hget, Option.bind_some]
    exact hvalue
  case outside =>
    intro fault hpasses
    simp only [read]
    rw [mem_faults_fields, mem_faults_fields, hvars]
    refine exists_congr fun name ↦ exists_congr fun found ↦ and_congr_right fun hfound ↦
      exists_congr fun inner ↦ and_congr_left ?_
    rintro rfl
    exact (hmember hfound).outside inner (Bool.or_eq_false_iff.1 hpasses).2
  case inside =>
    intro fault hfault hpasses
    simp only [read] at hfault
    rw [mem_faults_fields, hvars] at hfault
    obtain ⟨name, found, hfound, inner, hinner, rfl⟩ := hfault
    exact (hmember hfound).inside inner hinner hpasses
  case met =>
    intro path hmet
    obtain ⟨name, inner, found, rfl, hfound⟩ := hbelow path hmet
    obtain ⟨fault, hfault, rfl⟩ := (hmember hfound).met inner hmet
    simp only [read]
    refine ⟨fault.under (({} : Trail).field found.1 name), ?_, rfl⟩
    rw [mem_faults_fields, hvars]
    exact ⟨name, found, hfound, fault, hfault, rfl⟩

/-- The value of a field for which nothing is read does not depend on the cache. -/
theorem member_without_of_below?_eq_none {source : Source} {plan : FieldPlan}
    (h : evaluator.below? source plan = none) :
    (evaluator.without key).member source.object source.mode source.typeHint plan
      = evaluator.member source.object source.mode source.typeHint plan := by
  cases plan with
  | leaf field => rfl
  | nested field id fields =>
    rw [below?] at h
    rw [member, member, Evaluator.field, Evaluator.field]
    split at h
    · next hlocal =>
      have hanswer : evaluator.answer? source field = none := Option.map_eq_none_iff.1 h
      simp only [FieldPlan.field, hlocal, ite_true, localField]
      have hresolve : (evaluator.without key).resolve? = evaluator.resolve? := rfl
      have hroot : (evaluator.without key).rootType = evaluator.rootType := rfl
      have hvars : (evaluator.without key).variableValues = evaluator.variableValues := rfl
      rw [hresolve, hroot, hvars]
      cases hresults : evaluator.resolve? ((Execution.knownType field source.object
          source.typeHint).getD evaluator.rootType) field.name with
      | none => rfl
      | some results =>
        dsimp only
        cases hresult : results source.object
            (field.boundArguments evaluator.variableValues) with
        | error reason => rfl
        | ok json => simp [answer?, hresults, hresult, Except.toOption] at hanswer
    · next hremote =>
      have hfound : evaluator.found? field source.object source.mode = none :=
        Option.map_eq_none_iff.1 h
      have hfound' : (evaluator.without key).found? field source.object source.mode = none :=
        hfound
      simp only [hremote, remoteField, hfound, hfound']
      rfl

mutual

/-- The value of a field changes only where references to the record are followed. -/
theorem field_isolated (evaluator : Evaluator) (key : String) (plan : FieldPlan) :
    evaluator.IsolatesField key plan := by
  intro source
  have hsame : (evaluator.without key).below? source plan = evaluator.below? source plan := by
    cases plan <;> rfl
  cases hbelow : evaluator.below? source plan with
  | none =>
    rw [member_without_of_below?_eq_none hbelow]
    exact .same (fun _ ↦ rfl) _
  | some reading =>
    rw [member_of_below? hbelow, member_of_below? (hsame.trans hbelow)]
    cases plan with
    | leaf field => cases hbelow
    | nested field id fields =>
      have hexpand : evaluator.IsolatesObjects key fields :=
        object_isolated (fields_isolated evaluator key fields)
      rw [below?] at hbelow
      split at hbelow
      · obtain ⟨json, _, rfl⟩ := Option.map_eq_some_iff.1 hbelow
        exact value_isolated hexpand _ _ json
      · obtain ⟨json, _, rfl⟩ := Option.map_eq_some_iff.1 hbelow
        exact value_isolated hexpand _ _ json

theorem fields_isolated (evaluator : Evaluator) (key : String) (plans : List FieldPlan) :
    ∀ plan ∈ plans, evaluator.IsolatesField key plan := by
  cases plans with
  | nil => simp
  | cons plan plans =>
    intro other hother
    rcases List.mem_cons.1 hother with heq | hother
    · rw [heq]
      exact field_isolated evaluator key plan
    · exact fields_isolated evaluator key plans other hother

end

/-- What is read changes only where references to the record are followed. -/
theorem read_isolated (evaluator : Evaluator) (key : String) (reading : Reading) :
    Isolates key (evaluator.meets key reading) (evaluator.read reading)
      ((evaluator.without key).read reading) := by
  cases reading with
  | object fields source => exact object_isolated (fields_isolated evaluator key fields) source
  | value fields mode typeHint json =>
    exact value_isolated (object_isolated (fields_isolated evaluator key fields)) mode typeHint json

end Values

/-- Whether a path into the response to a plan leads to a reference to the record with a key,
without passing another one. -/
def rootMeets (evaluator : Evaluator) (key : String) (plan : QueryPlan) (start : Root)
    (path : Path) : Bool :=
  (evaluator.rootReading? plan start).any (evaluator.meets key · path)

/-- The data and the faults of a response change only where references to the record are
followed, if the record is not the one from which the execution starts. -/
theorem root_isolated (evaluator : Evaluator) (plan : QueryPlan) {start : Root}
    (hstart : start ≠ .entity key) :
    Isolates key (evaluator.rootMeets key plan start) (evaluator.root plan start)
      ((evaluator.without key).root plan start) := by
  have hsame : (evaluator.without key).rootReading? plan start
      = evaluator.rootReading? plan start := by
    cases start with
    | value payload => rfl
    | entity other =>
      have hne : key ≠ other := fun heq ↦ hstart (heq ▸ rfl)
      have hget : Dict.get? (evaluator.without key).store other
          = Dict.get? evaluator.store other := by
        rw [without, Snapshot.without, Dict.get?_filter_ne, if_neg hne]
      rw [rootReading?, rootReading?, hget]
  cases hreading : evaluator.rootReading? plan start with
  | some reading =>
    have hmet : evaluator.rootMeets key plan start = evaluator.meets key reading := by
      funext path
      rw [rootMeets, hreading, Option.any_some]
    rw [hmet, root_of_rootReading? hreading, root_of_rootReading? (hsame.trans hreading)]
    exact read_isolated evaluator key reading
  | none =>
    have hmet : ∀ path, evaluator.rootMeets key plan start path = false := by
      intro path
      rw [rootMeets, hreading, Option.any_none]
    obtain ⟨missing, rfl, hroot⟩ := root_of_rootReading?_eq_none hreading
    obtain ⟨_, heq, hroot'⟩ := root_of_rootReading?_eq_none (hsame.trans hreading)
    cases heq
    rw [hroot, hroot']
    exact .same hmet _

end Evaluator

/-- How a response changes when the record with a key is removed, given the paths at which
references to it are followed. -/
structure Response.Dangles (key : String) (met : Path → Bool) (before after : Response) :
    Prop where
  /-- The data becomes `null` in the slots at the given paths; all else in it stays the same. -/
  data : after.data = before.data.map (Json.fill (Json.nullAt met))
  /-- There were such slots. -/
  slots : ∀ path, met path = true → ∃ value, (before.data.bind (·.at? path)) = some value
  /-- Outside these slots the errors are the same and come in the same order. -/
  outside : after.errors.filter (·.isOutside met) = before.errors.filter (·.isOutside met)
  /-- For each slot there is exactly one error, which tells that the record is missing. -/
  missing : ∀ path, met path = true →
    after.errors.filter (·.path == some path) = [(FieldError.missingEntity key).toGraphQLError path]
  /-- There is no other error in these slots. -/
  inside : ∀ error ∈ after.errors, error.isOutside met = false →
    ∃ path, met path = true ∧ error = (FieldError.missingEntity key).toGraphQLError path

namespace Executor

variable {executor : Executor World} {results : ResolverResults}

/-- The same execution on the cache without the record with a key. -/
def without (executor : Executor World) (key : String) : Executor World :=
  { executor with store := executor.store.without key }

/-- Whether a path into the response leads to a reference to the record with a key, without passing
another one. -/
def meets (executor : Executor World) (results : ResolverResults) (key : String) (root : Root)
    (path : Path) : Bool :=
  (executor.evaluator results).rootMeets key executor.plan root path

/-- A dangling reference is isolated. When a record is removed other than the one from which the
execution starts, then the response changes only where references to the record are followed: there
the data becomes `null`, with one error in place of those that there were. -/
theorem dangling_reference_isolated (hplan : executor.plan.Planned)
    (hpolicy : executor.missingEntities = .nullify) {key : String}
    (hgives : executor.registry.Gives executor.scope results)
    (hgivesWithout : executor.registry.Gives (executor.without key).scope results) {root : Root}
    (hroot : root ≠ .entity key) (order : FinishingOrder) {world : World} {before : Response}
    (hbefore : (executor.executeIn order root world).1 = .ok before ∨
      (executor.execute root world).1 = .ok before) :
    ∃ after : Response,
      (∀ order world, ((executor.without key).executeIn order root world).1 = .ok after ∧
        ((executor.without key).execute root world).1 = .ok after) ∧
      before.Dangles key (executor.meets results key root) after := by
  have hvalid := validate_of_response order hbefore
  have hbeforeEq : before = (executor.evaluator results).response executor.plan root := by
    rcases hbefore with hbefore | hbefore
    · rw [executeIn_eq_response hplan hpolicy hgives hvalid] at hbefore
      exact (Except.ok.inj hbefore).symm
    · rw [execute_eq_response hplan hpolicy hgives hvalid] at hbefore
      exact (Except.ok.inj hbefore).symm
  have hplan' : (executor.without key).plan.Planned := hplan
  have hpolicy' : (executor.without key).missingEntities = .nullify := hpolicy
  have hvalid' : (executor.without key).registry.validate (executor.without key).plan = .ok () :=
    hvalid
  have hafter : ∀ order world, ((executor.without key).executeIn order root world).1
        = .ok (((executor.evaluator results).without key).response executor.plan root) ∧
      ((executor.without key).execute root world).1
        = .ok (((executor.evaluator results).without key).response executor.plan root) :=
    fun order world ↦
      ⟨executeIn_eq_response hplan' hpolicy' hgivesWithout hvalid' order root world,
        execute_eq_response hplan' hpolicy' hgivesWithout hvalid' root world⟩
  have hisolates := (executor.evaluator results).root_isolated executor.plan hroot
  have honce := nodup_error_paths order (.inl (hafter order world).1)
  subst hbeforeEq
  refine ⟨_, hafter, ?data, ?slots, ?outside, ?missing, ?inside⟩
  case data =>
    exact congrArg some hisolates.data
  case slots =>
    exact hisolates.slots
  case outside =>
    exact Fault.filter_isOutside_eq (Evaluator.root_sorted _ _ _) (Evaluator.root_sorted _ _ _)
      hisolates.outside
  case missing =>
    intro path hmet
    obtain ⟨fault, hfault, rfl⟩ := hisolates.met path hmet
    have hpasses : Path.passes (executor.meets results key root) fault.trail.path = true :=
      Path.passes_iff.2 ⟨_, List.prefix_refl _, hmet⟩
    have herror : fault.toGraphQLError
        = (FieldError.missingEntity key).toGraphQLError fault.trail.path := by
      rw [Fault.toGraphQLError, (hisolates.inside fault hfault hpasses).2]
    rw [← herror, ← Fault.path_toGraphQLError]
    exact filter_path_eq honce (List.mem_map_of_mem hfault)
  case inside =>
    intro error herror hinside
    obtain ⟨fault, hfault, rfl⟩ := List.mem_map.1 herror
    have hpasses : Path.passes (executor.meets results key root) fault.trail.path = true := by
      simpa [Fault.isOutside_toGraphQLError] using hinside
    obtain ⟨hmet, hmissing⟩ := hisolates.inside fault hfault hpasses
    exact ⟨fault.trail.path, hmet, by rw [Fault.toGraphQLError, hmissing]⟩

section Sample

/-- The person who is listed three times is removed. -/
theorem peopleExecutor_dangling_reference_isolated :
    ∃ before after : Response, before.errors.length = 0 ∧ after.errors.length = 3 ∧
      (∀ order world,
        ((peopleExecutor.without "Person:1").executeIn order .query world).1 = .ok after ∧
          ((peopleExecutor.without "Person:1").execute .query world).1 = .ok after) ∧
      before.Dangles "Person:1"
        (peopleExecutor.meets (fun _ _ _ _ => .ok (.string "hello")) "Person:1" .query) after := by
  have hgives := peopleExecutor_gives peopleExecutor.scope
  have hgivesWithout := peopleExecutor_gives (peopleExecutor.without "Person:1").scope
  have hbefore := execute_eq_response peoplePlan_planned rfl hgives rfl .query 0
  have hroot : Root.query ≠ .entity "Person:1" := by simp [Root.query, OperationKind.rootKey]
  obtain ⟨after, hafter, hdangles⟩ := dangling_reference_isolated peoplePlan_planned rfl hgives
    hgivesWithout hroot (fun _ ↦ 0) (.inr hbefore)
  have hplanned : (peopleExecutor.without "Person:1").plan.Planned := peoplePlan_planned
  have hexecute := execute_eq_response hplanned rfl hgivesWithout rfl .query 0
  have hresponse := Except.ok.inj ((hafter (fun _ ↦ 0) 0).2.symm.trans hexecute)
  refine ⟨_, after, rfl, ?_, hafter, hdangles⟩
  rw [hresponse]
  rfl

end Sample

end Executor

end GraphCache
