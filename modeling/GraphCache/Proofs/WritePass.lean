import GraphCache.Proofs.PlannedFields
import GraphCache.Store.Basic

/-!
# What the write pass leaves in the cache

When the write pass never meets a field that it has already written with another value, every
record that it makes is still there in the end, and every selected field of the data is found in
some record under its storage name, as it was written.

## Main definitions

* `Dict.Admits`, `Dict.Extends`: dictionaries that grow without changing.
* `FieldPlan.Covers`: an object has what is selected from it, and so have the objects inside it.
* `Normalizer.Consistent`: the write pass never changes a field.
* `FieldPlan.StoredAs`: a stored value leads to the value that it was written from.

## Main results

* `Snapshot.holds_assignAll`: all assignments are found in the cache in the end.
* `Normalizer.writeFields_storedAs`: the fields of an object lead to what they were written from.
* `Normalizer.normalize_storedAs`: so do the fields of a whole response.
-/

namespace GraphCache

/-! ### Dictionaries that grow -/

namespace Dict

variable {α : Type}

/-- Every value of the earlier dictionary is a value of the later one. -/
def Extends (later earlier : Dict α) : Prop :=
  ∀ key value, get? earlier key = some value → get? later key = some value

theorem Extends.refl (d : Dict α) : d.Extends d :=
  fun _ _ h ↦ h

theorem Extends.trans {a b c : Dict α} (hab : a.Extends b) (hbc : b.Extends c) : a.Extends c :=
  fun key value h ↦ hab key value (hbc key value h)

/-- There is no other value under the key. -/
def Admits (d : Dict α) (key : String) (value : α) : Prop :=
  ∀ old, get? d key = some old → old = value

/-- The entries can be set one after the other without changing a value. -/
def AdmitsAll (d : Dict α) : List (String × α) → Prop
  | [] => True
  | entry :: entries =>
    d.Admits entry.1 entry.2 ∧ AdmitsAll (insert d entry.1 entry.2) entries

theorem Admits.insert_extends {d : Dict α} {key : String} {value : α} (h : d.Admits key value) :
    (insert d key value).Extends d := by
  intro other old hold
  by_cases hother : key = other
  · subst hother
    rw [get?_insert_self, h old hold]
  · rw [get?_insert_of_ne _ _ hother, hold]

/-- Merging without changing a value keeps both dictionaries. -/
theorem AdmitsAll.merge_extends {d e : Dict α} (h : d.AdmitsAll e) :
    (merge d e).Extends d ∧ (merge d e).Extends e := by
  induction e generalizing d with
  | nil => exact ⟨.refl d, fun key value hvalue ↦ by cases hvalue⟩
  | cons entry e ih =>
    obtain ⟨hinto, hthis⟩ := ih h.2
    rw [merge_cons]
    refine ⟨hinto.trans h.1.insert_extends, fun key value hvalue ↦ ?_⟩
    rw [get?_cons] at hvalue
    split at hvalue
    · next hkey =>
      rw [← Option.some.inj hvalue, ← hkey]
      exact hinto _ _ (get?_insert_self d entry.1 entry.2)
    · exact hthis key value hvalue

end Dict

namespace Snapshot

/-- The assignments can be made one after the other without changing a field of a record. -/
def AdmitsAll (snapshot : Snapshot) : List Assignment → Prop
  | [] => True
  | assignment :: assignments =>
    Dict.AdmitsAll ((Dict.get? snapshot assignment.1).getD []) assignment.2 ∧
      AdmitsAll (snapshot.assign assignment) assignments

/-- All that is assigned is found in the record. -/
def Holds (snapshot : Snapshot) (assignment : Assignment) : Prop :=
  ∃ record, Dict.get? snapshot assignment.1 = some record ∧ Dict.Extends record assignment.2

/-- An assignment that changes no field keeps what is there. -/
theorem Holds.assign {snapshot : Snapshot} {assignment earlier : Assignment}
    (h : Dict.AdmitsAll ((Dict.get? snapshot assignment.1).getD []) assignment.2)
    (hearlier : snapshot.Holds earlier) : (snapshot.assign assignment).Holds earlier := by
  obtain ⟨record, hrecord, hextends⟩ := hearlier
  by_cases hkey : assignment.1 = earlier.1
  · rw [hkey, hrecord, Option.getD_some] at h
    refine ⟨Dict.merge record assignment.2, ?_, h.merge_extends.1.trans hextends⟩
    rw [Snapshot.assign, hkey, hrecord, Option.getD_some, Dict.get?_insert_self]
  · exact ⟨record, by rw [Snapshot.assign, Dict.get?_insert_of_ne _ _ hkey, hrecord], hextends⟩

theorem holds_assign {snapshot : Snapshot} {assignment : Assignment}
    (h : Dict.AdmitsAll ((Dict.get? snapshot assignment.1).getD []) assignment.2) :
    (snapshot.assign assignment).Holds assignment :=
  ⟨_, Dict.get?_insert_self _ _ _, h.merge_extends.2⟩

/-- All assignments are found in the cache in the end. -/
theorem holds_assignAll {snapshot : Snapshot} {assignments : List Assignment}
    (h : snapshot.AdmitsAll assignments) :
    (∀ assignment ∈ assignments, (snapshot.assignAll assignments).Holds assignment) ∧
      ∀ earlier, snapshot.Holds earlier → (snapshot.assignAll assignments).Holds earlier := by
  induction assignments generalizing snapshot with
  | nil => exact ⟨by simp, fun _ hearlier ↦ hearlier⟩
  | cons assignment assignments ih =>
    obtain ⟨hlater, hearlier⟩ := ih h.2
    refine ⟨List.forall_mem_cons.2 ⟨hearlier _ (holds_assign h.1), hlater⟩, fun earlier hheld ↦ ?_⟩
    exact hearlier earlier (hheld.assign h.1)

/-- Assignments to other records leave a record alone. -/
theorem get?_assignAll_of_forall_ne (snapshot : Snapshot) {assignments : List Assignment}
    {key : String} (h : ∀ assignment ∈ assignments, assignment.1 ≠ key) :
    Dict.get? (snapshot.assignAll assignments) key = Dict.get? snapshot key := by
  induction assignments generalizing snapshot with
  | nil => rfl
  | cons assignment assignments ih =>
    obtain ⟨hfirst, hrest⟩ := List.forall_mem_cons.1 h
    have hassign : Dict.get? (snapshot.assign assignment) key = Dict.get? snapshot key := by
      rw [Snapshot.assign, Dict.get?_insert_of_ne _ _ hfirst]
    exact (ih (snapshot.assign assignment) hrest).trans hassign

end Snapshot

/-! ### Objects that are reached -/

namespace Json

mutual

/-- Every object in the value satisfies a property: the value itself, or the items of the list, at
any depth of lists. -/
def EveryObject (p : Object → Prop) : Json → Prop
  | .array items => EveryObjectIn p items
  | .object fields => p fields
  | _ => True

/-- Every object among the listed values satisfies a property. -/
def EveryObjectIn (p : Object → Prop) : List Json → Prop
  | [] => True
  | item :: items => EveryObject p item ∧ EveryObjectIn p items

end

end Json

namespace FieldPlan

variable (vars : Object)

mutual

/-- An object has a field if it is selected, and the objects in its value have in turn what is
selected from them. -/
def Covers : FieldPlan → Object → Prop
  | .leaf field, object =>
    field.isSelected vars (typename? object) = true →
      ∃ value, Dict.get? object field.responseKey = some value
  | .nested field _ fields, object =>
    field.isSelected vars (typename? object) = true →
      ∃ value, Dict.get? object field.responseKey = some value ∧
        value.EveryObject (listCovers fields)

/-- An object has the selected ones of the listed fields, and so on for the objects inside it. -/
def listCovers : List FieldPlan → Object → Prop
  | [], _ => True
  | plan :: plans, object => Covers plan object ∧ listCovers plans object

end

variable {vars}

/-- A selected field has a value. -/
theorem Covers.exists_value {plan : FieldPlan} {object : Object} (h : plan.Covers vars object)
    (hselected : plan.field.isSelected vars (typename? object) = true) :
    ∃ value, Dict.get? object plan.field.responseKey = some value := by
  cases plan with
  | leaf field => exact h hselected
  | nested field id fields =>
    obtain ⟨value, hvalue, _⟩ := h hselected
    exact ⟨value, hvalue⟩

end FieldPlan

namespace Normalizer

variable (normalizer : Normalizer)

/-- What a field with a value is written as, with the assignments made for the objects inside it. -/
def written (plan : FieldPlan) (value : Json) : Json × List Assignment :=
  match plan with
  | .leaf _ => (value, [])
  | .nested _ _ fields => normalizer.writeValue (normalizer.writeObject fields) value

mutual

/-- Writing a field of an object into a record never changes a field, and neither does writing the
objects inside it into theirs. -/
def Admits : FieldPlan → Object → Object → Prop
  | .leaf field, object, record =>
    match normalizer.source? field object with
    | some value => Dict.Admits record (field.storageNameFor normalizer.variableValues) value
    | none => True
  | .nested field _ fields, object, record =>
    match normalizer.source? field object with
    | some value =>
      Dict.Admits record (field.storageNameFor normalizer.variableValues)
          (normalizer.writeValue (normalizer.writeObject fields) value).1 ∧
        value.EveryObject fun inner => listAdmits fields inner (startRecord inner)
    | none => True

/-- Writing the listed fields of an object into a record never changes a field. -/
def listAdmits : List FieldPlan → Object → Object → Prop
  | [], _, _ => True
  | plan :: plans, object, record =>
    Admits plan object record ∧ listAdmits plans object (normalizer.writeField plan object record).1

end

/-- Whenever the write pass sets a field of a record, or of what is already in the cache under the
same key, and the field is there, then its value is the same. -/
def Consistent (plan : QueryPlan) (data : Object) : Prop :=
  normalizer.listAdmits plan.selection.fields data (startRecord data) ∧
    Snapshot.AdmitsAll [] (normalize normalizer plan data)

variable {normalizer}

/-- What it is that a field with a value must not change. -/
theorem admits_leaf {field : PlannedField} {object record : Object} {value : Json}
    (h : normalizer.source? field object = some value) :
    normalizer.Admits (.leaf field) object record
      ↔ Dict.Admits record (field.storageNameFor normalizer.variableValues) value := by
  rw [Admits, h]

theorem admits_nested {field : PlannedField} {id : Nat} {fields : List FieldPlan}
    {object record : Object} {value : Json} (h : normalizer.source? field object = some value) :
    normalizer.Admits (.nested field id fields) object record ↔
      Dict.Admits record (field.storageNameFor normalizer.variableValues)
          (normalizer.writeValue (normalizer.writeObject fields) value).1 ∧
        value.EveryObject fun inner ↦ normalizer.listAdmits fields inner (startRecord inner) := by
  rw [Admits, h]

theorem Admits.written {plan : FieldPlan} {object record : Object} {value : Json}
    (h : normalizer.Admits plan object record)
    (hsource : normalizer.source? plan.field object = some value) :
    Dict.Admits record (plan.field.storageNameFor normalizer.variableValues)
      (normalizer.written plan value).1 := by
  cases plan with
  | leaf field => exact (admits_leaf hsource).1 h
  | nested field id fields => exact ((admits_nested hsource).1 h).1

/-- A field with a value is set to what the value is written as. -/
theorem writeField_of_source {plan : FieldPlan} {object : Object} {value : Json}
    (h : normalizer.source? plan.field object = some value) (record : Object) :
    normalizer.writeField plan object record
      = (Dict.insert record (plan.field.storageNameFor normalizer.variableValues)
          (normalizer.written plan value).1, (normalizer.written plan value).2) := by
  cases plan with
  | leaf field =>
    have hfield : normalizer.source? field object = some value := h
    simp only [writeField, hfield]
    rfl
  | nested field id fields =>
    have hfield : normalizer.source? field object = some value := h
    simp only [writeField, hfield]
    rfl

/-- A field without a value is not written. -/
theorem writeField_of_source_none {plan : FieldPlan} {object : Object}
    (h : normalizer.source? plan.field object = none) (record : Object) :
    normalizer.writeField plan object record = (record, []) := by
  cases plan with
  | leaf field =>
    have hfield : normalizer.source? field object = none := h
    simp only [writeField, hfield]
  | nested field id fields =>
    have hfield : normalizer.source? field object = none := h
    simp only [writeField, hfield]

/-- A selected remote field is written with the value that it has in the object. -/
theorem source?_of_selected {field : PlannedField} {object : Object}
    (hremote : field.isLocal = false)
    (h : field.isSelected normalizer.variableValues (typename? object) = true) :
    normalizer.source? field object = Dict.get? object field.responseKey := by
  simp [source?, hremote, h]

/-- Writing fields under other names leaves a field alone. -/
theorem get?_writeFields {plans : List FieldPlan} {object : Object} {name : String}
    (h : ∀ plan ∈ plans, ∀ value, normalizer.source? plan.field object = some value →
      plan.field.storageNameFor normalizer.variableValues ≠ name) (record : Object) :
    Dict.get? (normalizer.writeFields plans object record).1 name = Dict.get? record name := by
  induction plans generalizing record with
  | nil => rfl
  | cons plan plans ih =>
    obtain ⟨hfirst, hrest⟩ := List.forall_mem_cons.1 h
    have hfield : Dict.get? (normalizer.writeField plan object record).1 name
        = Dict.get? record name := by
      cases hsource : normalizer.source? plan.field object with
      | none => rw [writeField_of_source_none hsource]
      | some value =>
        rw [writeField_of_source hsource, Dict.get?_insert_of_ne _ _ (hfirst value hsource)]
    exact (ih hrest _).trans hfield

/-- No key is repeated in a record that is written. -/
theorem nodup_keys_writeFields {record : Object} (h : (Dict.keys record).Nodup)
    (plans : List FieldPlan) (object : Object) :
    (Dict.keys (normalizer.writeFields plans object record).1).Nodup := by
  induction plans generalizing record with
  | nil => exact h
  | cons plan plans ih =>
    have hfield : (Dict.keys (normalizer.writeField plan object record).1).Nodup := by
      cases hsource : normalizer.source? plan.field object with
      | none =>
        rw [writeField_of_source_none hsource]
        exact h
      | some value =>
        rw [writeField_of_source hsource]
        exact Dict.nodup_keys_insert h _ _
    exact ih hfield

theorem nodup_keys_writeObject (fields : List FieldPlan) (object : Object) :
    (Dict.keys (normalizer.writeObject fields object).1).Nodup := by
  refine nodup_keys_writeFields ?_ fields object
  rw [startRecord]
  split
  · exact List.nodup_singleton _
  · exact .nil

end Normalizer

/-! ### Stored values -/

namespace Snapshot

variable (snapshot : Snapshot)

/-- A stored value is a reference to a record, or the record itself. -/
def Opens (stored : Json) (record : Object) : Prop :=
  (∃ key, stored = Json.reference key ∧ Dict.get? snapshot key = some record) ∨
    (stored = .object record ∧ stored.reference? = none)

mutual

/-- A stored value leads to a value: it opens to a record where the value is an object, and is the
same elsewhere. The relation tells how records lead to objects. -/
def Reads (leads : Object → Object → Prop) : Json → Json → Prop
  | stored, .array items => ∃ list, stored = .array list ∧ ReadsItems leads list items
  | stored, .object object =>
    ∃ record, snapshot.Opens stored record ∧ typename? record = typename? object ∧
      leads record object
  | stored, value => stored = value

/-- The stored items lead to the items of a list, one by one. -/
def ReadsItems (leads : Object → Object → Prop) : List Json → List Json → Prop
  | list, [] => list = []
  | list, item :: items =>
    ∃ stored others, list = stored :: others ∧ Reads leads stored item ∧
      ReadsItems leads others items

end

end Snapshot

namespace FieldPlan

variable (snapshot : Snapshot) (vars : Object)

mutual

/-- What is stored for a field leads to its value. -/
def StoredAs : FieldPlan → Json → Json → Prop
  | .leaf _, stored, value => stored = value
  | .nested _ _ fields, stored, value => snapshot.Reads (listStoredAs fields) stored value

/-- In a record the selected ones of the listed fields are stored under their storage names. -/
def listStoredAs : List FieldPlan → Object → Object → Prop
  | [], _, _ => True
  | plan :: plans, record, object =>
    (plan.field.isSelected vars (typename? object) = true →
        ∃ stored value, Dict.get? record (plan.field.storageNameFor vars) = some stored ∧
          Dict.get? object plan.field.responseKey = some value ∧ StoredAs plan stored value) ∧
      listStoredAs plans record object

end

end FieldPlan

/-- What a field has to be for its value to be found again: it is remote, and neither stored as a
reference nor, unless it is the type, as a type. -/
structure PlannedField.Storable (vars : Object) (field : PlannedField) : Prop where
  /-- The field is remote. -/
  remote : field.isLocal = false
  /-- A field that is stored as the type has the type's response key. -/
  typename : field.storageNameFor vars = typenameField → field.responseKey = typenameField
  /-- The field is not stored like a reference. -/
  notReference : field.storageNameFor vars ≠ Json.referenceField

/-- An object with an identity has a type. -/
theorem exists_typename_of_identify? {policies : TypePolicies} {object : Object} {key : String}
    (h : identify? policies object = some key) : ∃ typename, typename? object = some typename := by
  unfold identify? at h
  cases htypename : typename? object with
  | none =>
    rw [htypename] at h
    cases h
  | some typename => exact ⟨typename, rfl⟩

/-- The key of an object with an identity has a colon in it. -/
theorem colon_mem_of_identify? {policies : TypePolicies} {object : Object} {key : String}
    (h : identify? policies object = some key) : ':' ∈ key.toList := by
  obtain ⟨typename, htypename⟩ := exists_typename_of_identify? h
  unfold identify? at h
  rw [htypename] at h
  simp only [Option.bind_eq_bind, Option.bind_some] at h
  split at h
  · obtain ⟨keys, _, hkey⟩ := Option.bind_eq_some_iff.1 h
    rw [← Option.some.inj hkey]
    simp
  · obtain ⟨id, _, hkey⟩ := Option.bind_eq_some_iff.1 h
    rw [← Option.some.inj hkey]
    simp

namespace Normalizer

variable {normalizer : Normalizer} {plan : QueryPlan} {snapshot : Snapshot}
  (hstorable : ∀ fieldPlan, plan.Has fieldPlan →
    fieldPlan.field.Storable normalizer.variableValues)

include hstorable

omit hstorable in
/-- Writing fields without changing one keeps what is in the record. -/
theorem listAdmits.extends {plans : List FieldPlan} {object record : Object}
    (h : normalizer.listAdmits plans object record) :
    Dict.Extends (normalizer.writeFields plans object record).1 record := by
  induction plans generalizing record with
  | nil => exact .refl record
  | cons fieldPlan plans ih =>
    have hfield : Dict.Extends (normalizer.writeField fieldPlan object record).1 record := by
      cases hsource : normalizer.source? fieldPlan.field object with
      | none =>
        rw [writeField_of_source_none hsource]
        exact .refl record
      | some value =>
        rw [writeField_of_source hsource]
        exact (h.1.written hsource).insert_extends
    exact (ih h.2).trans hfield

/-- The type of a record is that of the object that was written. -/
theorem get?_writeObject_typename {fields : List FieldPlan}
    (hfields : ∀ fieldPlan ∈ fields, plan.Has fieldPlan) {object : Object}
    (hadmits : normalizer.listAdmits fields object (startRecord object)) :
    Dict.get? (normalizer.writeObject fields object).1 typenameField
      = Dict.get? object typenameField := by
  cases htypename : Dict.get? object typenameField with
  | some typename =>
    refine hadmits.extends typenameField typename ?_
    simp [startRecord, htypename, Dict.get?_cons]
  | none =>
    have hother : ∀ fieldPlan ∈ fields, ∀ value,
        normalizer.source? fieldPlan.field object = some value →
          fieldPlan.field.storageNameFor normalizer.variableValues ≠ typenameField := by
      intro fieldPlan hmem value hsource hstorage
      have hkey := (hstorable fieldPlan (hfields fieldPlan hmem)).typename hstorage
      unfold source? at hsource
      split at hsource
      · cases hsource
      · rw [hkey, htypename] at hsource
        cases hsource
    refine (get?_writeFields hother (startRecord object)).trans ?_
    simp [startRecord, htypename]

/-- A record is never mistaken for a reference. -/
theorem reference?_writeObject {fields : List FieldPlan}
    (hfields : ∀ fieldPlan ∈ fields, plan.Has fieldPlan) (object : Object) :
    (Json.object (normalizer.writeObject fields object).1).reference? = none := by
  refine Json.reference?_of_get?_eq_none ?_
  have hother : ∀ fieldPlan ∈ fields, ∀ value,
      normalizer.source? fieldPlan.field object = some value →
        fieldPlan.field.storageNameFor normalizer.variableValues ≠ Json.referenceField :=
    fun fieldPlan hmem _ _ ↦ (hstorable fieldPlan (hfields fieldPlan hmem)).notReference
  refine (get?_writeFields hother (startRecord object)).trans ?_
  rw [startRecord]
  split
  · rw [Dict.get?_cons, if_neg (by decide), Dict.get?_nil]
  · rfl

section Values

variable {fields : List FieldPlan} (hfields : ∀ fieldPlan ∈ fields, plan.Has fieldPlan)
  (hobject : ∀ object, FieldPlan.listCovers normalizer.variableValues fields object →
    normalizer.listAdmits fields object (startRecord object) →
    (∀ assignment ∈ (normalizer.writeObject fields object).2, snapshot.Holds assignment) →
    ∀ record, Dict.Extends record (normalizer.writeObject fields object).1 →
      FieldPlan.listStoredAs snapshot normalizer.variableValues fields record object)

include hfields hobject

/-- An object that is written as a reference or embedded leads to itself. -/
theorem place_reads {object : Object}
    (hcovers : FieldPlan.listCovers normalizer.variableValues fields object)
    (hadmits : normalizer.listAdmits fields object (startRecord object))
    (hheld : ∀ assignment ∈ (normalizer.place (normalizer.writeObject fields object).1
      (normalizer.writeObject fields object).2).2, snapshot.Holds assignment) :
    snapshot.Reads (FieldPlan.listStoredAs snapshot normalizer.variableValues fields)
      (normalizer.place (normalizer.writeObject fields object).1
        (normalizer.writeObject fields object).2).1 (.object object) := by
  have htypename := get?_writeObject_typename hstorable hfields hadmits
  unfold place at hheld ⊢
  rw [Snapshot.Reads]
  cases hidentity : identify? normalizer.policies (normalizer.writeObject fields object).1 with
  | none =>
    rw [hidentity] at hheld
    refine ⟨_, .inr ⟨rfl, reference?_writeObject hstorable hfields object⟩, ?_,
      hobject object hcovers hadmits hheld _ (.refl _)⟩
    rw [typename?, typename?, htypename]
  | some key =>
    rw [hidentity] at hheld
    have hinner : ∀ assignment ∈ (normalizer.writeObject fields object).2,
        snapshot.Holds assignment :=
      fun assignment hmem ↦ hheld assignment (List.mem_append_left _ hmem)
    obtain ⟨record, hrecord, hextends⟩ :=
      hheld (key, (normalizer.writeObject fields object).1) (by simp)
    refine ⟨record, .inl ⟨key, rfl, hrecord⟩, ?_,
      hobject object hcovers hadmits hinner record hextends⟩
    obtain ⟨type, htype⟩ := exists_typename_of_identify? hidentity
    obtain ⟨stored, hstored, _⟩ := Option.bind_eq_some_iff.1 htype
    rw [typename?, typename?, hextends _ _ hstored, ← htypename, hstored]

-- Each theorem of the block needs the assumptions of the others.
set_option linter.unusedSectionVars false in
mutual

/-- What a value is written as leads to the value. -/
theorem writeValue_reads (value : Json)
    (hcovers : value.EveryObject (FieldPlan.listCovers normalizer.variableValues fields))
    (hadmits : value.EveryObject fun inner ↦
      normalizer.listAdmits fields inner (startRecord inner))
    (hheld : ∀ assignment ∈ (normalizer.writeValue (normalizer.writeObject fields) value).2,
      snapshot.Holds assignment) :
    snapshot.Reads (FieldPlan.listStoredAs snapshot normalizer.variableValues fields)
      (normalizer.writeValue (normalizer.writeObject fields) value).1 value := by
  cases value with
  | null => rfl
  | bool _ => rfl
  | number _ => rfl
  | string _ => rfl
  | array items =>
    exact ⟨_, rfl, writeItems_reads items hcovers hadmits hheld⟩
  | object object => exact place_reads hstorable hfields hobject hcovers hadmits hheld

theorem writeItems_reads (items : List Json)
    (hcovers : Json.EveryObjectIn (FieldPlan.listCovers normalizer.variableValues fields) items)
    (hadmits : Json.EveryObjectIn (fun inner ↦
      normalizer.listAdmits fields inner (startRecord inner)) items)
    (hheld : ∀ assignment ∈ (normalizer.writeItems (normalizer.writeObject fields) items).2,
      snapshot.Holds assignment) :
    snapshot.ReadsItems (FieldPlan.listStoredAs snapshot normalizer.variableValues fields)
      (normalizer.writeItems (normalizer.writeObject fields) items).1 items := by
  cases items with
  | nil => rfl
  | cons item rest =>
    refine ⟨_, _, rfl, ?_, ?_⟩
    · exact writeValue_reads item hcovers.1 hadmits.1 fun assignment hmem ↦
        hheld assignment (List.mem_append_left _ hmem)
    · exact writeItems_reads rest hcovers.2 hadmits.2 fun assignment hmem ↦
        hheld assignment (List.mem_append_right _ hmem)

end

end Values

mutual

/-- What a field is written as leads to its value. -/
theorem written_storedAs (fieldPlan : FieldPlan) (hhas : plan.Has fieldPlan)
    {object record : Object} {value : Json}
    (hcovers : fieldPlan.Covers normalizer.variableValues object)
    (hselected : fieldPlan.field.isSelected normalizer.variableValues (typename? object) = true)
    (hvalue : Dict.get? object fieldPlan.field.responseKey = some value)
    (hadmits : normalizer.Admits fieldPlan object record)
    (hheld : ∀ assignment ∈ (normalizer.written fieldPlan value).2, snapshot.Holds assignment) :
    fieldPlan.StoredAs snapshot normalizer.variableValues (normalizer.written fieldPlan value).1
      value := by
  cases fieldPlan with
  | leaf field => rfl
  | nested field id fields =>
    have hsource : normalizer.source? field object = some value :=
      (source?_of_selected (hstorable _ hhas).remote hselected).trans hvalue
    obtain ⟨value', hvalue', hinner⟩ := hcovers hselected
    obtain rfl : value' = value := Option.some.inj (hvalue'.symm.trans hvalue)
    refine writeValue_reads hstorable (fun _ hmem ↦ hhas.inner hmem) ?_ value' hinner
      ((admits_nested hsource).1 hadmits).2 hheld
    intro inner hcoversInner hadmitsInner hheldInner record hextends
    exact writeFields_storedAs fields (fun _ hmem ↦ hhas.inner hmem) hcoversInner hadmitsInner
      hheldInner hextends

/-- In a record that keeps what is written, the fields of an object lead to their values. -/
theorem writeFields_storedAs (plans : List FieldPlan)
    (hplans : ∀ fieldPlan ∈ plans, plan.Has fieldPlan) {object before record : Object}
    (hcovers : FieldPlan.listCovers normalizer.variableValues plans object)
    (hadmits : normalizer.listAdmits plans object before)
    (hheld : ∀ assignment ∈ (normalizer.writeFields plans object before).2,
      snapshot.Holds assignment)
    (hextends : Dict.Extends record (normalizer.writeFields plans object before).1) :
    FieldPlan.listStoredAs snapshot normalizer.variableValues plans record object := by
  cases plans with
  | nil => trivial
  | cons fieldPlan rest =>
    obtain ⟨hhas, hrest⟩ := List.forall_mem_cons.1 hplans
    have hfirst : ∀ assignment ∈ (normalizer.writeField fieldPlan object before).2,
        snapshot.Holds assignment :=
      fun assignment hmem ↦ hheld assignment (List.mem_append_left _ hmem)
    have hlater : ∀ assignment ∈ (normalizer.writeFields rest object
        (normalizer.writeField fieldPlan object before).1).2, snapshot.Holds assignment :=
      fun assignment hmem ↦ hheld assignment (List.mem_append_right _ hmem)
    refine ⟨fun hselected ↦ ?_, writeFields_storedAs rest hrest hcovers.2 hadmits.2 hlater hextends⟩
    obtain ⟨value, hvalue⟩ := hcovers.1.exists_value hselected
    have hsource : normalizer.source? fieldPlan.field object = some value :=
      (source?_of_selected (hstorable _ hhas).remote hselected).trans hvalue
    rw [writeField_of_source hsource] at hfirst
    have hstored : Dict.get? (normalizer.writeField fieldPlan object before).1
        (fieldPlan.field.storageNameFor normalizer.variableValues)
          = some (normalizer.written fieldPlan value).1 := by
      rw [writeField_of_source hsource, Dict.get?_insert_self]
    refine ⟨_, value, hextends _ _ (hadmits.2.extends _ _ hstored), hvalue, ?_⟩
    exact written_storedAs fieldPlan hhas hcovers.1 hselected hvalue hadmits.1 hfirst

end

end Normalizer

/-! ### The root record -/

namespace Normalizer

variable {normalizer : Normalizer}

/-- The assignments are made to entities, whose keys have colons in them. -/
def ToEntities (assignments : List Assignment) : Prop :=
  ∀ assignment ∈ assignments, ':' ∈ assignment.1.toList

/-- The assignment is made for an object with an identity. -/
def FromEntity (normalizer : Normalizer) (assignment : Assignment) : Prop :=
  ∃ fields object,
    identify? normalizer.policies (normalizer.writeObject fields object).1 = some assignment.1 ∧
      assignment.2 = (normalizer.writeObject fields object).1

/-- The records that are assigned repeat no key. -/
theorem FromEntity.nodup_keys {assignment : Assignment} (h : normalizer.FromEntity assignment) :
    (Dict.keys assignment.2).Nodup := by
  obtain ⟨fields, object, -, hrecord⟩ := h
  rw [hrecord]
  exact nodup_keys_writeObject fields object

section FromEntity

variable {fields : List FieldPlan} (h : ∀ object,
  ∀ assignment ∈ (normalizer.writeObject fields object).2, normalizer.FromEntity assignment)

include h

theorem place_fromEntity (object : Object) :
    ∀ assignment ∈ (normalizer.place (normalizer.writeObject fields object).1
      (normalizer.writeObject fields object).2).2, normalizer.FromEntity assignment := by
  rw [place]
  split
  · next key hidentity =>
    exact List.forall_mem_append.2
      ⟨h object, List.forall_mem_singleton.2 ⟨fields, object, hidentity, rfl⟩⟩
  · exact h object

-- Each theorem of the block needs the assumptions of the others.
set_option linter.unusedSectionVars false in
mutual

theorem writeValue_fromEntity (value : Json) :
    ∀ assignment ∈ (normalizer.writeValue (normalizer.writeObject fields) value).2,
      normalizer.FromEntity assignment := by
  cases value with
  | array items => exact writeItems_fromEntity items
  | object object => exact place_fromEntity h object
  | null => exact List.forall_mem_nil _
  | bool _ => exact List.forall_mem_nil _
  | number _ => exact List.forall_mem_nil _
  | string _ => exact List.forall_mem_nil _

theorem writeItems_fromEntity (items : List Json) :
    ∀ assignment ∈ (normalizer.writeItems (normalizer.writeObject fields) items).2,
      normalizer.FromEntity assignment := by
  cases items with
  | nil => exact List.forall_mem_nil _
  | cons item rest =>
    exact List.forall_mem_append.2 ⟨writeValue_fromEntity item, writeItems_fromEntity rest⟩

end

end FromEntity

mutual

theorem writeField_fromEntity (plan : FieldPlan) (object record : Object) :
    ∀ assignment ∈ (normalizer.writeField plan object record).2,
      normalizer.FromEntity assignment := by
  cases plan with
  | leaf field =>
    rw [writeField]
    split
    · exact List.forall_mem_nil _
    · exact List.forall_mem_nil _
  | nested field id fields =>
    rw [writeField]
    split
    · exact writeValue_fromEntity
        (fun inner ↦ writeFields_fromEntity fields inner (startRecord inner)) _
    · exact List.forall_mem_nil _

/-- All assignments for the objects inside an object are made for objects with an identity. -/
theorem writeFields_fromEntity (plans : List FieldPlan) (object record : Object) :
    ∀ assignment ∈ (normalizer.writeFields plans object record).2,
      normalizer.FromEntity assignment := by
  cases plans with
  | nil => exact List.forall_mem_nil _
  | cons plan plans =>
    exact List.forall_mem_append.2
      ⟨writeField_fromEntity plan object record, writeFields_fromEntity plans object _⟩

end

theorem writeFields_toEntities (plans : List FieldPlan) (object record : Object) :
    ToEntities (normalizer.writeFields plans object record).2 := by
  intro assignment hmem
  obtain ⟨_, _, hidentity, -⟩ := writeFields_fromEntity plans object record assignment hmem
  exact colon_mem_of_identify? hidentity

/-- The root record is not an entity. -/
theorem rootKey_not_entity (plan : QueryPlan) : ':' ∉ plan.rootKey.toList := by
  rw [QueryPlan.rootKey]
  cases plan.kind <;> decide

/-- The root record holds what is written of the data, and nothing else. -/
theorem get?_rootKey (plan : QueryPlan) (data : Object) :
    Dict.get? (Snapshot.assignAll [] (normalize normalizer plan data)) plan.rootKey
      = some (normalizer.writeObject plan.selection.fields data).1 := by
  have hothers : ∀ assignment ∈ (normalizer.writeObject plan.selection.fields data).2,
      assignment.1 ≠ plan.rootKey := by
    intro assignment hmem heq
    refine rootKey_not_entity plan ?_
    rw [← heq]
    exact writeFields_toEntities _ _ _ assignment hmem
  have hbefore : Dict.get? (Snapshot.assignAll []
      (normalizer.writeObject plan.selection.fields data).2) plan.rootKey = none :=
    Snapshot.get?_assignAll_of_forall_ne [] hothers
  have hlast : Snapshot.assignAll [] (normalize normalizer plan data)
      = (Snapshot.assignAll [] (normalizer.writeObject plan.selection.fields data).2).assign
          (plan.rootKey, (normalizer.writeObject plan.selection.fields data).1) :=
    List.foldl_append
  rw [hlast, Snapshot.assign, Dict.get?_insert_self, hbefore, Option.getD_none,
    Dict.merge_nil_left (nodup_keys_writeObject _ _)]

/-- The selected fields of a response lead to their values when they are read from the root record
of a cache to which the response was written. -/
theorem normalize_storedAs {plan : QueryPlan} {data : Object}
    (hstorable : ∀ fieldPlan, plan.Has fieldPlan →
      fieldPlan.field.Storable normalizer.variableValues)
    (hcovers : FieldPlan.listCovers normalizer.variableValues plan.selection.fields data)
    (hconsistent : normalizer.Consistent plan data) :
    ∃ root, Dict.get? (Snapshot.assignAll [] (normalize normalizer plan data)) plan.rootKey
        = some root ∧
      typename? root = typename? data ∧
      FieldPlan.listStoredAs (Snapshot.assignAll [] (normalize normalizer plan data))
        normalizer.variableValues plan.selection.fields root data := by
  have hroot : ∀ fieldPlan ∈ plan.selection.fields, plan.Has fieldPlan :=
    fun _ hmem ↦ QueryPlan.has_root hmem
  have hheld := (Snapshot.holds_assignAll hconsistent.2).1
  have hinner : ∀ assignment ∈ (normalizer.writeObject plan.selection.fields data).2,
      (Snapshot.assignAll [] (normalize normalizer plan data)).Holds assignment :=
    fun assignment hmem ↦ hheld assignment (List.mem_append_left _ hmem)
  refine ⟨_, get?_rootKey plan data, ?_, writeFields_storedAs hstorable plan.selection.fields hroot
    hcovers hconsistent.1 hinner (.refl _)⟩
  rw [typename?, typename?, get?_writeObject_typename hstorable hroot hconsistent.1]

end Normalizer

end GraphCache
