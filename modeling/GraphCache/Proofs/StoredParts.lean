import GraphCache.Proofs.ReadBack
import GraphCache.Proofs.Sameness
import GraphCache.Proofs.SharedNames

/-!
# References in stored records

Everything that is found in a record came from a response: as a value that was kept as it is, as a
reference that was made for an object with an identity, or as a record that was embedded. So a store
that is filled by responses, none of which holds a reference itself, refers only to its own records.

A value refers openly if a reference in it can be reached through lists. An embedded object with an
entity inside does not.

## Main definitions

* `Json.PartOf`, `Json.Everywhere`: the values that are found in a value, at any depth.
* `Json.HoldsNoReference`, `Json.RefersOpenly`: where references are found in a value.
* `Snapshot.Linked`: references lead to known keys, and values under some names refer openly.
* `Normalizer.EmbedsPlainly`: under some names no object is embedded with an entity inside.
* `ServerResponse`, `Store.ingestAll`: a sequence of responses that are written to a store.

## Main results

* `Normalizer.writeFields_linked`: what the write pass makes of an object is linked.
* `Store.linked_ingestAll`: a store that is filled by responses is linked to its own keys.
-/

namespace GraphCache

namespace Json

/-- A value is found in another one at some depth, or is that value. -/
inductive PartOf : Json → Json → Prop
  | refl (value : Json) : PartOf value value
  | item {part item : Json} {items : List Json} (hmem : item ∈ items) (h : PartOf part item) :
    PartOf part (.array items)
  | field {part value : Json} {name : String} {fields : Object} (hmem : (name, value) ∈ fields)
    (h : PartOf part value) : PartOf part (.object fields)

/-- All parts of a value have a property. -/
def Everywhere (p : Json → Prop) (value : Json) : Prop :=
  ∀ part, part.PartOf value → p part

/-- No part of the value is a reference. -/
def HoldsNoReference (value : Json) : Prop :=
  value.Everywhere fun part => part.reference? = none

/-- If there is a reference in the value, then one is found by looking through lists. -/
def RefersOpenly (value : Json) : Prop :=
  value.containsReference = false → value.HoldsNoReference

section Everywhere

variable {p : Json → Prop} {value : Json}

theorem Everywhere.self (h : value.Everywhere p) : p value :=
  h value (.refl value)

theorem everywhere_array_iff {items : List Json} :
    (array items).Everywhere p ↔ p (array items) ∧ ∀ item ∈ items, item.Everywhere p := by
  refine ⟨fun h ↦ ⟨h.self, fun item hmem part hpart ↦ h part (.item hmem hpart)⟩, ?_⟩
  rintro ⟨hself, hitems⟩ part (_ | ⟨hmem, hpart⟩)
  · exact hself
  · exact hitems _ hmem part hpart

theorem everywhere_object_iff {fields : Object} :
    (object fields).Everywhere p ↔
      p (object fields) ∧ ∀ entry ∈ fields, entry.2.Everywhere p := by
  refine ⟨fun h ↦ ⟨h.self, fun entry hmem part hpart ↦ h part (.field hmem hpart)⟩, ?_⟩
  rintro ⟨hself, hfields⟩ part (_ | _ | ⟨hmem, hpart⟩)
  · exact hself
  · exact hfields _ hmem part hpart

/-- A scalar has no other part. -/
theorem everywhere_of_scalar (harray : ∀ items, value ≠ array items)
    (hobject : ∀ fields, value ≠ object fields) (h : p value) : value.Everywhere p := by
  rintro part (_ | _ | _)
  · exact h
  · exact absurd rfl (harray _)
  · exact absurd rfl (hobject _)

end Everywhere

theorem FreeOfItems.of_mem {name : String} {items : List Json} (h : FreeOfItems name items) :
    ∀ item ∈ items, item.FreeOf name := by
  induction items with
  | nil => exact List.forall_mem_nil _
  | cons item items ih => exact List.forall_mem_cons.2 ⟨h.1, ih h.2⟩

theorem FreeOfFields.of_mem {name : String} {fields : Object} (h : FreeOfFields name fields) :
    ∀ entry ∈ fields, entry.2.FreeOf name := by
  induction fields with
  | nil => exact List.forall_mem_nil _
  | cons entry fields ih => exact List.forall_mem_cons.2 ⟨h.2.1, ih h.2.2⟩

theorem PartOf.freeOf {part value : Json} (hpart : part.PartOf value) {name : String}
    (h : value.FreeOf name) : part.FreeOf name := by
  induction hpart with
  | refl => exact h
  | item hmem _ ih => exact ih (FreeOfItems.of_mem h _ hmem)
  | field hmem _ ih => exact ih (FreeOfFields.of_mem h _ hmem)

/-- A value in which no object has the field of references holds no reference. -/
theorem holdsNoReference_of_freeOf {value : Json} (h : value.FreeOf referenceField) :
    value.HoldsNoReference := by
  intro part hpart
  have hfree := hpart.freeOf h
  cases part with
  | object fields => exact reference?_of_get?_eq_none (FreeOfFields.get?_eq_none hfree)
  | null | bool _ | number _ | string _ | array _ => rfl

/-- A part of a stored value is linked if it refers to a known key, in case that it is a reference,
and if what it holds under the names that are shown refers openly, in case that it is an object. -/
structure Linked (known shown : String → Prop) (part : Json) : Prop where
  /-- A reference refers to a known key. -/
  refers : ∀ key, part.reference? = some key → known key
  /-- What is shown refers openly. -/
  shows : ∀ fields, part = .object fields →
    ∀ entry ∈ fields, shown entry.1 → entry.2.RefersOpenly

variable {known shown : String → Prop}

theorem PartOf.trans {a b c : Json} (hab : a.PartOf b) (hbc : b.PartOf c) : a.PartOf c := by
  induction hbc with
  | refl => exact hab
  | item hmem _ ih => exact .item hmem ih
  | field hmem _ ih => exact .field hmem ih

/-- What holds everywhere in a value holds everywhere in its parts. -/
theorem Everywhere.of_partOf {p : Json → Prop} {part value : Json} (h : value.Everywhere p)
    (hpart : part.PartOf value) : part.Everywhere p :=
  fun inner hinner ↦ h inner (hinner.trans hpart)

/-- A value without references is linked to whatever there is. -/
theorem HoldsNoReference.linked {value : Json} (h : value.HoldsNoReference) :
    value.Everywhere (Linked known shown) := by
  intro part hpart
  refine ⟨fun key hkey ↦ ?_, ?_⟩
  · cases (h part hpart).symm.trans hkey
  · rintro fields rfl entry hentry - -
    exact h.of_partOf (.trans (.field hentry (.refl entry.2)) hpart)

theorem reference_linked {key : String} (h : known key) :
    (reference key).Everywhere (Linked known shown) := by
  refine everywhere_object_iff.2 ⟨⟨fun other hother ↦ ?_, ?_⟩, ?_⟩
  · have hkey : (reference key).reference? = some other := hother
    rw [reference?_reference] at hkey
    exact Option.some.inj hkey ▸ h
  · rintro fields heq entry hentry - -
    cases heq
    rw [List.mem_singleton.1 hentry]
    exact everywhere_of_scalar nofun nofun rfl
  · rintro entry hentry
    rw [List.mem_singleton.1 hentry]
    exact everywhere_of_scalar nofun nofun ⟨nofun, nofun⟩

/-- A value that is linked to nothing holds no reference. -/
theorem HoldsNoReference.of_linked {value : Json}
    (h : value.Everywhere (Linked (fun _ => False) shown)) : value.HoldsNoReference := by
  intro part hpart
  cases hkey : part.reference? with
  | none => rfl
  | some key => exact ((h part hpart).refers key hkey).elim

mutual

theorem EveryObject.of_forall {p : Object → Prop} (h : ∀ object, p object) (value : Json) :
    value.EveryObject p := by
  cases value with
  | array items => exact EveryObjectIn.of_forall h items
  | object fields => exact h fields
  | null | bool _ | number _ | string _ => trivial

theorem EveryObjectIn.of_forall {p : Object → Prop} (h : ∀ object, p object)
    (items : List Json) : EveryObjectIn p items := by
  cases items with
  | nil => trivial
  | cons item rest => exact ⟨EveryObject.of_forall h item, EveryObjectIn.of_forall h rest⟩

end

end Json

/-! ### Linked records -/

/-- A field of a record that is linked: it is not taken for a reference, and its value is linked and
refers openly if it is shown. -/
structure Entry.Linked (known shown : String → Prop) (entry : String × Json) : Prop where
  /-- The field has not the name that makes references. -/
  name : entry.1 ≠ Json.referenceField
  /-- The value is linked. -/
  value : entry.2.Everywhere (Json.Linked known shown)
  /-- If it is shown, the value refers openly. -/
  shows : shown entry.1 → entry.2.RefersOpenly

/-- All fields of a record are linked. -/
def Object.Linked (known shown : String → Prop) (record : Object) : Prop :=
  ∀ entry ∈ record, Entry.Linked known shown entry

namespace Object.Linked

variable {known shown : String → Prop} {record : Object}

/-- A linked record is linked as a value: without the field of references it is no reference. -/
theorem everywhere (h : Object.Linked known shown record) :
    (Json.object record).Everywhere (Json.Linked known shown) := by
  refine Json.everywhere_object_iff.2 ⟨⟨fun key hkey ↦ ?_, ?_⟩, fun entry hentry ↦
    (h entry hentry).value⟩
  · have hrecord : record = [(Json.referenceField, .string key)] :=
      Json.object.inj (Json.reference?_eq_some_iff.1 hkey)
    exact absurd rfl (h (Json.referenceField, .string key) (by simp [hrecord])).name
  · rintro fields heq entry hentry hshown
    cases heq
    exact (h entry hentry).shows hshown

theorem insert (h : Object.Linked known shown record) {key : String} {value : Json}
    (hentry : Entry.Linked known shown (key, value)) :
    Object.Linked known shown (Dict.insert record key value) := by
  intro entry hmem
  rcases Dict.eq_or_mem_of_mem_insert hmem with rfl | hmem
  · exact hentry
  · exact h entry hmem

theorem merge {later : Object} (h : Object.Linked known shown record)
    (hlater : Object.Linked known shown later) :
    Object.Linked known shown (Dict.merge record later) := by
  induction later generalizing record with
  | nil => exact h
  | cons entry later ih =>
    obtain ⟨hentry, hrest⟩ := List.forall_mem_cons.1 hlater
    exact ih (h.insert hentry) hrest

end Object.Linked

namespace Snapshot

/-- There is a record with the key. -/
def HasKey (snapshot : Snapshot) (key : String) : Prop :=
  (Dict.get? snapshot key).isSome

instance (snapshot : Snapshot) (key : String) : Decidable (snapshot.HasKey key) :=
  inferInstanceAs (Decidable ((Dict.get? snapshot key).isSome = true))

/-- All records are linked. -/
def Linked (known shown : String → Prop) (snapshot : Snapshot) : Prop :=
  ∀ keyed ∈ snapshot, Object.Linked known shown keyed.2

variable {known shown : String → Prop} {snapshot : Snapshot}

theorem Linked.of_get? (h : snapshot.Linked known shown) {key : String} {record : Object}
    (hrecord : Dict.get? snapshot key = some record) : Object.Linked known shown record :=
  h _ (Dict.mem_of_get? hrecord)

/-- Linked fields that are set in a record keep the records linked. -/
theorem Linked.assign (h : snapshot.Linked known shown) {assignment : Assignment}
    (hassigned : Object.Linked known shown assignment.2) :
    (snapshot.assign assignment).Linked known shown := by
  intro keyed hmem
  rcases Dict.eq_or_mem_of_mem_insert hmem with rfl | hmem
  · refine Object.Linked.merge ?_ hassigned
    cases hrecord : Dict.get? snapshot assignment.1 with
    | none => exact List.forall_mem_nil _
    | some record => exact h.of_get? hrecord
  · exact h keyed hmem

theorem Linked.assignAll (h : snapshot.Linked known shown) {assignments : List Assignment}
    (hassigned : ∀ assignment ∈ assignments, Object.Linked known shown assignment.2) :
    (snapshot.assignAll assignments).Linked known shown := by
  induction assignments generalizing snapshot with
  | nil => exact h
  | cons assignment assignments ih =>
    obtain ⟨hfirst, hrest⟩ := List.forall_mem_cons.1 hassigned
    exact ih (h.assign hfirst) hrest

/-- There is a record with a key after assignments if one was assigned to, or was there before. -/
theorem hasKey_assignAll {assignments : List Assignment} {key : String} :
    (snapshot.assignAll assignments).HasKey key ↔
      key ∈ Dict.keys assignments ∨ snapshot.HasKey key := by
  induction assignments generalizing snapshot with
  | nil => simp [assignAll, Dict.keys]
  | cons assignment assignments ih =>
    have hassign : (snapshot.assign assignment).HasKey key ↔
        key = assignment.1 ∨ snapshot.HasKey key := by
      rw [HasKey, HasKey, assign, Dict.get?_insert]
      split
      · next hkey => simp [hkey]
      · next hkey => simp [Ne.symm hkey]
    have hstep : snapshot.assignAll (assignment :: assignments)
        = (snapshot.assign assignment).assignAll assignments := rfl
    have hkeys : key ∈ Dict.keys (assignment :: assignments) ↔
        key = assignment.1 ∨ key ∈ Dict.keys assignments := List.mem_cons
    rw [hstep, ih, hassign, hkeys, or_left_comm, or_assoc]

end Snapshot

/-! ### The write pass -/

namespace Normalizer

variable (normalizer : Normalizer)

/-- An object that is embedded when it is written has no entity inside. -/
def EmbedsNoEntity (fields : List FieldPlan) (object : Object) : Prop :=
  identify? normalizer.policies (normalizer.writeObject fields object).1 = none →
    (normalizer.writeObject fields object).2 = []

mutual

/-- Under a name that is shown no object is embedded with an entity inside, at a field or below. -/
def EmbedsPlainly (shown : String → Prop) : FieldPlan → Object → Prop
  | .leaf _, _ => True
  | .nested field _ fields, object => ∀ value, normalizer.source? field object = some value →
    value.EveryObject fun inner =>
      (shown (field.storageNameFor normalizer.variableValues) →
          normalizer.EmbedsNoEntity fields inner) ∧
        listEmbedsPlainly shown fields inner

/-- Under a name that is shown no object is embedded with an entity inside, at the listed fields or
below. -/
def listEmbedsPlainly (shown : String → Prop) : List FieldPlan → Object → Prop
  | [], _ => True
  | plan :: plans, object => EmbedsPlainly shown plan object ∧ listEmbedsPlainly shown plans object

end

/-- What is written and all that is assigned on the way is linked. -/
def Links (known shown : String → Prop) (written : Json × List Assignment) : Prop :=
  written.1.Everywhere (Json.Linked known shown) ∧
    ∀ assignment ∈ written.2, Object.Linked known shown assignment.2

variable {normalizer} {known shown : String → Prop}

mutual

/-- Where nothing is shown, nothing has to be embedded plainly. -/
theorem embedsPlainly_of_nothing (plan : FieldPlan) (object : Object) :
    normalizer.EmbedsPlainly (fun _ => False) plan object := by
  cases plan with
  | leaf field => trivial
  | nested field id fields =>
    intro value _
    exact Json.EveryObject.of_forall
      (fun inner ↦ ⟨False.elim, listEmbedsPlainly_of_nothing fields inner⟩) value

theorem listEmbedsPlainly_of_nothing (plans : List FieldPlan) (object : Object) :
    normalizer.listEmbedsPlainly (fun _ => False) plans object := by
  cases plans with
  | nil => trivial
  | cons plan plans =>
    exact ⟨embedsPlainly_of_nothing plan object, listEmbedsPlainly_of_nothing plans object⟩

end

/-- A record is replaced by a reference to its key, or embedded. -/
theorem place_links {record : Object} {assignments : List Assignment}
    (hrecord : Object.Linked known shown record)
    (hassigned : ∀ assignment ∈ assignments, Object.Linked known shown assignment.2)
    (hknown : ∀ assignment ∈ (normalizer.place record assignments).2, known assignment.1) :
    Links known shown (normalizer.place record assignments) := by
  rw [place] at hknown ⊢
  split at hknown
  · next key _ =>
    have hkey : known key := hknown (key, record) (by simp)
    refine ⟨Json.reference_linked hkey, List.forall_mem_append.2 ⟨hassigned, ?_⟩⟩
    exact List.forall_mem_singleton.2 hrecord
  · exact ⟨hrecord.everywhere, hassigned⟩

theorem subset_place (record : Object) (assignments : List Assignment) :
    assignments ⊆ (normalizer.place record assignments).2 := by
  rw [place]
  split
  · exact List.subset_append_left _ _
  · exact List.Subset.refl _

section Values

variable {fields : List FieldPlan}
  (hobject : ∀ object, (Json.object object).HoldsNoReference →
    normalizer.listEmbedsPlainly shown fields object →
    (∀ assignment ∈ (normalizer.writeObject fields object).2, known assignment.1) →
    Object.Linked known shown (normalizer.writeObject fields object).1 ∧
      ∀ assignment ∈ (normalizer.writeObject fields object).2,
        Object.Linked known shown assignment.2)

include hobject

-- Each theorem of the block needs the assumptions of the others.
set_option linter.unusedSectionVars false in
mutual

theorem writeValue_links (value : Json) (hfree : value.HoldsNoReference)
    (hplain : value.EveryObject (normalizer.listEmbedsPlainly shown fields))
    (hknown : ∀ assignment ∈ (normalizer.writeValue (normalizer.writeObject fields) value).2,
      known assignment.1) :
    Links known shown (normalizer.writeValue (normalizer.writeObject fields) value) := by
  cases value with
  | array items =>
    have hitems := writeItems_links items (Json.everywhere_array_iff.1 hfree).2 hplain hknown
    exact ⟨Json.everywhere_array_iff.2 ⟨⟨nofun, nofun⟩, hitems.1⟩, hitems.2⟩
  | object object =>
    have hinner : ∀ assignment ∈ (normalizer.writeObject fields object).2, known assignment.1 :=
      fun assignment hmem ↦ hknown assignment (subset_place _ _ hmem)
    obtain ⟨hrecord, hassigned⟩ := hobject object hfree hplain hinner
    exact place_links hrecord hassigned hknown
  | null | bool _ | number _ | string _ => exact ⟨hfree.linked, List.forall_mem_nil _⟩

theorem writeItems_links (items : List Json) (hfree : ∀ item ∈ items, item.HoldsNoReference)
    (hplain : Json.EveryObjectIn (normalizer.listEmbedsPlainly shown fields) items)
    (hknown : ∀ assignment ∈ (normalizer.writeItems (normalizer.writeObject fields) items).2,
      known assignment.1) :
    (∀ written ∈ (normalizer.writeItems (normalizer.writeObject fields) items).1,
        written.Everywhere (Json.Linked known shown)) ∧
      ∀ assignment ∈ (normalizer.writeItems (normalizer.writeObject fields) items).2,
        Object.Linked known shown assignment.2 := by
  cases items with
  | nil => exact ⟨List.forall_mem_nil _, List.forall_mem_nil _⟩
  | cons item rest =>
    obtain ⟨hitem, hrest⟩ := List.forall_mem_cons.1 hfree
    have hfirst := writeValue_links item hitem hplain.1 fun assignment hmem ↦
      hknown assignment (List.mem_append_left _ hmem)
    have hothers := writeItems_links rest hrest hplain.2 fun assignment hmem ↦
      hknown assignment (List.mem_append_right _ hmem)
    exact ⟨List.forall_mem_cons.2 ⟨hfirst.1, hothers.1⟩,
      List.forall_mem_append.2 ⟨hfirst.2, hothers.2⟩⟩

end

end Values

section Openly

variable {fields : List FieldPlan}
  (hobject : ∀ object, (Json.object object).HoldsNoReference →
    (normalizer.writeObject fields object).2 = [] →
      (Json.object (normalizer.writeObject fields object).1).HoldsNoReference)

include hobject

-- Each theorem of the block needs the assumptions of the others.
set_option linter.unusedSectionVars false in
mutual

/-- If no object in a value is embedded with an entity inside, then what the value is written as
refers openly. -/
theorem writeValue_refersOpenly (value : Json) (hfree : value.HoldsNoReference)
    (hembeds : value.EveryObject (normalizer.EmbedsNoEntity fields)) :
    (normalizer.writeValue (normalizer.writeObject fields) value).1.RefersOpenly := by
  cases value with
  | array items =>
    intro hcontains
    refine Json.everywhere_array_iff.2 ⟨rfl, ?_⟩
    exact writeItems_refersOpenly items (Json.everywhere_array_iff.1 hfree).2 hembeds hcontains
  | object object =>
    intro hcontains
    have hplain : normalizer.EmbedsNoEntity fields object := hembeds
    rw [writeValue] at hcontains ⊢
    cases hidentity : identify? normalizer.policies (normalizer.writeObject fields object).1 with
    | none =>
      simp only [place, hidentity]
      exact hobject object hfree (hplain hidentity)
    | some key => simp [place, hidentity, Json.reference, Json.containsReference, Json.reference?]
        at hcontains
  | null | bool _ | number _ | string _ => exact fun _ ↦ hfree

theorem writeItems_refersOpenly (items : List Json) (hfree : ∀ item ∈ items, item.HoldsNoReference)
    (hembeds : Json.EveryObjectIn (normalizer.EmbedsNoEntity fields) items)
    (hcontains : Json.anyContainsReference
      (normalizer.writeItems (normalizer.writeObject fields) items).1 = false) :
    ∀ written ∈ (normalizer.writeItems (normalizer.writeObject fields) items).1,
      written.HoldsNoReference := by
  cases items with
  | nil => exact List.forall_mem_nil _
  | cons item rest =>
    obtain ⟨hitem, hrest⟩ := List.forall_mem_cons.1 hfree
    rw [writeItems, Json.anyContainsReference, Bool.or_eq_false_iff] at hcontains
    exact List.forall_mem_cons.2 ⟨writeValue_refersOpenly item hitem hembeds.1 hcontains.1,
      writeItems_refersOpenly rest hrest hembeds.2 hcontains.2⟩

end

end Openly

/-- A field that is written is remote. -/
theorem remote_of_source? {field : PlannedField} {object : Object} {value : Json}
    (h : normalizer.source? field object = some value) : field.isLocal = false := by
  rw [source?] at h
  split at h
  · cases h
  · next hwritten => simp_all

/-- The record with which an object starts has at most its type. -/
theorem startRecord_linked {object : Object} (hfree : (Json.object object).HoldsNoReference) :
    Object.Linked known shown (startRecord object) := by
  rw [startRecord]
  split
  · next typename htypename =>
    have hvalue : typename.HoldsNoReference :=
      (Json.everywhere_object_iff.1 hfree).2 _ (Dict.mem_of_get? htypename)
    have hname : typenameField ≠ Json.referenceField := by decide
    exact List.forall_mem_singleton.2 ⟨hname, hvalue.linked, fun _ _ ↦ hvalue⟩
  · exact List.forall_mem_nil _

section Names

variable {plan : QueryPlan}
  (hnames : ∀ fieldPlan, plan.Has fieldPlan → fieldPlan.field.isLocal = false →
    fieldPlan.field.storageNameFor normalizer.variableValues ≠ Json.referenceField)

include hnames

-- Each theorem of the block needs the assumptions of the others.
set_option linter.unusedSectionVars false in
mutual

/-- What a field is written as is linked. -/
theorem written_linked (fieldPlan : FieldPlan) (hhas : plan.Has fieldPlan)
    (known shown : String → Prop) {object : Object} {value : Json}
    (hsource : normalizer.source? fieldPlan.field object = some value)
    (hfree : value.HoldsNoReference) (hplain : normalizer.EmbedsPlainly shown fieldPlan object)
    (hknown : ∀ assignment ∈ (normalizer.written fieldPlan value).2, known assignment.1) :
    Links known shown (normalizer.written fieldPlan value) ∧
      (shown (fieldPlan.field.storageNameFor normalizer.variableValues) →
        (normalizer.written fieldPlan value).1.RefersOpenly) := by
  cases fieldPlan with
  | leaf field => exact ⟨⟨hfree.linked, List.forall_mem_nil _⟩, fun _ _ ↦ hfree⟩
  | nested field id fields =>
    have hbelow := hplain value hsource
    have hinner : ∀ inner ∈ fields, plan.Has inner := fun _ hmem ↦ hhas.inner hmem
    constructor
    · refine writeValue_links (fun inner hinnerFree hinnerPlain hinnerKnown ↦ ?_) value hfree
        (hbelow.mono fun _ h ↦ h.2) hknown
      exact writeFields_linked fields hinner known shown hinnerFree hinnerPlain
        (startRecord_linked hinnerFree) hinnerKnown
    · -- an object without assignments inside is linked to nothing
      intro hshown
      refine writeValue_refersOpenly (fun inner hinnerFree hnone ↦ ?_) value hfree
        (hbelow.mono fun _ h ↦ h.1 hshown)
      have hlinked := writeFields_linked fields hinner (fun _ ↦ False) (fun _ ↦ False) hinnerFree
        (listEmbedsPlainly_of_nothing fields inner) (startRecord_linked hinnerFree) (by
          rw [← writeObject, hnone]
          exact List.forall_mem_nil _)
      exact .of_linked hlinked.1.everywhere

/-- The record of an object is linked, and so is all that is assigned for the objects inside it. -/
theorem writeFields_linked (plans : List FieldPlan)
    (hplans : ∀ fieldPlan ∈ plans, plan.Has fieldPlan) (known shown : String → Prop)
    {object record : Object} (hfree : (Json.object object).HoldsNoReference)
    (hplain : normalizer.listEmbedsPlainly shown plans object)
    (hrecord : Object.Linked known shown record)
    (hknown : ∀ assignment ∈ (normalizer.writeFields plans object record).2,
      known assignment.1) :
    Object.Linked known shown (normalizer.writeFields plans object record).1 ∧
      ∀ assignment ∈ (normalizer.writeFields plans object record).2,
        Object.Linked known shown assignment.2 := by
  cases plans with
  | nil => exact ⟨hrecord, List.forall_mem_nil _⟩
  | cons fieldPlan rest =>
    obtain ⟨hhas, hrest⟩ := List.forall_mem_cons.1 hplans
    have hfirst : ∀ assignment ∈ (normalizer.writeField fieldPlan object record).2,
        known assignment.1 :=
      fun assignment hmem ↦ hknown assignment (List.mem_append_left _ hmem)
    have hfield : Object.Linked known shown (normalizer.writeField fieldPlan object record).1 ∧
        ∀ assignment ∈ (normalizer.writeField fieldPlan object record).2,
          Object.Linked known shown assignment.2 := by
      cases hsource : normalizer.source? fieldPlan.field object with
      | none =>
        rw [writeField_of_source_none hsource]
        exact ⟨hrecord, List.forall_mem_nil _⟩
      | some value =>
        rw [writeField_of_source hsource] at hfirst ⊢
        have hremote := remote_of_source? hsource
        have hvalueFree : value.HoldsNoReference :=
          (Json.everywhere_object_iff.1 hfree).2 _ (Dict.mem_of_get? (of_source? hsource).2)
        obtain ⟨⟨hwritten, hassigned⟩, hshows⟩ :=
          written_linked fieldPlan hhas known shown hsource hvalueFree hplain.1 hfirst
        exact ⟨hrecord.insert ⟨hnames fieldPlan hhas hremote, hwritten, hshows⟩, hassigned⟩
    have hothers := writeFields_linked rest hrest known shown hfree hplain.2 hfield.1
      fun assignment hmem ↦ hknown assignment (List.mem_append_right _ hmem)
    exact ⟨hothers.1, List.forall_mem_append.2 ⟨hfield.2, hothers.2⟩⟩

end

/-- All assignments of a response are linked to the keys to which they are made. -/
theorem normalize_linked {data : Object} (hfree : (Json.object data).HoldsNoReference)
    (hplain : normalizer.listEmbedsPlainly shown plan.selection.fields data)
    (hknown : ∀ assignment ∈ normalize normalizer plan data, known assignment.1) :
    ∀ assignment ∈ normalize normalizer plan data, Object.Linked known shown assignment.2 := by
  obtain ⟨hroot, hassigned⟩ := writeFields_linked hnames plan.selection.fields
    (fun _ hmem ↦ QueryPlan.has_root hmem) known shown hfree hplain (startRecord_linked hfree)
    fun assignment hmem ↦ hknown assignment (List.mem_append_left _ hmem)
  exact List.forall_mem_append.2 ⟨hassigned, List.forall_mem_singleton.2 hroot⟩

end Names

end Normalizer

/-! ### Stores that are filled by responses -/

/-- What a server sent for a plan and the variables of the request. -/
structure ServerResponse where
  /-- The plan of the request. -/
  plan : QueryPlan
  /-- The data. -/
  data : Json
  /-- The variables of the request. -/
  variableValues : Object := []

namespace ServerResponse

/-- What decides how the response is written. -/
def normalizer (response : ServerResponse) (policies : TypePolicies) : Normalizer :=
  ⟨policies, response.plan.variableValues response.variableValues⟩

/-- The assignments that are made for the response. Data that are no object are refused. -/
def assignments (response : ServerResponse) (policies : TypePolicies) : List Assignment :=
  match response.data with
  | .object fields => normalize (response.normalizer policies) response.plan fields
  | _ => []

/-- Nothing in the response is taken for a reference: the data hold none, and no field that is
written has the name that makes one. -/
structure RefersToNothing (response : ServerResponse) : Prop where
  /-- The plan was made by the planner. -/
  planned : response.plan.Planned
  /-- No field that is written has the name that makes references. -/
  names : ∀ fieldPlan, response.plan.Has fieldPlan → fieldPlan.field.isLocal = false →
    fieldPlan.field.name ≠ Json.referenceField
  /-- The data hold no reference. -/
  data : response.data.HoldsNoReference

/-- Under a name that is shown the response has no object that is embedded with an entity inside. -/
def EmbedsPlainly (response : ServerResponse) (policies : TypePolicies) (shown : String → Prop) :
    Prop :=
  ∀ fields, response.data = .object fields →
    (response.normalizer policies).listEmbedsPlainly shown response.plan.selection.fields fields

variable {response : ServerResponse} {policies : TypePolicies} {known shown : String → Prop}

theorem nodup_keys_assignments :
    ∀ assignment ∈ response.assignments policies, (Dict.keys assignment.2).Nodup := by
  rw [assignments]
  split
  · exact Normalizer.nodup_keys_normalize _ _
  · exact List.forall_mem_nil _

/-- All assignments of a response are linked to the keys to which they are made. -/
theorem RefersToNothing.assignments_linked (h : response.RefersToNothing)
    (hplain : response.EmbedsPlainly policies shown)
    (hknown : ∀ assignment ∈ response.assignments policies, known assignment.1) :
    ∀ assignment ∈ response.assignments policies, Object.Linked known shown assignment.2 := by
  have hnames : ∀ fieldPlan, response.plan.Has fieldPlan → fieldPlan.field.isLocal = false →
      fieldPlan.field.storageNameFor (response.normalizer policies).variableValues
        ≠ Json.referenceField := by
    intro fieldPlan hhas hremote hname
    rw [PlannedField.storageNameFor_of_collected (h.planned.isCollected hhas)] at hname
    exact h.names fieldPlan hhas hremote (name_eq_of_storageName hname (by decide))
  rw [assignments] at hknown ⊢
  split at hknown
  · next fields hdata =>
    exact Normalizer.normalize_linked hnames (hdata ▸ h.data) (hplain fields hdata) hknown
  · exact List.forall_mem_nil _

end ServerResponse

namespace Store

/-- Writes responses to the store, one after the other. A response that is refused changes
nothing. -/
def ingestAll (store : Store) (responses : List ServerResponse) : Store :=
  responses.foldl (fun store response =>
    match store.ingest response.plan response.data response.variableValues with
    | .ok store => store
    | .error _ => store) store

theorem ingestAll_cons (store : Store) (response : ServerResponse)
    (responses : List ServerResponse) :
    store.ingestAll (response :: responses)
      = (store.merge (response.assignments store.policies)).ingestAll responses := by
  cases hdata : response.data with
  | object fields =>
    simp only [ingestAll, List.foldl_cons, ingest, hdata, ServerResponse.assignments,
      ServerResponse.normalizer]
  | _ =>
    simp only [ingestAll, List.foldl_cons, ingest, hdata, ServerResponse.assignments, merge,
      Snapshot.assignAll, List.foldl_nil]

/-- Writing responses makes all their assignments, in order. -/
theorem ingestAll_eq_merge (store : Store) (responses : List ServerResponse) :
    store.ingestAll responses
      = store.merge (responses.flatMap (·.assignments store.policies)) := by
  induction responses generalizing store with
  | nil => rfl
  | cons response responses ih =>
    rw [ingestAll_cons, ih, List.flatMap_cons]
    simp only [merge, Snapshot.assignAll, List.foldl_append]

/-- A store that was empty before the responses were written to it is linked to its own keys, if
nothing in the responses is taken for a reference. -/
theorem linked_ingestAll {policies : TypePolicies} {shown : String → Prop}
    {responses : List ServerResponse} {snapshot : Snapshot}
    (hsnapshot : (({ policies } : Store).ingestAll responses).snapshot = snapshot)
    (hnothing : ∀ response ∈ responses, response.RefersToNothing)
    (hplain : ∀ response ∈ responses, response.EmbedsPlainly policies shown) :
    snapshot.Linked snapshot.HasKey shown := by
  have hmerged : Snapshot.assignAll [] (responses.flatMap (·.assignments policies)) = snapshot := by
    rw [← hsnapshot, ingestAll_eq_merge]
    rfl
  -- every key to which an assignment was made has a record in the end
  have hknown : ∀ assignment ∈ responses.flatMap (·.assignments policies),
      snapshot.HasKey assignment.1 := by
    intro assignment hmem
    rw [← hmerged, Snapshot.hasKey_assignAll]
    exact .inl (List.mem_map_of_mem hmem)
  have hlinked : ∀ assignment ∈ responses.flatMap (·.assignments policies),
      Object.Linked snapshot.HasKey shown assignment.2 := by
    intro assignment hmem
    obtain ⟨response, hresponse, hassignment⟩ := List.mem_flatMap.1 hmem
    exact (hnothing response hresponse).assignments_linked (hplain response hresponse)
      (fun other hother ↦ hknown other (List.mem_flatMap.2 ⟨response, hresponse, hother⟩))
      assignment hassignment
  have hempty : Snapshot.Linked snapshot.HasKey shown [] :=
    List.forall_mem_nil _
  rw [← hmerged] at hlinked hempty ⊢
  exact hempty.assignAll hlinked

end Store

end GraphCache
