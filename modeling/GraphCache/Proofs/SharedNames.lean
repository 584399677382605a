import GraphCache.Proofs.Entries
import GraphCache.Proofs.ServedRecords

/-!
# Fields that share a storage name

Fields of one object that differ in their response keys only are written under one storage name, and
so are fields of one entity that is found in several places. The last one that is written stays. If
each of them is an embedded object with the fields that are selected under its own response key, the
fields that are selected under another one are gone.

Nothing is missing where this cannot happen: where a value that is written under a name again has
all that the earlier one has. A value without objects has it, and so has the same reference.

## Main definitions

* `Supplies`: a later object has all that is read from an earlier one.
* `Json.Supplies`: so have the objects in a later value.
* `Normalizer.Concordant`, `Normalizer.ConcordantBelow`: of the fields that share a storage name the
  later ones supply the earlier ones.
* `Assignment.Agrees`: so does a later assignment to the same record.
* `Normalizer.ConcordantResponse`: all of this holds of a whole response.

## Main results

* `FieldPlan.Serves.of_supplies`: a value that supplies another one serves what that one serves.
* `Snapshot.backs_assignAll`: concordant assignments are all backed by the records that they make.
* `Normalizer.writeObject_serves`: such a record serves the fields from which it was written.
* `Normalizer.normalize_serves`: the root record serves the plan of a response that was written.
-/

namespace GraphCache

/-! ### Values that supply others -/

namespace Json

mutual

/-- The objects in a value: the value itself, or those among the items of the list, at any depth of
lists. -/
def objects : Json → List Object
  | .array items => objectsIn items
  | .object fields => [fields]
  | _ => []

/-- The objects in the listed values. -/
def objectsIn : List Json → List Object
  | [] => []
  | item :: items => objects item ++ objectsIn items

end

mutual

theorem everyObject_iff {p : Object → Prop} (value : Json) :
    value.EveryObject p ↔ ∀ object ∈ value.objects, p object := by
  cases value with
  | array items => exact everyObjectIn_iff items
  | object fields => rw [EveryObject, objects, List.forall_mem_singleton]
  | null | bool _ | number _ | string _ => exact iff_of_true trivial (List.forall_mem_nil _)

theorem everyObjectIn_iff {p : Object → Prop} (items : List Json) :
    EveryObjectIn p items ↔ ∀ object ∈ objectsIn items, p object := by
  cases items with
  | nil => exact iff_of_true trivial (List.forall_mem_nil _)
  | cons item rest =>
    rw [EveryObjectIn, objectsIn, List.forall_mem_append, everyObject_iff item,
      everyObjectIn_iff rest]

end

end Json

/-- A later object has all that is read from an earlier one. They are the same, or none of them is a
reference, and the later one has the same type and a value under each name of the earlier one; every
object in this value supplies one that was there before. -/
inductive Supplies : (later earlier : Object) → Prop
  | same (object : Object) : Supplies object object
  | fields {later earlier : Object} (origin : String → Object → Object)
      (hlater : (Json.object later).reference? = none)
      (hearlier : (Json.object earlier).reference? = none)
      (htypename : typename? later = typename? earlier)
      (hpresent : ∀ name, (Dict.get? earlier name).isSome → (Dict.get? later name).isSome)
      (horigin : ∀ name before after, Dict.get? earlier name = some before →
        Dict.get? later name = some after → ∀ object ∈ after.objects,
          origin name object ∈ before.objects)
      (hsupplies : ∀ name before after, Dict.get? earlier name = some before →
        Dict.get? later name = some after → ∀ object ∈ after.objects,
          Supplies object (origin name object)) : Supplies later earlier

/-- An embedded object that keeps every field of an earlier one, with its value, supplies it. -/
theorem Supplies.of_extends {later earlier : Object} (h : Dict.Extends later earlier)
    (hlater : (Json.object later).reference? = none)
    (hearlier : (Json.object earlier).reference? = none)
    (htypename : typename? later = typename? earlier) : Supplies later earlier := by
  have hsame {name : String} {before after : Json} (hbefore : Dict.get? earlier name = some before)
      (hafter : Dict.get? later name = some after) : before = after :=
    Option.some.inj ((h name before hbefore).symm.trans hafter)
  refine .fields (fun _ object ↦ object) hlater hearlier htypename (fun name hname ↦ ?_) ?_ ?_
  · obtain ⟨before, hbefore⟩ := Option.isSome_iff_exists.1 hname
    exact Option.isSome_of_mem (h name before hbefore)
  · intro name before after hbefore hafter object hmem
    rwa [hsame hbefore hafter]
  · exact fun _ _ _ _ _ object _ ↦ .same object

theorem Supplies.trans {a b c : Object} (hcb : Supplies c b) (hba : Supplies b a) :
    Supplies c a := by
  induction hcb generalizing a with
  | same object => exact hba
  | @fields later middle origin hlater hmiddle htypename hpresent horigin hsupplies ih =>
    cases hba with
    | same => exact .fields origin hlater hmiddle htypename hpresent horigin hsupplies
    | fields first _ hearlier htypename' hpresent' horigin' hsupplies' =>
      -- Under a name of the earliest object the one in the middle has a value, too.
      have hmeets {name : String} {before : Json} (hbefore : Dict.get? a name = some before) :
          ∃ value, Dict.get? middle name = some value :=
        Option.isSome_iff_exists.1 (hpresent' name (Option.isSome_of_mem hbefore))
      refine .fields (fun name object ↦ first name (origin name object)) hlater hearlier
        (htypename.trans htypename') (fun name h ↦ hpresent name (hpresent' name h)) ?_ ?_
      · intro name before after hbefore hafter object hmem
        obtain ⟨value, hvalue⟩ := hmeets hbefore
        exact horigin' name before value hbefore hvalue _
          (horigin name value after hvalue hafter object hmem)
      · intro name before after hbefore hafter object hmem
        obtain ⟨value, hvalue⟩ := hmeets hbefore
        exact ih name value after hvalue hafter object hmem (hsupplies' name before value hbefore
          hvalue _ (horigin name value after hvalue hafter object hmem))

namespace Json

/-- Nothing gets lost if a later value takes the place of an earlier one: every object in it
supplies one that was there before. -/
def Supplies (later earlier : Json) : Prop :=
  ∀ object ∈ later.objects, ∃ before ∈ earlier.objects, GraphCache.Supplies object before

namespace Supplies

variable {a b c : Json}

theorem refl (a : Json) : a.Supplies a :=
  fun object hmem ↦ ⟨object, hmem, .same object⟩

theorem trans (hcb : c.Supplies b) (hba : b.Supplies a) : c.Supplies a := by
  intro object hmem
  obtain ⟨middle, hmiddle, hlater⟩ := hcb object hmem
  obtain ⟨before, hbefore, hearlier⟩ := hba middle hmiddle
  exact ⟨before, hbefore, hlater.trans hearlier⟩

/-- A value without objects supplies any other one. -/
theorem of_objects_eq_nil (h : b.objects = []) (a : Json) : b.Supplies a := by
  intro object hmem
  rw [h] at hmem
  cases hmem

end Supplies

end Json

namespace FieldPlan

variable {snapshot : Snapshot} {vars : Object}

/-- What is found where an earlier object is read serves the fields, so what is found where the
object is read that supplies it does, too. -/
theorem finds_of_supplies {later earlier : Object} (h : Supplies later earlier)
    {fields : List FieldPlan}
    (hearlier : snapshot.Finds (listServes snapshot vars fields) earlier) :
    snapshot.Finds (listServes snapshot vars fields) later := by
  induction h generalizing fields with
  | same object => exact hearlier
  | fields origin hlater hbefore htypename hpresent horigin _ ih =>
    rw [Snapshot.Finds, Snapshot.resolve_of_reference?_eq_none hbefore] at hearlier
    rw [Snapshot.Finds, Snapshot.resolve_of_reference?_eq_none hlater]
    rw [listServes_iff] at hearlier ⊢
    intro plan hmem hselected
    rw [htypename] at hselected
    obtain ⟨before, hget, hserves⟩ := hearlier plan hmem hselected
    obtain ⟨after, hafter⟩ :=
      Option.isSome_iff_exists.1 (hpresent _ (Option.isSome_of_mem hget))
    refine ⟨after, hafter, ?_⟩
    cases plan with
    | leaf field => trivial
    | nested field id inner =>
      refine (Json.everyObject_iff after).2 fun object hobject ↦ ?_
      exact ih _ before after hget hafter object hobject
        ((Json.everyObject_iff before).1 hserves _
          (horigin _ before after hget hafter object hobject))

/-- A value that supplies another one serves the fields that that one serves. -/
theorem Serves.of_supplies {plan : FieldPlan} {later earlier : Json}
    (hearlier : plan.Serves snapshot vars earlier) (h : later.Supplies earlier) :
    plan.Serves snapshot vars later := by
  cases plan with
  | leaf field => trivial
  | nested field id fields =>
    refine (Json.everyObject_iff later).2 fun object hobject ↦ ?_
    obtain ⟨before, hbefore, hsupplies⟩ := h object hobject
    exact finds_of_supplies hsupplies ((Json.everyObject_iff earlier).1 hearlier before hbefore)

end FieldPlan

/-! ### Records that are assigned several times -/

/-- A record stands for one that was written: it has the same type, and under every name a value
that supplies the written one. -/
structure StandsFor (record written : Object) : Prop where
  /-- The types are the same. -/
  typename : typename? record = typename? written
  /-- No field is gone, and what is there will do. -/
  stored : ∀ name value, Dict.get? written name = some value →
    ∃ stored, Dict.get? record name = some stored ∧ stored.Supplies value

theorem StandsFor.refl (record : Object) : StandsFor record record :=
  ⟨rfl, fun _ value h ↦ ⟨value, h, .refl value⟩⟩

namespace Assignment

/-- A later assignment, if it is to the same record, agrees with the earlier one: it gives the same
type, and of the fields that both set it sets values that supply the earlier ones. -/
def Agrees (earlier later : Assignment) : Prop :=
  earlier.1 = later.1 → typename? earlier.2 = typename? later.2 ∧
    ∀ name value other, Dict.get? earlier.2 name = some value →
      Dict.get? later.2 name = some other → other.Supplies value

/-- All assignments agree with the earlier ones. -/
def Concordant (assignments : List Assignment) : Prop :=
  assignments.Pairwise Agrees

end Assignment

namespace Snapshot

/-- There is a record that stands for what was assigned. -/
def Backs (snapshot : Snapshot) (assignment : Assignment) : Prop :=
  ∃ record, Dict.get? snapshot assignment.1 = some record ∧ StandsFor record assignment.2

/-- The records are those to which the assignments were made, and stand for what was assigned. -/
structure MadeBy (snapshot : Snapshot) (assignments : List Assignment) : Prop where
  /-- To every record something was assigned. -/
  origin : ∀ key record, Dict.get? snapshot key = some record →
    ∃ assignment ∈ assignments, assignment.1 = key
  /-- The records stand for what was assigned to them. -/
  backs : ∀ assignment ∈ assignments, snapshot.Backs assignment

/-- The type that a record has after an assignment is the one that the assignment gives. -/
theorem MadeBy.typename?_merge {snapshot : Snapshot} {assignments : List Assignment}
    (h : snapshot.MadeBy assignments) {assignment : Assignment}
    (hkeys : (Dict.keys assignment.2).Nodup)
    (hagrees : ∀ earlier ∈ assignments, Assignment.Agrees earlier assignment) :
    typename? (Dict.merge ((Dict.get? snapshot assignment.1).getD []) assignment.2)
      = typename? assignment.2 := by
  rw [typename?, typename?, Dict.get?_merge hkeys]
  cases htypename : Dict.get? assignment.2 typenameField with
  | some typename => rfl
  | none =>
    cases hbefore : Dict.get? snapshot assignment.1 with
    | none => rfl
    | some record =>
      -- The record has the type of an earlier assignment, which is the same.
      obtain ⟨earlier, hmem, hkey⟩ := h.origin _ record hbefore
      obtain ⟨found, hfound, hstands⟩ := h.backs earlier hmem
      obtain rfl : found = record := Option.some.inj (hfound.symm.trans (hkey ▸ hbefore))
      have hsame := hstands.typename.trans (hagrees earlier hmem hkey).1
      rwa [typename?, typename?, htypename] at hsame

theorem MadeBy.assign {snapshot : Snapshot} {assignments : List Assignment}
    (h : snapshot.MadeBy assignments) {assignment : Assignment}
    (hkeys : (Dict.keys assignment.2).Nodup)
    (hagrees : ∀ earlier ∈ assignments, Assignment.Agrees earlier assignment) :
    (snapshot.assign assignment).MadeBy (assignments ++ [assignment]) := by
  have htypename := h.typename?_merge hkeys hagrees
  constructor
  · intro key record hrecord
    rw [Snapshot.assign, Dict.get?_insert] at hrecord
    split at hrecord
    · next hkey => exact ⟨assignment, by simp, hkey⟩
    · obtain ⟨earlier, hmem, hkey⟩ := h.origin key record hrecord
      exact ⟨earlier, List.mem_append_left _ hmem, hkey⟩
  · intro earlier hmem
    rw [Backs, Snapshot.assign, Dict.get?_insert]
    rcases List.mem_append.1 hmem with hmem | hmem
    · obtain ⟨record, hrecord, hstands⟩ := h.backs earlier hmem
      split
      · next hkey =>
        obtain ⟨hsame, hsupplies⟩ := hagrees earlier hmem hkey.symm
        refine ⟨_, rfl, htypename.trans hsame.symm, fun name value hvalue ↦ ?_⟩
        obtain ⟨stored, hstored, hkept⟩ := hstands.stored name value hvalue
        rw [Dict.get?_merge hkeys, hkey, hrecord, Option.getD_some, hstored]
        cases hother : Dict.get? assignment.2 name with
        | none => exact ⟨stored, rfl, hkept⟩
        | some other => exact ⟨other, rfl, hsupplies name value other hvalue hother⟩
      · exact ⟨record, hrecord, hstands⟩
    · rw [List.mem_singleton.1 hmem, if_pos rfl]
      refine ⟨_, rfl, htypename, fun name value hvalue ↦ ⟨value, ?_, .refl value⟩⟩
      rw [Dict.get?_merge hkeys, hvalue, Option.some_or]

theorem MadeBy.assignAll {snapshot : Snapshot} {before assignments : List Assignment}
    (h : snapshot.MadeBy before)
    (hkeys : ∀ assignment ∈ assignments, (Dict.keys assignment.2).Nodup)
    (hconcordant : Assignment.Concordant (before ++ assignments)) :
    (snapshot.assignAll assignments).MadeBy (before ++ assignments) := by
  induction assignments generalizing snapshot before with
  | nil =>
    rw [List.append_nil]
    exact h
  | cons assignment assignments ih =>
    obtain ⟨hfirst, hrest⟩ := List.forall_mem_cons.1 hkeys
    have hagrees : ∀ earlier ∈ before, Assignment.Agrees earlier assignment :=
      fun earlier hmem ↦ (List.pairwise_append.1 hconcordant).2.2 earlier hmem assignment
        List.mem_cons_self
    rw [List.append_cons] at hconcordant ⊢
    exact ih (h.assign hfirst hagrees) hrest hconcordant

/-- Concordant assignments are all backed by the records that they make. -/
theorem backs_assignAll {assignments : List Assignment}
    (hkeys : ∀ assignment ∈ assignments, (Dict.keys assignment.2).Nodup)
    (h : Assignment.Concordant assignments) :
    ∀ assignment ∈ assignments, (Snapshot.assignAll [] assignments).Backs assignment := by
  have hnothing : MadeBy [] [] := ⟨nofun, nofun⟩
  exact (hnothing.assignAll hkeys h).backs

end Snapshot

/-! ### What is written under a name -/

namespace FieldPlan

theorem listCovers_iff {vars : Object} {plans : List FieldPlan} {object : Object} :
    listCovers vars plans object ↔ ∀ plan ∈ plans, plan.Covers vars object := by
  induction plans with
  | nil => simp [listCovers]
  | cons plan plans ih => simp [listCovers, ih]

end FieldPlan

namespace Normalizer

variable (normalizer : Normalizer)

/-- Of the selected fields of an object that share a storage name the later ones are written as
values that supply those of the earlier ones. -/
def Concordant (fields : List FieldPlan) (object : Object) : Prop :=
  fields.Pairwise fun earlier later => ∀ value other,
    normalizer.source? earlier.field object = some value →
      normalizer.source? later.field object = some other →
        earlier.field.storageNameFor normalizer.variableValues =
            later.field.storageNameFor normalizer.variableValues →
          (normalizer.written later other).1.Supplies (normalizer.written earlier value).1

mutual

/-- The fields of the objects below a field are concordant. -/
def ConcordantBelow : FieldPlan → Object → Prop
  | .leaf _, _ => True
  | .nested field _ fields, object => ∀ value, normalizer.source? field object = some value →
    value.EveryObject fun inner =>
      normalizer.Concordant fields inner ∧ listConcordantBelow fields inner

/-- The fields of the objects below the listed fields are concordant. -/
def listConcordantBelow : List FieldPlan → Object → Prop
  | [], _ => True
  | plan :: plans, object => ConcordantBelow plan object ∧ listConcordantBelow plans object

end

variable {normalizer}

theorem listConcordantBelow_iff {plans : List FieldPlan} {object : Object} :
    normalizer.listConcordantBelow plans object ↔
      ∀ plan ∈ plans, normalizer.ConcordantBelow plan object := by
  induction plans with
  | nil => simp [listConcordantBelow]
  | cons plan plans ih => simp [listConcordantBelow, ih]

/-- Fields with different storage names are concordant. -/
theorem concordant_of_nodup {fields : List FieldPlan}
    (h : (fields.map fun plan ↦
      plan.field.storageNameFor normalizer.variableValues).Nodup) (object : Object) :
    normalizer.Concordant fields object :=
  (List.pairwise_map.1 h).imp fun hne _ _ _ _ hname ↦ absurd hname hne

/-- A field that is written is selected, and has its value in the object. -/
theorem of_source? {field : PlannedField} {object : Object} {value : Json}
    (h : normalizer.source? field object = some value) :
    field.isSelected normalizer.variableValues (typename? object) = true ∧
      Dict.get? object field.responseKey = some value := by
  rw [source?] at h
  split at h
  · cases h
  · next hwritten => exact ⟨by simp_all, h⟩

/-- Under a name stands what one of the fields with this storage name was written as, or else what
was there before. -/
theorem get?_writeFields_cases (plans : List FieldPlan) (object record : Object) (name : String) :
    (∃ plan ∈ plans, ∃ value, normalizer.source? plan.field object = some value ∧
      plan.field.storageNameFor normalizer.variableValues = name ∧
        Dict.get? (normalizer.writeFields plans object record).1 name =
          some (normalizer.written plan value).1) ∨
    (∀ plan ∈ plans, ∀ value, normalizer.source? plan.field object = some value →
        plan.field.storageNameFor normalizer.variableValues ≠ name) ∧
      Dict.get? (normalizer.writeFields plans object record).1 name = Dict.get? record name := by
  induction plans generalizing record with
  | nil => exact .inr ⟨nofun, rfl⟩
  | cons first rest ih =>
    have hrest : (normalizer.writeFields (first :: rest) object record).1 =
        (normalizer.writeFields rest object (normalizer.writeField first object record).1).1 := rfl
    rw [hrest]
    -- later fields overwrite the first one, which is found only where none of them has the name
    rcases ih (normalizer.writeField first object record).1 with
      ⟨plan, hmem, hplan⟩ | ⟨hothers, hbefore⟩
    · exact .inl ⟨plan, List.mem_cons_of_mem _ hmem, hplan⟩
    · rw [hbefore]
      cases hsource : normalizer.source? first.field object with
      | none =>
        rw [writeField_of_source_none hsource]
        refine .inr ⟨List.forall_mem_cons.2 ⟨fun value hvalue ↦ ?_, hothers⟩, rfl⟩
        cases hsource.symm.trans hvalue
      | some value =>
        rw [writeField_of_source hsource, Dict.get?_insert]
        by_cases hname : first.field.storageNameFor normalizer.variableValues = name
        · rw [if_pos hname]
          exact .inl ⟨first, List.mem_cons_self, value, hsource, hname, rfl⟩
        · rw [if_neg hname]
          exact .inr ⟨List.forall_mem_cons.2 ⟨fun _ _ ↦ hname, hothers⟩, rfl⟩

/-- A field of a concordant object finds a value under its name that supplies its own one. -/
theorem Concordant.get?_writeFields {fields : List FieldPlan} {object : Object}
    (h : normalizer.Concordant fields object) {plan : FieldPlan} (hmem : plan ∈ fields)
    {value : Json} (hsource : normalizer.source? plan.field object = some value)
    (record : Object) :
    ∃ stored, Dict.get? (normalizer.writeFields fields object record).1
        (plan.field.storageNameFor normalizer.variableValues) = some stored ∧
      stored.Supplies (normalizer.written plan value).1 := by
  induction fields generalizing record with
  | nil => cases hmem
  | cons first rest ih =>
    obtain ⟨hfirst, hrest⟩ := List.pairwise_cons.1 h
    have hcons : (normalizer.writeFields (first :: rest) object record).1 =
        (normalizer.writeFields rest object (normalizer.writeField first object record).1).1 := rfl
    rw [hcons]
    rcases List.mem_cons.1 hmem with rfl | hmem
    · rcases get?_writeFields_cases rest object (normalizer.writeField plan object record).1
        (plan.field.storageNameFor normalizer.variableValues) with
          ⟨later, hlater, other, hother, hname, hstored⟩ | ⟨-, hstored⟩
      · exact ⟨_, hstored, hfirst later hlater value other hsource hother hname.symm⟩
      · refine ⟨_, ?_, .refl _⟩
        rw [hstored, writeField_of_source hsource, Dict.get?_insert_self]
    · exact ih hrest hmem _

/-- What a value is written as is a string only if the value is one, the same. -/
theorem string?_writeValue (write : Object → Object × List Assignment) (value : Json) :
    (normalizer.writeValue write value).1.string? = value.string? := by
  cases value with
  | object object =>
    rw [writeValue]
    dsimp only
    rw [place]
    split <;> rfl
  | _ => rfl

section Storable

variable {plan : QueryPlan} (hstorable : ∀ fieldPlan, plan.Has fieldPlan →
    fieldPlan.field.Storable normalizer.variableValues)

include hstorable

/-- A record has the type of the object from which it was written. -/
theorem typename?_writeObject {fields : List FieldPlan}
    (hfields : ∀ fieldPlan ∈ fields, plan.Has fieldPlan) (object : Object) :
    typename? (normalizer.writeObject fields object).1 = typename? object := by
  rw [typename?, typename?, writeObject]
  rcases get?_writeFields_cases fields object (startRecord object) typenameField with
    ⟨fieldPlan, hmem, value, hsource, hname, hstored⟩ | ⟨-, hstored⟩
  · have hkey := (hstorable fieldPlan (hfields fieldPlan hmem)).typename hname
    have hvalue : Dict.get? object typenameField = some value := hkey ▸ (of_source? hsource).2
    rw [hstored, hvalue, Option.bind_some, Option.bind_some]
    cases fieldPlan with
    | leaf field => rfl
    | nested field id inner => exact string?_writeValue _ value
  · rw [hstored, startRecord]
    split
    · next typename htypename => simp [htypename, Dict.get?_cons]
    · next htypename => simp [htypename]

variable {snapshot : Snapshot}

/-- Whatever a field of an object with all selected fields is written as serves the field, if the
records in the cache stand for those that are written with it. -/
def WritesServed (normalizer : Normalizer) (snapshot : Snapshot) (fieldPlan : FieldPlan) : Prop :=
  ∀ object value, fieldPlan.Covers normalizer.variableValues object →
    normalizer.ConcordantBelow fieldPlan object →
      normalizer.source? fieldPlan.field object = some value →
        (∀ assignment ∈ (normalizer.written fieldPlan value).2, snapshot.Backs assignment) →
          fieldPlan.Serves snapshot normalizer.variableValues (normalizer.written fieldPlan value).1

omit hstorable in
/-- What is assigned for a field is assigned for the object. -/
theorem mem_writeFields_of_written {plans : List FieldPlan} {fieldPlan : FieldPlan}
    (hmem : fieldPlan ∈ plans) {object : Object} {value : Json}
    (hsource : normalizer.source? fieldPlan.field object = some value) (record : Object)
    {assignment : Assignment} (h : assignment ∈ (normalizer.written fieldPlan value).2) :
    assignment ∈ (normalizer.writeFields plans object record).2 := by
  induction plans generalizing record with
  | nil => cases hmem
  | cons first rest ih =>
    rcases List.mem_cons.1 hmem with rfl | hmem
    · refine List.mem_append_left _ ?_
      rwa [writeField_of_source hsource]
    · exact List.mem_append_right _ (ih hmem _)

section Fields

variable {fields : List FieldPlan} (hfields : ∀ fieldPlan ∈ fields, plan.Has fieldPlan)
  (hwrites : ∀ fieldPlan ∈ fields, WritesServed normalizer snapshot fieldPlan)

include hfields hwrites

/-- A record that stands for what was written of an object serves the fields of the object. -/
theorem writeObject_serves {object record : Object}
    (hcovers : FieldPlan.listCovers normalizer.variableValues fields object)
    (hconcordant : normalizer.Concordant fields object)
    (hbelow : normalizer.listConcordantBelow fields object)
    (hbacks : ∀ assignment ∈ (normalizer.writeObject fields object).2, snapshot.Backs assignment)
    (hstands : StandsFor record (normalizer.writeObject fields object).1) :
    FieldPlan.listServes snapshot normalizer.variableValues fields record := by
  rw [FieldPlan.listServes_iff]
  intro fieldPlan hmem hselected
  rw [hstands.typename, typename?_writeObject hstorable hfields] at hselected
  have hcovered := FieldPlan.listCovers_iff.1 hcovers fieldPlan hmem
  obtain ⟨value, hvalue⟩ := hcovered.exists_value hselected
  have hsource : normalizer.source? fieldPlan.field object = some value :=
    (source?_of_selected (hstorable fieldPlan (hfields fieldPlan hmem)).remote hselected).trans
      hvalue
  obtain ⟨written, hwritten, hown⟩ := hconcordant.get?_writeFields hmem hsource (startRecord object)
  obtain ⟨stored, hstored, hkept⟩ := hstands.stored _ written hwritten
  have hserves := hwrites fieldPlan hmem object value hcovered
    (listConcordantBelow_iff.1 hbelow fieldPlan hmem) hsource fun assignment hassigned ↦
      hbacks assignment (mem_writeFields_of_written hmem hsource _ hassigned)
  exact ⟨stored, hstored, hserves.of_supplies (hkept.trans hown)⟩

/-- An object that is written as a reference or embedded is found to serve its fields. -/
theorem place_finds {object : Object}
    (hcovers : FieldPlan.listCovers normalizer.variableValues fields object)
    (hconcordant : normalizer.Concordant fields object ∧
      normalizer.listConcordantBelow fields object)
    (hbacks : ∀ assignment ∈ (normalizer.place (normalizer.writeObject fields object).1
      (normalizer.writeObject fields object).2).2, snapshot.Backs assignment) :
    (normalizer.place (normalizer.writeObject fields object).1
      (normalizer.writeObject fields object).2).1.EveryObject
        (snapshot.Finds (FieldPlan.listServes snapshot normalizer.variableValues fields)) := by
  rw [place] at hbacks ⊢
  cases hidentity : identify? normalizer.policies (normalizer.writeObject fields object).1 with
  | none =>
    rw [hidentity] at hbacks
    have hresolve : snapshot.resolve (.object (normalizer.writeObject fields object).1) =
        .notReference :=
      Snapshot.resolve_of_reference?_eq_none (reference?_writeObject hstorable hfields object) _
    have hserves := writeObject_serves hstorable hfields hwrites hcovers hconcordant.1
      hconcordant.2 hbacks (.refl _)
    simpa only [Json.EveryObject, Snapshot.Finds, hresolve] using hserves
  | some key =>
    rw [hidentity] at hbacks
    obtain ⟨record, hrecord, hstands⟩ :=
      hbacks (key, (normalizer.writeObject fields object).1) (by simp)
    have hserves := writeObject_serves hstorable hfields hwrites hcovers hconcordant.1
      hconcordant.2 (fun assignment hmem ↦ hbacks assignment (List.mem_append_left _ hmem)) hstands
    have hresolve := Snapshot.resolve_reference hrecord
    rw [Json.reference] at hresolve
    simpa only [Json.reference, Json.EveryObject, Snapshot.Finds, hresolve] using hserves

-- Each theorem of the block needs the assumptions of the others.
set_option linter.unusedSectionVars false in
mutual

theorem writeValue_finds (value : Json)
    (hcovers : value.EveryObject (FieldPlan.listCovers normalizer.variableValues fields))
    (hconcordant : value.EveryObject fun inner ↦
      normalizer.Concordant fields inner ∧ normalizer.listConcordantBelow fields inner)
    (hbacks : ∀ assignment ∈ (normalizer.writeValue (normalizer.writeObject fields) value).2,
      snapshot.Backs assignment) :
    (normalizer.writeValue (normalizer.writeObject fields) value).1.EveryObject
      (snapshot.Finds (FieldPlan.listServes snapshot normalizer.variableValues fields)) := by
  cases value with
  | null => trivial
  | bool _ => trivial
  | number _ => trivial
  | string _ => trivial
  | array items => exact writeItems_finds items hcovers hconcordant hbacks
  | object object => exact place_finds hstorable hfields hwrites hcovers hconcordant hbacks

theorem writeItems_finds (items : List Json)
    (hcovers : Json.EveryObjectIn (FieldPlan.listCovers normalizer.variableValues fields) items)
    (hconcordant : Json.EveryObjectIn (fun inner ↦
      normalizer.Concordant fields inner ∧ normalizer.listConcordantBelow fields inner) items)
    (hbacks : ∀ assignment ∈ (normalizer.writeItems (normalizer.writeObject fields) items).2,
      snapshot.Backs assignment) :
    Json.EveryObjectIn
      (snapshot.Finds (FieldPlan.listServes snapshot normalizer.variableValues fields))
      (normalizer.writeItems (normalizer.writeObject fields) items).1 := by
  cases items with
  | nil => trivial
  | cons item rest =>
    exact ⟨writeValue_finds item hcovers.1 hconcordant.1 fun assignment hmem ↦
        hbacks assignment (List.mem_append_left _ hmem),
      writeItems_finds rest hcovers.2 hconcordant.2 fun assignment hmem ↦
        hbacks assignment (List.mem_append_right _ hmem)⟩

end

end Fields

-- Each theorem of the block needs the assumptions of the others.
set_option linter.unusedSectionVars false in
mutual

/-- Every field of a plan is written as something that serves it. -/
theorem writesServed (fieldPlan : FieldPlan) (hhas : plan.Has fieldPlan) :
    WritesServed normalizer snapshot fieldPlan := by
  cases fieldPlan with
  | leaf field => exact fun _ _ _ _ _ _ ↦ trivial
  | nested field id fields =>
    intro object value hcovers hbelow hsource hbacks
    obtain ⟨hselected, hvalue⟩ := of_source? hsource
    obtain ⟨covered, hcovered, hinner⟩ := hcovers hselected
    obtain rfl : covered = value := Option.some.inj (hcovered.symm.trans hvalue)
    have hfields : ∀ fieldPlan ∈ fields, plan.Has fieldPlan := fun _ hmem ↦ hhas.inner hmem
    exact writeValue_finds hstorable hfields (listWritesServed fields hfields) covered hinner
      (hbelow covered hsource) hbacks

theorem listWritesServed (fields : List FieldPlan)
    (hfields : ∀ fieldPlan ∈ fields, plan.Has fieldPlan) :
    ∀ fieldPlan ∈ fields, WritesServed normalizer snapshot fieldPlan := by
  cases fields with
  | nil => exact List.forall_mem_nil _
  | cons first rest =>
    obtain ⟨hfirst, hrest⟩ := List.forall_mem_cons.1 hfields
    exact List.forall_mem_cons.2 ⟨writesServed first hfirst, listWritesServed rest hrest⟩

end

end Storable

/-! ### A whole response -/

theorem nodup_keys_normalize (plan : QueryPlan) (data : Object) :
    ∀ assignment ∈ normalize normalizer plan data, (Dict.keys assignment.2).Nodup :=
  List.forall_mem_append.2
    ⟨fun assignment hmem ↦ (writeFields_fromEntity _ _ _ assignment hmem).nodup_keys,
      List.forall_mem_singleton.2 (nodup_keys_writeObject _ _)⟩

/-- Whatever is written again in a response supplies what was written before: the fields of an
object that share a storage name do, and those of an entity that is found in several places. -/
structure ConcordantResponse (normalizer : Normalizer) (plan : QueryPlan) (data : Object) :
    Prop where
  /-- The root fields are concordant. -/
  root : normalizer.Concordant plan.selection.fields data
  /-- So are the fields of the objects below them. -/
  below : normalizer.listConcordantBelow plan.selection.fields data
  /-- So are the assignments to one record. -/
  assignments : Assignment.Concordant (normalize normalizer plan data)

/-- The root record of a cache to which a response was written serves the plan. -/
theorem normalize_serves {plan : QueryPlan} {data : Object}
    (hstorable : ∀ fieldPlan, plan.Has fieldPlan →
      fieldPlan.field.Storable normalizer.variableValues)
    (hcovers : FieldPlan.listCovers normalizer.variableValues plan.selection.fields data)
    (hconcordant : normalizer.ConcordantResponse plan data) :
    ∃ root, Dict.get? (Snapshot.assignAll [] (normalize normalizer plan data)) plan.rootKey
        = some root ∧
      FieldPlan.listServes (Snapshot.assignAll [] (normalize normalizer plan data))
        normalizer.variableValues plan.selection.fields root := by
  have hroot : ∀ fieldPlan ∈ plan.selection.fields, plan.Has fieldPlan :=
    fun _ hmem ↦ QueryPlan.has_root hmem
  have hbacks := Snapshot.backs_assignAll (nodup_keys_normalize plan data) hconcordant.assignments
  refine ⟨_, get?_rootKey plan data, writeObject_serves hstorable hroot
    (listWritesServed hstorable _ hroot) hcovers hconcordant.root hconcordant.below
    (fun assignment hmem ↦ ?_) (.refl _)⟩
  exact hbacks assignment (List.mem_append_left _ hmem)

end Normalizer

end GraphCache
