import GraphCache.Proofs.KeyOrder
import GraphCache.Proofs.StoreHistory

/-!
# Staging the records of a response

The write pass can also be seen as a computation with a staging area. A record is staged as soon as
its object is written; fields of a record that is staged already are set one by one. In the end the
staged records are merged into the store, in an order that is not known.

The list of assignments that the write pass makes says the same: it leaves the staging area when it
starts from an empty one, and the store is the same whether the assignments are made at once or
staged first.

## Main definitions

* `Normalizer.stage`: sets fields of a staged record.
* `Normalizer.stageFields`, `Normalizer.stageResponse`: the write pass with a staging area.
* `Store.ingestStaged`: writes a response by merging the staged records in some order.
* `Normalizer.Stages`: a computation stages what a list of assignments assigns.

## Main results

* `Normalizer.stageResponse_eq`: a response stages what it assigns.
* `Store.sameRecords_ingest`: a store shows the same in whatever order the staged records are
  merged.
-/

namespace GraphCache

namespace Normalizer

/-- Sets fields of the staged record with a key. Without such a record they become one. -/
def stage (key : String) (fields : Object) : StateM Snapshot Unit :=
  modify fun staged =>
    match Dict.get? staged key with
    | some record => Dict.insert staged key (Dict.merge record fields)
    | none => Dict.insert staged key fields

/-- Stages a record with an identity and refers to it; another record is embedded. -/
def stageEntity (normalizer : Normalizer) (record : Object) : StateM Snapshot Json :=
  match identify? normalizer.policies record with
  | some key => do
    stage key record
    return Json.reference key
  | none => return .object record

mutual

/-- Writes a value of a field with nested selections; `stageObject` writes the fields of an
object. -/
def stageValue (normalizer : Normalizer) (stageObject : Object → StateM Snapshot Object) :
    Json → StateM Snapshot Json
  | .array items => do
    let written ← stageItems normalizer stageObject items
    return .array written
  | .object fields => do
    let record ← stageObject fields
    normalizer.stageEntity record
  | scalar => return scalar

/-- Writes the items of a list. -/
def stageItems (normalizer : Normalizer) (stageObject : Object → StateM Snapshot Object) :
    List Json → StateM Snapshot (List Json)
  | [] => return []
  | item :: items => do
    let written ← stageValue normalizer stageObject item
    let rest ← stageItems normalizer stageObject items
    return written :: rest

end

mutual

/-- Writes one field of an object into its record. -/
def stageField (normalizer : Normalizer) :
    FieldPlan → Object → Object → StateM Snapshot Object
  | .leaf field, object, record =>
    match normalizer.source? field object with
    | some value =>
      return Dict.insert record (field.storageNameFor normalizer.variableValues) value
    | none => return record
  | .nested field _ fields, object, record =>
    match normalizer.source? field object with
    | some value => do
      let written ← normalizer.stageValue
        (fun inner => stageFields normalizer fields inner (startRecord inner)) value
      return Dict.insert record (field.storageNameFor normalizer.variableValues) written
    | none => return record

/-- Writes the listed fields of an object into its record, in order. -/
def stageFields (normalizer : Normalizer) :
    List FieldPlan → Object → Object → StateM Snapshot Object
  | [], _, record => return record
  | plan :: plans, object, record => do
    let record ← stageField normalizer plan object record
    stageFields normalizer plans object record

end

/-- The staged records of a response. The root record is staged last. -/
def stageResponse (normalizer : Normalizer) (plan : QueryPlan) (data : Object) : Snapshot :=
  let pass : StateM Snapshot Unit := do
    let root ← normalizer.stageFields plan.selection.fields data (startRecord data)
    stage plan.rootKey root
  (pass.run []).2

end Normalizer

/-- Writes the data of a response: stages its records and merges them into the store, in the order
that `arrange` gives them. -/
def Store.ingestStaged (store : Store) (arrange : List Assignment → List Assignment)
    (plan : QueryPlan) (data : Json) (vars : Object) : Except StoreError Store :=
  match data with
  | .object fields =>
    let normalizer : Normalizer := ⟨store.policies, plan.variableValues vars⟩
    .ok (store.merge (arrange (normalizer.stageResponse plan fields)))
  | other =>
    .error (.malformedResponse
      ("expected an object as response data, found " ++ other.described))

/-! ### Staging what is assigned -/

namespace Normalizer

variable {normalizer : Normalizer} {α β : Type}

/-- The computation gives the value and stages what the assignments assign. -/
def Stages (pass : StateM Snapshot α) (written : α × List Assignment) : Prop :=
  ∀ staged, pass.run staged = (written.1, staged.assignAll written.2)

namespace Stages

theorem pure (a : α) : Stages (Pure.pure a) (a, []) :=
  fun _ ↦ rfl

theorem bind {pass : StateM Snapshot α} {next : α → StateM Snapshot β} {a : α} {b : β}
    {assignments more : List Assignment} (hpass : Stages pass (a, assignments))
    (hnext : Stages (next a) (b, more)) : Stages (pass >>= next) (b, assignments ++ more) := by
  intro staged
  have hsplit : staged.assignAll (assignments ++ more)
      = (staged.assignAll assignments).assignAll more := List.foldl_append
  rw [StateT.run_bind, hpass staged, hsplit]
  exact hnext _

/-- What follows may compute with the value without staging anything. -/
theorem map {pass : StateM Snapshot α} {written : α × List Assignment} (h : Stages pass written)
    (f : α → β) : Stages (pass >>= fun a => Pure.pure (f a)) (f written.1, written.2) := by
  have hmap : Stages (pass >>= fun a => Pure.pure (f a)) (f written.1, written.2 ++ []) :=
    bind h (.pure (f written.1))
  rwa [List.append_nil] at hmap

/-- Setting fields of a staged record makes one assignment. -/
theorem stage {key : String} {fields : Object} (h : (Dict.keys fields).Nodup) :
    Stages (Normalizer.stage key fields) ((), [(key, fields)]) := by
  intro staged
  have hassign : staged.assignAll [(key, fields)]
      = Dict.insert staged key (Dict.merge ((Dict.get? staged key).getD []) fields) := rfl
  rw [hassign]
  cases hrecord : Dict.get? staged key with
  | some record =>
    simp only [Normalizer.stage, StateT.run_modify, hrecord, Option.getD_some]
    rfl
  | none =>
    simp only [Normalizer.stage, StateT.run_modify, hrecord, Option.getD_none,
      Dict.merge_nil_left h]
    rfl

/-- A record that was written is staged or embedded. -/
theorem entity {pass : StateM Snapshot Object} {written : Object × List Assignment}
    (h : Stages pass written) (hkeys : (Dict.keys written.1).Nodup) :
    Stages (pass >>= normalizer.stageEntity) (normalizer.place written.1 written.2) := by
  rw [place]
  cases hidentity : identify? normalizer.policies written.1 with
  | some key =>
    have hentity : Stages (normalizer.stageEntity written.1)
        (Json.reference key, [(key, written.1)]) := by
      rw [stageEntity, hidentity]
      exact (Stages.stage hkeys).bind (.pure _)
    exact h.bind hentity
  | none =>
    have hentity : Stages (normalizer.stageEntity written.1) (.object written.1, []) := by
      rw [stageEntity, hidentity]
      exact .pure _
    have hembedded := h.bind hentity
    rwa [List.append_nil] at hembedded

end Stages

section Values

variable {stageObject : Object → StateM Snapshot Object}
  {writeObject : Object → Object × List Assignment}
  (hobject : ∀ object, Stages (stageObject object) (writeObject object))
  (hkeys : ∀ object, (Dict.keys (writeObject object).1).Nodup)

include hobject hkeys

-- Each theorem of the block needs the assumptions of the others.
set_option linter.unusedSectionVars false in
mutual

theorem stageValue_stages : ∀ value,
    Stages (normalizer.stageValue stageObject value) (normalizer.writeValue writeObject value)
  | .null => .pure _
  | .bool _ => .pure _
  | .number _ => .pure _
  | .string _ => .pure _
  | .array items => by
    rw [stageValue, writeValue]
    exact (stageItems_stages items).map _
  | .object fields => by
    rw [stageValue, writeValue]
    exact (hobject fields).entity (hkeys fields)

theorem stageItems_stages : ∀ items,
    Stages (normalizer.stageItems stageObject items) (normalizer.writeItems writeObject items)
  | [] => .pure _
  | item :: items => by
    rw [stageItems, writeItems]
    exact (stageValue_stages item).bind ((stageItems_stages items).map _)

end

end Values

mutual

theorem stageField_stages (plan : FieldPlan) (object record : Object) :
    Stages (normalizer.stageField plan object record)
      (normalizer.writeField plan object record) := by
  cases plan with
  | leaf field =>
    rw [stageField, writeField]
    cases normalizer.source? field object with
    | some value => exact .pure _
    | none => exact .pure _
  | nested field id fields =>
    rw [stageField, writeField]
    cases normalizer.source? field object with
    | some value =>
      exact (stageValue_stages (fun inner ↦ stageFields_stages fields inner (startRecord inner))
        (nodup_keys_writeObject fields) value).map _
    | none => exact .pure _

/-- The fields of an object stage what they assign. -/
theorem stageFields_stages (plans : List FieldPlan) (object record : Object) :
    Stages (normalizer.stageFields plans object record)
      (normalizer.writeFields plans object record) := by
  cases plans with
  | nil => exact .pure _
  | cons plan plans =>
    rw [stageFields, writeFields]
    exact (stageField_stages plan object record).bind (stageFields_stages plans object _)

end

/-- A response stages what it assigns. -/
theorem stageResponse_eq (plan : QueryPlan) (data : Object) :
    normalizer.stageResponse plan data
      = Snapshot.assignAll [] (normalize normalizer plan data) := by
  have hroot : Stages (stage plan.rootKey (normalizer.writeObject plan.selection.fields data).1)
      ((), [(plan.rootKey, (normalizer.writeObject plan.selection.fields data).1)]) :=
    .stage (nodup_keys_writeObject _ _)
  have hpass := (stageFields_stages plan.selection.fields data (startRecord data)).bind hroot
  rw [stageResponse, hpass []]
  rfl

end Normalizer

/-! ### Merging what is staged -/

namespace Store

/-- The stores have the same records under the same keys, with their fields in the same order. -/
structure SameRecords (a b : Store) : Prop where
  /-- Objects are identified in the same way. -/
  policies : a.policies = b.policies
  /-- The records are the same. -/
  records : ∀ key, Dict.get? a.snapshot key = Dict.get? b.snapshot key
  /-- The whole contents are the same. -/
  extract : a.snapshot.extract = b.snapshot.extract

/-- Stores that repeat nothing and have the same records are extracted alike. -/
theorem SameRecords.of_get? {a b : Store} (ha : a.snapshot.Tidy) (hb : b.snapshot.Tidy)
    (hpolicies : a.policies = b.policies)
    (hrecords : ∀ key, Dict.get? a.snapshot key = Dict.get? b.snapshot key) :
    a.SameRecords b where
  policies := hpolicies
  records := hrecords
  extract := by
    have hmem (entry : String × Object) : entry ∈ a.snapshot ↔ entry ∈ b.snapshot := by
      obtain ⟨key, record⟩ := entry
      rw [← Dict.get?_eq_some_iff ha.keys, ← Dict.get?_eq_some_iff hb.keys, hrecords]
    have hperm : a.snapshot.Perm b.snapshot :=
      (List.perm_ext_iff_of_nodup (.of_map _ ha.keys) (.of_map _ hb.keys)).2 hmem
    rw [Snapshot.extract, Snapshot.extract, Dict.sortKeys_eq_of_perm ha.keys hperm]

/-- In whatever order the staged records of a response are merged into a store, it has the records
that the assignments of the response leave when they are made one after the other. A response that
is refused is refused either way, for the same reason. -/
theorem sameRecords_ingest {store : Store} (hstore : store.snapshot.Tidy)
    {arrange : List Assignment → List Assignment}
    (harrange : ∀ staged, (arrange staged).Perm staged)
    (plan : QueryPlan) (data : Json) (vars : Object) :
    (∃ staged direct, store.ingestStaged arrange plan data vars = .ok staged ∧
        store.ingest plan data vars = .ok direct ∧ staged.SameRecords direct) ∨
      ∃ error, store.ingestStaged arrange plan data vars = .error error ∧
        store.ingest plan data vars = .error error := by
  cases data with
  | object fields =>
    have hperm := harrange
      (Normalizer.stageResponse ⟨store.policies, plan.variableValues vars⟩ plan fields)
    rw [Normalizer.stageResponse_eq] at hperm
    refine .inl ⟨_, _, rfl, rfl,
      .of_get? (hstore.assignAll _) (hstore.assignAll _) rfl fun key ↦ ?_⟩
    rw [Normalizer.stageResponse_eq]
    exact Snapshot.get?_assignAll_of_staged store.snapshot hperm key
  | _ => exact .inr ⟨_, rfl, rfl⟩

end Store

end GraphCache
