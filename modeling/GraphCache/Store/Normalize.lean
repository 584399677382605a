import GraphCache.Store.Identity
import GraphCache.Store.Reference

/-!
# Normalising responses

A response is cut along its plan into records: every object with an identity becomes a record and is
replaced by a reference, every other one stays embedded. Only remote fields are written, under their
storage names.

## Main definitions

* `Assignment`: fields to be written to the record with a key.
* `Normalizer.writeValue`, `Normalizer.writeFields`: a value, and the fields of an object, with the
  assignments made for the objects inside them.
* `normalize`: all assignments of a response.
-/

namespace GraphCache

/-- Fields to be written to the record with a key. -/
abbrev Assignment := String × Object

/-- What the write pass depends on besides plan and data. -/
structure Normalizer where
  /-- The key fields of types. -/
  policies : TypePolicies
  /-- The variables of the request, with default values. -/
  variableValues : Object

namespace Normalizer

/-- The record of an object before its fields are written: its type, if it has one. -/
def startRecord (object : Object) : Object :=
  match Dict.get? object typenameField with
  | some typename => [(typenameField, typename)]
  | none => []

/-- Replaces an object by a reference if its record has an identity, and embeds the record
otherwise. The record is assigned after the objects inside it. -/
def place (normalizer : Normalizer) (record : Object) (assignments : List Assignment) :
    Json × List Assignment :=
  match identify? normalizer.policies record with
  | some key => (Json.reference key, assignments ++ [(key, record)])
  | none => (.object record, assignments)

mutual

/-- Writes a value of a field with nested selections; `writeObject` writes the fields of an object.
Scalars are kept. -/
def writeValue (normalizer : Normalizer) (writeObject : Object → Object × List Assignment) :
    Json → Json × List Assignment
  | .array items =>
    let (written, assignments) := writeItems normalizer writeObject items
    (.array written, assignments)
  | .object fields =>
    let (record, assignments) := writeObject fields
    normalizer.place record assignments
  | scalar => (scalar, [])

/-- Writes the items of a list. -/
def writeItems (normalizer : Normalizer) (writeObject : Object → Object × List Assignment) :
    List Json → List Json × List Assignment
  | [] => ([], [])
  | item :: items =>
    let (written, assignments) := writeValue normalizer writeObject item
    let (rest, more) := writeItems normalizer writeObject items
    (written :: rest, assignments ++ more)

end

/-- The value that a field reads from an object, if the field is written at all. -/
def source? (normalizer : Normalizer) (field : PlannedField) (object : Object) : Option Json :=
  if field.isLocal || !field.isSelected normalizer.variableValues (typename? object) then none
  else Dict.get? object field.responseKey

mutual

/-- Writes one field of an object into its record. -/
def writeField (normalizer : Normalizer) :
    FieldPlan → Object → Object → Object × List Assignment
  | .leaf field, object, record =>
    match normalizer.source? field object with
    | some value => (Dict.insert record (field.storageNameFor normalizer.variableValues) value, [])
    | none => (record, [])
  | .nested field _ fields, object, record =>
    match normalizer.source? field object with
    | some value =>
      let (written, assignments) := writeValue normalizer
        (fun inner => writeFields normalizer fields inner (startRecord inner)) value
      (Dict.insert record (field.storageNameFor normalizer.variableValues) written, assignments)
    | none => (record, [])

/-- Writes the listed fields of an object into its record, in order. -/
def writeFields (normalizer : Normalizer) :
    List FieldPlan → Object → Object → Object × List Assignment
  | [], _, record => (record, [])
  | plan :: plans, object, record =>
    let (record, assignments) := writeField normalizer plan object record
    let (record, more) := writeFields normalizer plans object record
    (record, assignments ++ more)

end

/-- Writes an object: its type and the listed fields. -/
def writeObject (normalizer : Normalizer) (fields : List FieldPlan) (object : Object) :
    Object × List Assignment :=
  normalizer.writeFields fields object (startRecord object)

end Normalizer

/-- The assignments of a response, the root record last. -/
def normalize (normalizer : Normalizer) (plan : QueryPlan) (data : Object) : List Assignment :=
  let (root, assignments) := normalizer.writeObject plan.selection.fields data
  assignments ++ [(plan.rootKey, root)]

end GraphCache
