import GraphCache.Error.Causes
import GraphCache.Json.Described
import GraphCache.Store.Normalize

/-!
# The entity store

A store holds normalised records by key. Writing replaces a record, merging sets its fields one by
one. A snapshot is the content of a store at one moment; being a value, it does not change.

## Main definitions

* `Snapshot`: records by key; `Snapshot.get`, `Snapshot.resolve`, `Snapshot.extract`.
* `Store`: the current content and the policies for identifying objects.
* `Store.write`, `Store.merge`, `Store.ingest`: the ways to change a store.
-/

namespace GraphCache

/-- Records by key. -/
abbrev Snapshot := Dict Object

/-- What a value refers to. -/
inductive Resolved where
  /-- The value is not a reference. -/
  | notReference
  /-- The record that the reference leads to. -/
  | entity (key : String) (record : Object)
  /-- The reference leads to no record. -/
  | missing (key : String)

namespace Snapshot

/-- The record with a key. -/
def get (snapshot : Snapshot) (key : String) : Except StoreError Object :=
  match Dict.get? snapshot key with
  | some record => .ok record
  | none => .error (.missingEntity key)

/-- What a value refers to. -/
def resolve (snapshot : Snapshot) (value : Json) : Resolved :=
  match value.reference? with
  | none => .notReference
  | some key =>
    match Dict.get? snapshot key with
    | some record => .entity key record
    | none => .missing key

/-- A reference leads to the record that is kept under its key. -/
theorem get?_of_resolve {snapshot : Snapshot} {value : Json} {key : String} {record : Object}
    (h : snapshot.resolve value = .entity key record) : Dict.get? snapshot key = some record := by
  unfold resolve at h
  split at h
  · cases h
  · split at h
    · next hget =>
      obtain ⟨rfl, rfl⟩ := Resolved.entity.inj h
      exact hget
    · cases h

/-- The whole content, in the order of the keys. -/
def extract (snapshot : Snapshot) : Json :=
  .object ((Dict.sortKeys snapshot).map fun (key, record) => (key, .object record))

/-- Sets fields of the record with a key, which is created if necessary. -/
def assign (snapshot : Snapshot) (assignment : Assignment) : Snapshot :=
  Dict.insert snapshot assignment.1
    (Dict.merge ((Dict.get? snapshot assignment.1).getD []) assignment.2)

/-- Makes the listed assignments, in order. -/
def assignAll (snapshot : Snapshot) (assignments : List Assignment) : Snapshot :=
  assignments.foldl assign snapshot

end Snapshot

/-- The current content and the policies for identifying objects. -/
structure Store where
  /-- The key fields of types. -/
  policies : TypePolicies := []
  /-- The current content. -/
  snapshot : Snapshot := []

namespace Store

/-- Replaces the record with a key. -/
def write (store : Store) (key : String) (record : Object) : Store :=
  { store with snapshot := Dict.insert store.snapshot key record }

/-- Sets the fields of records one by one; records without a predecessor are created. -/
def merge (store : Store) (assignments : List Assignment) : Store :=
  { store with snapshot := store.snapshot.assignAll assignments }

/-- Writes the data of a response to the records of its entities. -/
def ingest (store : Store) (plan : QueryPlan) (data : Json) (vars : Object) :
    Except StoreError Store :=
  match data with
  | .object fields =>
    .ok (store.merge (normalize ⟨store.policies, plan.variableValues vars⟩ plan fields))
  | other =>
    .error (.malformedResponse
      ("expected an object as response data, found " ++ other.described))

/-- The key of an object, if it has an identity. -/
def identify? (store : Store) (object : Object) : Option String :=
  GraphCache.identify? store.policies object

end Store

end GraphCache
