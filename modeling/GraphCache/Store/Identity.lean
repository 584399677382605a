import GraphCache.Json.Text
import GraphCache.Plan.Basic

/-!
# Identity of entities

An object is identified by its type and by key fields: those that the policy of its type lists, or
else `id` or `_id`. An object without a type or without a key field has no identity.

## Main definitions

* `TypePolicies`: the key fields of types.
* `identify?`: the key of an object.
-/

namespace GraphCache

/-- The key fields of the types that have a policy, in order. -/
abbrev TypePolicies := Dict (List String)

/-- The fields that identify objects of types without a policy; the first one present counts. -/
def defaultKeyFields : List String :=
  ["id", "_id"]

/-- The value of a field, unless it is absent or `null`. -/
def presentField? (object : Object) (field : String) : Option Json :=
  (Dict.get? object field).filter (!·.isNull)

/-- The values of all key fields, if all are present. -/
def keyObject? (object : Object) (fields : List String) : Option Object :=
  (fields.mapM fun field => (presentField? object field).map (field, ·)).map Dict.ofPairs

/-- The text of a key field's value: a string stands for itself. -/
def identityText : Json → String
  | .string text => text
  | value => value.text

/-- The type of an object, if it is told by a string. -/
def typename? (object : Object) : Option String :=
  (Dict.get? object typenameField).bind Json.string?

/-- The key of an object: its type and the text of its key fields. -/
def identify? (policies : TypePolicies) (object : Object) : Option String := do
  let typename ← typename? object
  match Dict.get? policies typename with
  | some fields =>
    let key ← keyObject? object fields
    return typename ++ ":" ++ (Json.object key).text
  | none =>
    let id ← defaultKeyFields.findSome? (presentField? object)
    return typename ++ ":" ++ identityText id

end GraphCache
