import GraphCache.Json.Basic

/-!
# References between records

A reference is an object whose only field is `__ref`, a string: the key of the record meant.

## Main definitions

* `Json.reference`, `Json.reference?`: making and recognising references.
* `Json.containsReference`: whether a value is a reference or a list with one in it.
-/

namespace GraphCache.Json

/-- The field of a reference. -/
def referenceField : String :=
  "__ref"

/-- A reference to the record with the given key. -/
def reference (key : String) : Json :=
  .object [(referenceField, .string key)]

/-- The key of a reference. -/
def reference? : Json → Option String
  | .object [(field, .string key)] => if field = referenceField then some key else none
  | _ => none

mutual

/-- Whether a value is a reference or a list, at any depth of lists, that contains one. -/
def containsReference : Json → Bool
  | .array items => anyContainsReference items
  | value => value.reference?.isSome

/-- Whether one of the listed values is or contains a reference. -/
def anyContainsReference : List Json → Bool
  | [] => false
  | value :: values => containsReference value || anyContainsReference values

end

@[simp] theorem reference?_reference (key : String) : (reference key).reference? = some key := by
  simp [reference, reference?]

/-- A value is recognised as a reference to a key only if it is that reference. -/
theorem reference?_eq_some_iff {value : Json} {key : String} :
    value.reference? = some key ↔ value = reference key := by
  constructor
  · intro h
    unfold reference? at h
    split at h
    · next field key' =>
      split at h
      · next hf => simp only [Option.some.injEq] at h; subst hf h; rfl
      · simp at h
    · simp at h
  · rintro rfl
    simp

/-- An object without the field of references is not a reference. -/
theorem reference?_of_get?_eq_none {fields : Object} (h : Dict.get? fields referenceField = none) :
    (object fields).reference? = none := by
  cases hkey : (object fields).reference? with
  | none => rfl
  | some key =>
    have hfields : fields = [(referenceField, .string key)] :=
      object.inj (reference?_eq_some_iff.1 hkey)
    simp [hfields, Dict.get?_cons] at h

end GraphCache.Json
