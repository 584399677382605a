import GraphCache.Dict
import GraphCache.Json.Number

/-!
# JSON values

Objects keep their keys in the order of first insertion. Two notions of equality are used: `same`
compares objects without regard to the order of keys, `sameOrdered` with it.

## Main definitions

* `Json`, `Object`: values and objects.
* `Json.kind`: the name of a value's kind.
* `Json.same`, `Json.sameOrdered`: the two equalities.
* `Json.sorted`: the value with the keys of every object in increasing order.
* `Json.WellFormed`: no object repeats a key.
-/

namespace GraphCache

/-- A JSON value. -/
inductive Json where
  | null
  | bool (value : Bool)
  | number (value : Number)
  | string (value : String)
  | array (items : List Json)
  | object (fields : List (String × Json))

/-- The fields of a JSON object, in order. -/
abbrev Object := Dict Json

namespace Json

instance : Inhabited Json := ⟨.null⟩

/-- An integer value; out of the range of numbers there is none, and it is `null`. -/
def ofInt (value : Int) : Json :=
  match Number.ofInt? value with
  | some n => .number n
  | none => .null

/-- A natural number as a value. -/
def ofNat (value : Nat) : Json :=
  ofInt value

/-- A string, or `null` when there is none. -/
def ofString? : Option String → Json
  | some s => .string s
  | none => .null

/-- The text of a string value. -/
def string? : Json → Option String
  | .string s => some s
  | _ => none

/-- The truth value of a boolean. -/
def bool? : Json → Option Bool
  | .bool b => some b
  | _ => none

/-- The fields of an object. -/
def object? : Json → Option Object
  | .object fields => some fields
  | _ => none

/-- The items of an array. -/
def array? : Json → Option (List Json)
  | .array items => some items
  | _ => none

/-- Whether the value is `null`. -/
def isNull : Json → Bool
  | .null => true
  | _ => false

/-- The name of a value's kind. -/
def kind : Json → String
  | .null => "null"
  | .bool _ => "boolean"
  | .number _ => "number"
  | .string _ => "string"
  | .array _ => "list"
  | .object _ => "object"

mutual

/-- Equality of values. Two objects are equal when they have the same number of fields and every
field of the first is found, with an equal value, in the second. -/
def same : Json → Json → Bool
  | .null, .null => true
  | .bool a, .bool b => a == b
  | .number a, .number b => a.same b
  | .string a, .string b => a == b
  | .array a, .array b => sameItems a b
  | .object a, .object b => a.length == b.length && sameFields a b
  | _, _ => false

/-- Equality of lists of values, item by item. -/
def sameItems : List Json → List Json → Bool
  | [], [] => true
  | a :: as, b :: bs => same a b && sameItems as bs
  | _, _ => false

/-- Whether every listed field is found in an object with an equal value. -/
def sameFields : List (String × Json) → Object → Bool
  | [], _ => true
  | (key, a) :: fields, target =>
    (match Dict.get? target key with
      | some b => same a b
      | none => false) && sameFields fields target

end

mutual

/-- Equality of values whose objects also have their keys in the same order. -/
def sameOrdered : Json → Json → Bool
  | .null, .null => true
  | .bool a, .bool b => a == b
  | .number a, .number b => a.same b
  | .string a, .string b => a == b
  | .array a, .array b => sameOrderedItems a b
  | .object a, .object b => sameOrderedFields a b
  | _, _ => false

/-- Ordered equality of lists of values, item by item. -/
def sameOrderedItems : List Json → List Json → Bool
  | [], [] => true
  | a :: as, b :: bs => sameOrdered a b && sameOrderedItems as bs
  | _, _ => false

/-- Equality of the fields of two objects in order, key by key and value by value. -/
def sameOrderedFields : List (String × Json) → List (String × Json) → Bool
  | [], [] => true
  | (key, a) :: as, (other, b) :: bs =>
    key == other && sameOrdered a b && sameOrderedFields as bs
  | _, _ => false

end

mutual

/-- The value with the keys of every object, at any depth, in increasing order. -/
def sorted : Json → Json
  | .array items => .array (sortedItems items)
  | .object fields => .object (Dict.sortKeys (sortedFields fields))
  | value => value

/-- Sorts the keys of every object inside a list. -/
def sortedItems : List Json → List Json
  | [] => []
  | value :: values => sorted value :: sortedItems values

/-- Sorts the keys of every object inside the fields of an object, not the fields themselves. -/
def sortedFields : List (String × Json) → List (String × Json)
  | [] => []
  | (key, value) :: fields => (key, sorted value) :: sortedFields fields

end

mutual

/-- How deeply arrays and objects nest; a scalar counts as one level. -/
def depth : Json → Nat
  | .array items => depthOfItems items + 1
  | .object fields => depthOfFields fields + 1
  | _ => 1

/-- The greatest depth of the listed values. -/
def depthOfItems : List Json → Nat
  | [] => 0
  | value :: values => max (depth value) (depthOfItems values)

/-- The greatest depth of the values of the listed fields. -/
def depthOfFields : List (String × Json) → Nat
  | [] => 0
  | (_, value) :: fields => max (depth value) (depthOfFields fields)

end

mutual

/-- No object of the value, at any depth, repeats a key. -/
def WellFormed : Json → Prop
  | .array items => WellFormedItems items
  | .object fields => (Dict.keys fields).Nodup ∧ WellFormedFields fields
  | _ => True

/-- No object inside the listed values repeats a key. -/
def WellFormedItems : List Json → Prop
  | [] => True
  | value :: values => WellFormed value ∧ WellFormedItems values

/-- No object inside the values of the listed fields repeats a key. -/
def WellFormedFields : List (String × Json) → Prop
  | [] => True
  | (_, value) :: fields => WellFormed value ∧ WellFormedFields fields

end

theorem sortedItems_eq_map (items : List Json) : sortedItems items = items.map sorted := by
  induction items with
  | nil => rfl
  | cons value values ih => simp [sortedItems, ih]

theorem sortedFields_eq_map (fields : List (String × Json)) :
    sortedFields fields = fields.map fun field => (field.1, sorted field.2) := by
  induction fields with
  | nil => rfl
  | cons field fields ih => simp [sortedFields, ih]

@[simp] theorem wellFormedItems_iff (items : List Json) :
    WellFormedItems items ↔ ∀ value ∈ items, WellFormed value := by
  induction items with
  | nil => simp [WellFormedItems]
  | cons value values ih => simp [WellFormedItems, ih]

@[simp] theorem wellFormedFields_iff (fields : List (String × Json)) :
    WellFormedFields fields ↔ ∀ field ∈ fields, WellFormed field.2 := by
  induction fields with
  | nil => simp [WellFormedFields]
  | cons field fields ih =>
    obtain ⟨key, value⟩ := field
    simp only [WellFormedFields, ih, List.mem_cons, forall_eq_or_imp]

end Json

end GraphCache
