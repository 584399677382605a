import GraphCache.Document.Basic
import GraphCache.Json.Basic

/-!
# Argument values

The arguments of a field are bound to the variables of a request. Whatever contains no variable is
evaluated once, when the query is read.

## Main definitions

* `constant?`: the JSON value of a GraphQL value without variables.
* `ArgumentValue`: a value in which the parts without variables are evaluated.
* `ArgumentValue.ofValue`: evaluates those parts.
* `ArgumentValue.bind?`: replaces variables by their values.
-/

namespace GraphCache

namespace Document.Value

/-- An integer literal as a number: an integer if it fits a signed 64-bit word, else the nearest
floating-point number, if that is finite. -/
def intNumber? (value : Int) : Option Number :=
  if h : -0x8000000000000000 ≤ value ∧ value < 0x8000000000000000 then
    some (.integer value h.1 (by omega))
  else (Binary64.ofDecimal? (value < 0) value.natAbs 0).map .float

/-- A literal with a fraction or an exponent as a number, if it is finite. -/
def floatNumber? (literal : NumberLiteral) : Option Number :=
  (Binary64.ofDecimal? literal.negative literal.digits (literal.scale.getD 0)).map .float

mutual

/-- The JSON value of a value without variables; numbers that overflow have none. -/
def constant? : Value → Option Json
  | .var _ => none
  | .int value => (intNumber? value).map .number
  | .float literal => (floatNumber? literal).map .number
  | .string text => some (.string text)
  | .boolean value => some (.bool value)
  | .null => some .null
  | .enum name => some (.string name)
  | .list items => (constants? items).map .array
  | .object fields => (constantFields? fields).map (.object ∘ Dict.ofPairs)

/-- The JSON values of the listed values. -/
def constants? : List Value → Option (List Json)
  | [] => some []
  | value :: values => do
    let first ← constant? value
    let rest ← constants? values
    return first :: rest

/-- The JSON values of the listed fields. -/
def constantFields? : List (String × Value) → Option (List (String × Json))
  | [] => some []
  | (name, value) :: fields => do
    let first ← constant? value
    let rest ← constantFields? fields
    return (name, first) :: rest

end

end Document.Value

/-- An argument value whose parts without variables are evaluated. -/
inductive ArgumentValue where
  /-- A value that contains no variable. -/
  | literal (value : Json)
  /-- A reference to a variable. -/
  | var (name : String)
  | list (items : List ArgumentValue)
  | object (fields : List (String × ArgumentValue))

/-- The arguments of a field, in the order in which they are written. -/
abbrev Arguments := List (String × ArgumentValue)

namespace ArgumentValue

/-- The value of a literal. -/
def literal? : ArgumentValue → Option Json
  | literal value => some value
  | _ => none

/-- The values of the listed fields, if all of them are literals. -/
def literalFields? (fields : List (String × ArgumentValue)) : Option (List (String × Json)) :=
  fields.mapM fun (name, value) => value.literal?.map (name, ·)

/-- A list: a literal if all items are. -/
def ofItems (items : List ArgumentValue) : ArgumentValue :=
  match items.mapM literal? with
  | some values => literal (.array values)
  | none => list items

/-- An object: a literal if the values of all fields are. -/
def ofFields (fields : List (String × ArgumentValue)) : ArgumentValue :=
  match literalFields? fields with
  | some values => literal (.object (Dict.ofPairs values))
  | none => object fields

mutual

/-- Evaluates the parts without variables. A scalar that has no value is `null`. -/
def ofValue : Document.Value → ArgumentValue
  | .var name => var name
  | .list items => ofItems (ofValues items)
  | .object fields => ofFields (ofFieldValues fields)
  | scalar => literal (scalar.constant?.getD .null)

/-- Evaluates the parts without variables of the listed values. -/
def ofValues : List Document.Value → List ArgumentValue
  | [] => []
  | value :: values => ofValue value :: ofValues values

/-- Evaluates the parts without variables of the listed fields. -/
def ofFieldValues : List (String × Document.Value) → List (String × ArgumentValue)
  | [] => []
  | (name, value) :: fields => (name, ofValue value) :: ofFieldValues fields

end

mutual

/-- Replaces variables by their values. A variable without a value has none; inside a list it is
`null`, and from an object its field is left out. -/
def bind? (vars : Object) : ArgumentValue → Option Json
  | literal value => some value
  | var name => Dict.get? vars name
  | list items => some (.array (bindItems vars items))
  | object fields => some (.object (Dict.ofPairs (bindFields vars fields)))

/-- The values of the listed items, `null` where there is none. -/
def bindItems (vars : Object) : List ArgumentValue → List Json
  | [] => []
  | item :: items => (bind? vars item).getD .null :: bindItems vars items

/-- The values of the listed fields that have one. -/
def bindFields (vars : Object) : List (String × ArgumentValue) → List (String × Json)
  | [] => []
  | (name, value) :: fields =>
    match bind? vars value with
    | some bound => (name, bound) :: bindFields vars fields
    | none => bindFields vars fields

end

/-- The values of a field's arguments. Arguments without a value are left out. -/
def bindAll (vars : Object) (arguments : Arguments) : Object :=
  Dict.ofPairs (bindFields vars arguments)

mutual

/-- Equality of argument values; literals are compared as JSON values. -/
def same : ArgumentValue → ArgumentValue → Bool
  | literal a, literal b => a.same b
  | var a, var b => a == b
  | list a, list b => sameItems a b
  | object a, object b => sameFields a b
  | _, _ => false

/-- Equality of lists of argument values. -/
def sameItems : List ArgumentValue → List ArgumentValue → Bool
  | [], [] => true
  | a :: as, b :: bs => same a b && sameItems as bs
  | _, _ => false

/-- Equality of lists of named argument values, in order. -/
def sameFields : List (String × ArgumentValue) → List (String × ArgumentValue) → Bool
  | [], [] => true
  | (key, a) :: as, (other, b) :: bs => key == other && same a b && sameFields as bs
  | _, _ => false

end

theorem bindFields_eq_filterMap (vars : Object) (fields : List (String × ArgumentValue)) :
    bindFields vars fields =
      fields.filterMap fun field => (bind? vars field.2).map (field.1, ·) := by
  induction fields with
  | nil => rfl
  | cons field fields ih =>
    obtain ⟨name, value⟩ := field
    simp only [bindFields, List.filterMap_cons]
    cases bind? vars value <;> simp [ih]

end ArgumentValue

end GraphCache
