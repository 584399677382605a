import GraphCache.Json.Lexeme

/-!
# JSON as it is written

A written value keeps repeated keys, numbers of any size and escapes that denote no text. It is read
by a machine that goes through the lexemes once and keeps the open arrays and objects on a stack.

## Main definitions

* `Json.Written`: a value as it is written.
* `Json.Written.ofText?`: reads a text.
* `Json.Written.value?`: the denoted value, if arrays and objects nest no deeper than a limit.
* `Json.ofText?`: reads a value of any depth.
-/

namespace GraphCache.Json

/-- A JSON value as it is written. -/
inductive Written where
  | scalar (value : Scalar)
  | array (items : List Written)
  | object (fields : List (List Nat × Written))

namespace Written

/-- An array or object that is still open; the last item or field read comes first. -/
inductive Frame where
  /-- An array and the items read so far. -/
  | items (done : List Written)
  /-- An object and the fields read so far. -/
  | fields (done : List (List Nat × Written))
  /-- An object, the fields read so far and the key whose value is awaited. -/
  | keyed (done : List (List Nat × Written)) (key : List Nat)

/-- What may come next. -/
inductive Awaiting where
  /-- A value. -/
  | item
  /-- A value or the end of the array. -/
  | itemOrEnd
  /-- A key. -/
  | key
  /-- A key or the end of the object. -/
  | keyOrEnd
  /-- The colon behind a key. -/
  | colon
  /-- A comma, or the end of the array or object. -/
  | commaOrEnd

/-- The machine: either the value is complete, or it awaits something inside open frames. -/
inductive Reading where
  | complete (value : Written)
  | incomplete (frames : List Frame) (awaiting : Awaiting)

/-- Continues after a complete value inside the given frames. -/
def Reading.after (value : Written) : List Frame → Option Reading
  | [] => some (complete value)
  | .items done :: frames => some (incomplete (.items (value :: done) :: frames) .commaOrEnd)
  | .keyed done key :: frames =>
    some (incomplete (.fields ((key, value) :: done) :: frames) .commaOrEnd)
  | .fields _ :: _ => none

/-- One step of the machine. -/
def Reading.step : Reading → Lexeme → Option Reading
  | incomplete frames .item, .scalar value
  | incomplete frames .itemOrEnd, .scalar value => after (scalar value) frames
  | incomplete frames .item, .openArray
  | incomplete frames .itemOrEnd, .openArray => some (incomplete (.items [] :: frames) .itemOrEnd)
  | incomplete frames .item, .openObject
  | incomplete frames .itemOrEnd, .openObject => some (incomplete (.fields [] :: frames) .keyOrEnd)
  | incomplete (.items done :: frames) .itemOrEnd, .closeArray
  | incomplete (.items done :: frames) .commaOrEnd, .closeArray =>
    after (array done.reverse) frames
  | incomplete (.items done :: frames) .commaOrEnd, .comma =>
    some (incomplete (.items done :: frames) .item)
  | incomplete (.fields done :: frames) .key, .scalar (.string key)
  | incomplete (.fields done :: frames) .keyOrEnd, .scalar (.string key) =>
    some (incomplete (.keyed done key :: frames) .colon)
  | incomplete frames .colon, .colon => some (incomplete frames .item)
  | incomplete (.fields done :: frames) .keyOrEnd, .closeObject
  | incomplete (.fields done :: frames) .commaOrEnd, .closeObject =>
    after (object done.reverse) frames
  | incomplete (.fields done :: frames) .commaOrEnd, .comma =>
    some (incomplete (.fields done :: frames) .key)
  | _, _ => none

/-- Reads a text that holds one value and blanks. -/
def ofText? (text : String) : Option Written := do
  let lexemes ← Lexeme.readAll? text
  match ← lexemes.foldlM Reading.step (.incomplete [] .item) with
  | .complete value => some value
  | .incomplete _ _ => none

/-- The text of a written string, if its surrogates are paired. -/
def unitsText? (units : List Nat) : Option String :=
  (Scan.joinSurrogates? units).map String.ofList

/-- The value of a written scalar. -/
def scalarValue? : Scalar → Option Json
  | .null => some .null
  | .bool b => some (.bool b)
  | .number literal => (Number.ofLiteral? literal).map .number
  | .string units => (unitsText? units).map .string

mutual

/-- The denoted value, if arrays and objects nest at most `levels` deep, numbers do not overflow
and strings denote a text. The last field of a repeated key counts, at the place of the first. -/
def value? (levels : Nat) : Written → Option Json
  | .scalar value => scalarValue? value
  | .array written =>
    match levels with
    | 0 => none
    | levels + 1 => (values? levels written).map .array
  | .object written =>
    match levels with
    | 0 => none
    | levels + 1 => (fieldValues? levels written).map (.object ∘ Dict.ofPairs)

/-- The values of the listed items. -/
def values? (levels : Nat) : List Written → Option (List Json)
  | [] => some []
  | item :: rest => do
    let value ← value? levels item
    let values ← values? levels rest
    return value :: values

/-- The values of the listed fields. -/
def fieldValues? (levels : Nat) : List (List Nat × Written) → Option (List (String × Json))
  | [] => some []
  | (units, item) :: rest => do
    let key ← unitsText? units
    let value ← value? levels item
    let fields ← fieldValues? levels rest
    return (key, value) :: fields

end

end Written

/-- Reads a value of any depth. -/
def ofText? (text : String) : Option Json :=
  (Written.ofText? text).bind (Written.value? text.length)

end GraphCache.Json
