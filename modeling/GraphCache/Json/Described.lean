import GraphCache.Json.Basic
import GraphCache.Text.Invisible

/-!
# Values described for human readers

The description of a value names the kind of each part, as in `Array([Number(1), Null])`, and
quotes strings so that every character in them is visible.

## Main definitions

* `Json.visiblyQuoted`: a string in quotation marks, invisible characters by their code points.
* `Json.described`: the description of a value.
-/

namespace GraphCache.Json

/-- A character as it is shown inside a described string. -/
def shown (c : Char) : List Char :=
  match c with
  | '"' => ['\\', '"']
  | '\\' => ['\\', '\\']
  | '\x00' => ['\\', '0']
  | '\t' => ['\\', 't']
  | '\r' => ['\\', 'r']
  | '\n' => ['\\', 'n']
  | c =>
    if Invisible.isInvisible c then '\\' :: 'u' :: '\x7b' :: (Nat.toDigits 16 c.toNat ++ ['\x7d'])
    else [c]

/-- A string in quotation marks, invisible characters by their code points. -/
def visiblyQuoted (s : String) : List Char :=
  '"' :: (s.toList.flatMap shown ++ ['"'])

mutual

/-- The description of a value. -/
def describedChars : Json → List Char
  | .null => "Null".toList
  | .bool true => "Bool(true)".toList
  | .bool false => "Bool(false)".toList
  | .number n => "Number(".toList ++ n.chars ++ [')']
  | .string s => "String(".toList ++ visiblyQuoted s ++ [')']
  | .array items => "Array([".toList ++ describedItems items ++ "])".toList
  | .object fields => "Object(\x7b".toList ++ describedFields fields ++ "\x7d)".toList

/-- The descriptions of the listed values, with commas and blanks between them. -/
def describedItems : List Json → List Char
  | [] => []
  | [value] => describedChars value
  | value :: values => describedChars value ++ ',' :: ' ' :: describedItems values

/-- The descriptions of the listed fields, with commas and blanks between them. -/
def describedFields : List (String × Json) → List Char
  | [] => []
  | [(key, value)] => visiblyQuoted key ++ ':' :: ' ' :: describedChars value
  | (key, value) :: fields =>
    visiblyQuoted key
      ++ ':' :: ' ' :: (describedChars value ++ ',' :: ' ' :: describedFields fields)

end

/-- The description of a value. -/
def described (value : Json) : String :=
  String.ofList value.describedChars

example : described (.array [ofInt 1, .object [("a", .null)]]) =
    "Array([Number(1), Object(\x7b\"a\": Null\x7d)])" := by
  decide +kernel

end GraphCache.Json
