import GraphCache.Json.Basic

/-!
# The compact text of JSON values

No blanks are written. A string escapes the quotation mark, the backslash and the characters below
the blank; every other character is written as it is.

## Main definitions

* `Json.quoted`: a string between quotation marks.
* `Json.chars`, `Json.text`: the compact text of a value.
-/

namespace GraphCache.Json

/-- A hexadecimal digit, in lower case. -/
def hexDigit (n : Nat) : Char :=
  if n < 10 then Char.ofNat (48 + n) else Char.ofNat (87 + n)

/-- A character as it is written inside a string. -/
def escaped (c : Char) : List Char :=
  if c = '"' then ['\\', '"']
  else if c = '\\' then ['\\', '\\']
  else if c = '\n' then ['\\', 'n']
  else if c = '\r' then ['\\', 'r']
  else if c = '\t' then ['\\', 't']
  else if c = '\x08' then ['\\', 'b']
  else if c = '\x0c' then ['\\', 'f']
  else if c.toNat < 32 then ['\\', 'u', '0', '0', hexDigit (c.toNat / 16), hexDigit (c.toNat % 16)]
  else [c]

/-- The written form of the characters of a string, with the closing quotation mark. -/
def quotedTail : List Char → List Char
  | [] => ['"']
  | c :: cs => escaped c ++ quotedTail cs

/-- A string between quotation marks. -/
def quoted (s : String) : List Char :=
  '"' :: quotedTail s.toList

mutual

/-- The characters of a value's compact text. -/
def chars : Json → List Char
  | .null => ['n', 'u', 'l', 'l']
  | .bool true => ['t', 'r', 'u', 'e']
  | .bool false => ['f', 'a', 'l', 's', 'e']
  | .number n => n.chars
  | .string s => quoted s
  | .array [] => ['[', ']']
  | .array (value :: values) => '[' :: (chars value ++ itemsTail values)
  | .object [] => ['\x7b', '\x7d']
  | .object ((key, value) :: fields) =>
    '\x7b' :: (quoted key ++ ':' :: (chars value ++ fieldsTail fields))

/-- The remaining items of an array, each behind a comma, and the closing bracket. -/
def itemsTail : List Json → List Char
  | [] => [']']
  | value :: values => ',' :: (chars value ++ itemsTail values)

/-- The remaining fields of an object, each behind a comma, and the closing brace. -/
def fieldsTail : List (String × Json) → List Char
  | [] => ['\x7d']
  | (key, value) :: fields => ',' :: (quoted key ++ ':' :: (chars value ++ fieldsTail fields))

end

/-- The compact text of a value. -/
def text (value : Json) : String :=
  String.ofList value.chars

example : text (.object [("a", .array [ofInt 1, .null]), ("\"", .string "\n\x01")]) =
    "\x7b\"a\":[1,null],\"\\\"\":\"\\n\\u0001\"\x7d" := by
  decide +kernel

end GraphCache.Json
