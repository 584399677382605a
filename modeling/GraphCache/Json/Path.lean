import GraphCache.Json.Basic
import GraphCache.Text.Scan

/-!
# Paths into JSON values

A path is a list of keys and indices. It leads to a slot of a value, which can be read or replaced.

## Main definitions

* `PathElement`, `Path`: keys and indices.
* `Json.at?`, `Json.replaceAt?`: reading and replacing the slot at a path.
* `Path.ofText`, `Path.text`: the textual form, every element behind a slash.
* `Path.toJson`, `Path.ofJson?`: the form as an array of strings and integers.
-/

namespace GraphCache

/-- One step of a path. -/
inductive PathElement where
  /-- The item of a list at an index. -/
  | index (position : Nat)
  /-- The field of an object under a key. -/
  | key (name : String)
  deriving DecidableEq

/-- The steps from a value to a slot inside it. -/
abbrev Path := List PathElement

namespace Json

/-- The slot that one step leads to. -/
def child? : Json → PathElement → Option Json
  | .array items, .index position => items[position]?
  | .object fields, .key name => Dict.get? fields name
  | _, _ => none

/-- The value whose slot at one step has been set; the slot is known to exist. -/
def setChild : Json → PathElement → Json → Json
  | .array items, .index position, value => .array (items.set position value)
  | .object fields, .key name, value => .object (Dict.insert fields name value)
  | target, _, _ => target

/-- The slot at a path. -/
def at? (target : Json) : Path → Option Json
  | [] => some target
  | step :: path => (target.child? step).bind (at? · path)

/-- The value after its slot at a path has been replaced, if there is such a slot. -/
def replaceAt? (target : Json) (path : Path) (value : Json) : Option Json :=
  match path with
  | [] => some value
  | step :: path => do
    let inner ← target.child? step
    let inner ← replaceAt? inner path value
    return target.setChild step inner

end Json

namespace PathElement

/-- Indices fit an unsigned 64-bit word. -/
def indexLimit : Nat :=
  0x10000000000000000

/-- The index that a segment denotes: digits behind an optional plus sign, below the limit. -/
def indexOfSegment? (segment : List Char) : Option Nat :=
  let digits := match segment with
    | '+' :: rest => rest
    | rest => rest
  if digits.isEmpty || !digits.all Char.isDigit then none
  else
    let value := Scan.naturalValue digits
    if value < indexLimit then some value else none

/-- A segment of a textual path: an index where it denotes one, else a key. -/
def ofSegment (segment : List Char) : PathElement :=
  match indexOfSegment? segment with
  | some position => index position
  | none => key (String.ofList segment)

/-- An element as a segment. -/
def segment : PathElement → List Char
  | index position => Nat.toDigits 10 position
  | key name => name.toList

/-- An element as a JSON value. -/
def toJson : PathElement → Json
  | index position => Json.ofNat position
  | key name => .string name

/-- Non-negative integers are indices and strings are keys. -/
def ofJson? : Json → Option PathElement
  | .number (.integer value _ _) => if 0 ≤ value then some (index value.toNat) else none
  | .string name => some (key name)
  | _ => none

end PathElement

namespace Path

/-- The runs of characters between slashes, empty ones included. -/
def segments : List Char → List (List Char)
  | [] => [[]]
  | c :: cs =>
    if c = '/' then [] :: segments cs
    else
      match segments cs with
      | [] => [[c]]
      | first :: rest => (c :: first) :: rest

/-- Reads the textual form; empty segments are left out. -/
def ofChars (text : List Char) : Path :=
  ((segments text).filter (!·.isEmpty)).map PathElement.ofSegment

/-- Writes every element behind a slash. -/
def chars : Path → List Char
  | [] => []
  | element :: path => '/' :: (element.segment ++ chars path)

/-- Reads the textual form of a path. -/
def ofText (text : String) : Path :=
  ofChars text.toList

/-- The textual form of a path. -/
def text (path : Path) : String :=
  String.ofList (chars path)

/-- The path as a JSON array. -/
def toJson (path : Path) : Json :=
  .array (path.map PathElement.toJson)

/-- Reads a path from a JSON array. -/
def ofJson? : Json → Option Path
  | .array items => items.mapM PathElement.ofJson?
  | _ => none

example : ofText "//items/+3/name" = [.key "items", .index 3, .key "name"] := by decide +kernel

end Path

end GraphCache
