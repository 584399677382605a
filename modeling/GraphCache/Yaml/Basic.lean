import GraphCache.Text.Scan

/-!
# YAML values

Scalars, sequences and mappings, as they are written: what a scalar denotes depends on its text, on
whether it is quoted, and on its tag.

## Main definitions

* `Yaml`: a value.
* `Yaml.isNull`: whether a value denotes `null`.
-/

namespace GraphCache

/-- The tag of a scalar. -/
structure Yaml.Tag where
  /-- The front of the tag, for instance one or two exclamation marks. -/
  handle : String
  /-- What follows the handle. -/
  suffix : String
  deriving DecidableEq

/-- A YAML value. Tags of collections have no meaning. -/
inductive Yaml where
  /-- A scalar; plain ones without a tag may denote numbers and `null`. -/
  | scalar (text : String) (isPlain : Bool) (tag : Option Yaml.Tag)
  | sequence (items : List Yaml)
  | mapping (entries : List (Yaml × Yaml))

namespace Yaml

/-- What stands where nothing is written. -/
def absent : Yaml :=
  .scalar "~" true none

/-- Whether a value denotes `null`. -/
def isNull : Yaml → Bool
  | .scalar text isPlain none => isPlain && (text == "~" || text == "null")
  | .scalar text _ (some tag) => tag == ⟨"!!", "null"⟩ && (text == "~" || text == "null")
  | _ => false

end Yaml

end GraphCache
