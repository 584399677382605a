import GraphCache.Execution.Completion
import GraphCache.Yaml.Node

/-!
# Configuration

What a client can be configured to do: the policy for missing entities, the size of the plan cache,
the directive that marks local fields, and the key fields of types.

## Main definitions

* `Config`, `Config.validate`: a configuration, and the conditions that it has to satisfy.
* `Config.ofText`: reads a configuration file.
* `Config.toJson`: the configuration as JSON.
-/

namespace GraphCache

/-- A configuration. -/
structure Config where
  /-- What happens when a reference leads to no record. -/
  missingEntities : MissingEntityPolicy := .nullify
  /-- The number of plans that are kept. -/
  planCacheLimit : Nat := 512
  /-- The name of the directive that marks local fields. -/
  localDirective : String := Query.defaultLocalDirective
  /-- The key fields of types. -/
  typePolicies : TypePolicies := []
  deriving DecidableEq

/-- Why there is no configuration. -/
inductive ConfigError where
  /-- A condition is violated. -/
  | invalid (condition reason : String)
  /-- The text does not describe a configuration. -/
  | unreadable
  deriving DecidableEq

/-- What went wrong. -/
def ConfigError.message : ConfigError → String
  | invalid condition reason => condition ++ ": " ++ reason
  | unreadable => "could not deserialize configuration"

/-- The name of a policy for missing entities. -/
def MissingEntityPolicy.name : MissingEntityPolicy → String
  | nullify => "nullify"
  | abort => "abort"

/-- The policy with a name. -/
def MissingEntityPolicy.ofName? : String → Option MissingEntityPolicy
  | "nullify" => some nullify
  | "abort" => some abort
  | _ => none

namespace Config

/-- The configuration, if plans can be kept, local fields can be marked and every policy has a key
field. -/
def validate (config : Config) : Except ConfigError Config :=
  if config.planCacheLimit = 0 then
    .error (.invalid "plan cache limit must be greater than zero" "plan_cache.limit is 0")
  else if config.localDirective.isEmpty then
    .error (.invalid "local directive name cannot be empty" "local_directive is empty")
  else
    match config.typePolicies.find? (·.2.isEmpty) with
    | some (typeName, _) =>
      .error (.invalid "type policies need at least one key field"
        (typeName ++ " has no key_fields"))
    | none => .ok config

/-! ### Reading -/

/-- The text of a scalar, whatever else it may denote. -/
def text? : Yaml → Option String
  | .scalar text _ _ => some text
  | _ => none

/-- The digits of a number in some base, as its value. -/
def digitsValue? (base : Nat) (digits : List Char) : Option Nat :=
  if digits.isEmpty then none
  else digits.foldlM (fun n c => (Scan.hexValue? c).bind fun digit =>
    if digit < base then some (base * n + digit) else none) 0

/-- The base that a zero and a letter name, and what follows them. -/
def base? : List Char → Option (Nat × List Char)
  | '0' :: 'x' :: digits => some (16, digits)
  | '0' :: 'o' :: digits => some (8, digits)
  | '0' :: 'b' :: digits => some (2, digits)
  | _ => none

/-- The value of decimal digits without a leading zero. -/
def decimal? : List Char → Option Nat
  | '0' :: _ :: _ => none
  | digits => digitsValue? 10 digits

/-- The natural number that a plain scalar denotes, with an optional sign. A plus sign may also
stand behind the base. -/
def plainNatural? (text : List Char) : Option Nat :=
  match text with
  | '-' :: text =>
    let magnitude := match base? text with
      | some (base, digits) => digitsValue? base digits
      | none => decimal? text
    magnitude.filter (· = 0)
  | '+' :: text | text =>
    match base? text with
    | some (base, '+' :: digits) | some (base, digits) => digitsValue? base digits
    | none => decimal? text

/-- The natural number of a scalar that is tagged as an integer, with an optional sign. -/
def taggedNatural? (text : List Char) : Option Nat :=
  match text with
  | '-' :: digits => (digitsValue? 10 digits).filter (· = 0)
  | '+' :: digits | digits => (digitsValue? 10 digits).filter (· < 0x8000000000000000)

/-- The natural number below `2 ^ 64` that a scalar denotes. -/
def natural? : Yaml → Option Nat
  | .scalar text true none => (plainNatural? text.toList).filter (· < 0x10000000000000000)
  | .scalar text _ (some ⟨"!!", "int"⟩) => taggedNatural? text.toList
  | _ => none

/-- The values of the given keys, each absent or given once; no other key is allowed. A sequence
gives the values in order. -/
def parts? (keys : List String) : Yaml → Option (List (Option Yaml))
  | .mapping entries => do
    let named ← entries.mapM fun (key, value) => (text? key).map (·, value)
    if named.all (·.1 ∈ keys) then
      keys.mapM fun key =>
        match named.filter (·.1 == key) with
        | [] => some none
        | [(_, value)] => some (some value)
        | _ => none
    else none
  | .sequence items =>
    if keys.length < items.length then none
    else some (items.map some ++ List.replicate (keys.length - items.length) none)
  | .scalar _ _ _ => none

/-- A part with a default. -/
def partOr {α : Type} (default : α) (read : Yaml → Option α) : Option Yaml → Option α
  | some value => read value
  | none => some default

/-- Reads a policy for missing entities: its name, which may be the key of an empty entry. A tag
that names a policy asks for a value of its own, which policies do not have. -/
def missingEntities? : Yaml → Option MissingEntityPolicy
  | .mapping [(name, value)] =>
    if value.isNull then (text? name).bind MissingEntityPolicy.ofName? else none
  | .scalar text _ tag =>
    let isPolicy (tag : Yaml.Tag) : Bool :=
      tag.handle == "!" && (MissingEntityPolicy.ofName? tag.suffix).isSome
    if tag.any isPolicy then none else MissingEntityPolicy.ofName? text
  | _ => none

/-- Reads the settings of the plan cache. -/
def planCacheLimit? (default : Nat) (value : Yaml) : Option Nat := do
  match ← parts? ["limit"] value with
  | [limit] => partOr default natural? limit
  | _ => none

/-- Reads the policy of one type. -/
def keyFields? (value : Yaml) : Option (List String) := do
  match ← parts? ["key_fields"] value with
  | [some (.sequence fields)] => fields.mapM text?
  | _ => none

/-- Reads the policies of types; of policies for one type the last one counts. -/
def typePolicies? : Yaml → Option TypePolicies
  | .mapping entries => do
    let policies ← entries.mapM fun (key, value) => do
      let typeName ← text? key
      let fields ← keyFields? value
      return (typeName, fields)
    return Dict.ofPairs policies
  | _ => none

/-- Reads a configuration. -/
def ofYaml? (value : Yaml) : Option Config := do
  let keys := ["missing_entities", "plan_cache", "local_directive", "type_policies"]
  let default : Config := {}
  match ← parts? keys value with
  | [missingEntities, planCache, localDirective, typePolicies] =>
    let missingEntities ← partOr default.missingEntities missingEntities? missingEntities
    let planCacheLimit ←
      partOr default.planCacheLimit (planCacheLimit? default.planCacheLimit) planCache
    let localDirective ← partOr default.localDirective text? localDirective
    let typePolicies ← partOr default.typePolicies typePolicies? typePolicies
    return { missingEntities, planCacheLimit, localDirective, typePolicies }
  | _ => none

/-- Reads a configuration file. -/
def ofText (text : String) : Except ConfigError Config :=
  match (Yaml.ofText? text).bind ofYaml? with
  | some config => config.validate
  | none => .error .unreadable

/-! ### Writing -/

/-- The configuration as JSON, the policies in the order of their types. -/
def toJson (config : Config) : Json :=
  .object [
    ("missing_entities", .string config.missingEntities.name),
    ("plan_cache", .object [("limit", Json.ofNat config.planCacheLimit)]),
    ("local_directive", .string config.localDirective),
    ("type_policies", .object ((Dict.sortKeys config.typePolicies).map fun (typeName, fields) =>
      (typeName, .object [("key_fields", .array (fields.map .string))])))]

end Config

end GraphCache
