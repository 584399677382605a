import GraphCache.Json.Basic

/-!
# Contexts

A context holds data that callers hand to resolvers and that resolvers leave behind. Entries are
JSON values; typed access goes through a codec, either direction of which may fail.

## Main definitions

* `Codec`: conversion of a type to and from JSON values.
* `Context.get`, `Context.insert`, `Context.upsert`: typed access to entries.
-/

namespace GraphCache

/-- Conversion of a type to and from JSON values. Either direction may fail, and they need not be
inverse to each other. -/
structure Codec (α : Type) where
  /-- The value as JSON. -/
  encode : α → Except String Json
  /-- Reads a value. -/
  decode : Json → Except String α

namespace Codec

/-- JSON values as they are. -/
def json : Codec Json :=
  ⟨.ok, .ok⟩

/-- Strings. -/
def string : Codec String :=
  ⟨fun text => .ok (.string text),
    fun value => match value with
      | .string text => .ok text
      | other => .error ("a string is expected instead of a value of kind " ++ other.kind)⟩

/-- Truth values. -/
def bool : Codec Bool :=
  ⟨fun b => .ok (.bool b),
    fun value => match value with
      | .bool b => .ok b
      | other => .error ("a boolean is expected instead of a value of kind " ++ other.kind)⟩

/-- Signed 64-bit integers; floating-point numbers are not among them, whatever their value. -/
def int64 : Codec Int64 :=
  ⟨fun n => .ok (Json.ofInt n.toInt),
    fun value => match value with
      | .number n =>
        match n.toInt64? with
        | some i => .ok (Int64.ofInt i)
        | none => .error "the number is not a signed 64-bit integer"
      | other => .error ("an integer is expected instead of a value of kind " ++ other.kind)⟩

end Codec

/-- The entries of a context by key. -/
abbrev Context := Dict Json

namespace Context

variable {α : Type}

/-- The entry with a key, if there is one. -/
def get (codec : Codec α) (context : Context) (key : String) : Except String (Option α) :=
  match Dict.get? context key with
  | none => .ok none
  | some entry => (codec.decode entry).map some

/-- Sets an entry and returns the previous one. If only the previous entry cannot be read, the new
one has been set all the same. -/
def insert (codec : Codec α) (context : Context) (key : String) (value : α) :
    Except String (Option α) × Context :=
  match codec.encode value with
  | .error reason => (.error reason, context)
  | .ok entry => (get codec context key, Dict.insert context key entry)

/-- Updates an entry, after setting it to a default if there is none. If the update fails, the
entry keeps the value it had before the update. -/
def upsert (codec : Codec α) (context : Context) (key : String) (update : α → α) (default : α) :
    Except String Unit × Context :=
  let prepared : Except String (Json × Context) :=
    match Dict.get? context key with
    | some entry => .ok (entry, context)
    | none => (codec.encode default).map fun entry => (entry, Dict.insert context key entry)
  match prepared with
  | .error reason => (.error reason, context)
  | .ok (entry, context) =>
    match codec.decode entry >>= fun value => codec.encode (update value) with
    | .error reason => (.error reason, context)
    | .ok entry => (.ok (), Dict.insert context key entry)

end Context

end GraphCache
