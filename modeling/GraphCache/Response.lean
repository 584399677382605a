import GraphCache.Error.Basic
import GraphCache.Json.Written

/-!
# Requests and responses

The two messages of the GraphQL protocol and their text form. Reading ignores unknown keys and
refuses repeated known ones; a message may also be given as a list of its parts in order, of which
the last ones may be missing.

## Main definitions

* `Request`, `Response`: the messages.
* `Request.toJson`, `Response.toJson`: their form as JSON.
* `Request.ofText?`, `Response.ofText?`, `GraphQLError.ofText?`: reading their text.
-/

namespace GraphCache

/-- A request. -/
structure Request where
  /-- The text of the query. -/
  query : Option String := none
  /-- The name of the operation to execute. -/
  operationName : Option String := none
  /-- The values of variables. -/
  variableValues : Object := []

/-- A response. -/
structure Response where
  /-- The data; a `null` in the text of a response counts as absent. -/
  data : Option Json := none
  /-- The errors, in the order of their fields in the query. -/
  errors : List GraphQLError := []

namespace Request

/-- The request as JSON; absent parts and empty variables are left out. -/
def toJson (request : Request) : Json :=
  .object <|
    (request.query.map fun query => ("query", Json.string query)).toList
      ++ (request.operationName.map fun name => ("operationName", Json.string name)).toList
      ++ if request.variableValues.isEmpty then []
        else [("variables", .object request.variableValues)]

/-- Whether all parts are absent. -/
def isDefault (request : Request) : Bool :=
  request.query.isNone && request.operationName.isNone && request.variableValues.isEmpty

end Request

namespace Response

/-- Whether no error was reported. -/
def isComplete (response : Response) : Bool :=
  response.errors.isEmpty

/-- The response as JSON; absent data and an empty list of errors are left out. -/
def toJson (response : Response) : Json :=
  .object <|
    (response.data.map fun data => ("data", data)).toList
      ++ if response.errors.isEmpty then []
        else [("errors", .array (response.errors.map GraphQLError.toJson))]

end Response

/-! ### Reading -/

namespace Json.Written

/-- Arrays and objects of a message nest no deeper than this. -/
def messageLevels : Nat :=
  127

/-- The parts of a message with the given keys, each absent or as it is written. A list gives the
parts in order. -/
def parts? (keys : List String) : Written → Option (List (Option Written))
  | .object fields => do
    let named ← fields.mapM fun (units, value) => (unitsText? units).map (·, value)
    keys.mapM fun key =>
      match named.filter (·.1 == key) with
      | [] => some none
      | [(_, value)] => some (some value)
      | _ => none
  | .array items =>
    if keys.length < items.length then none
    else some ((items.map some) ++ List.replicate (keys.length - items.length) none)
  | .scalar _ => none

/-- An optional part: absent, `null` or whatever can be read as a value. -/
def optional? {α : Type} (read : Json → Option α) (levels : Nat) :
    Option Written → Option (Option α)
  | none => some none
  | some (.scalar .null) => some none
  | some written => (written.value? levels).bind fun value => (read value).map some

/-- A part with a default, which only replaces an absent part. -/
def withDefault? {α : Type} (default : α) (read : Json → Option α) (levels : Nat) :
    Option Written → Option α
  | none => some default
  | some written => (written.value? levels).bind read

end Json.Written

open Json (Written)

/-- Reads an error that has been taken apart. -/
def GraphQLError.ofWritten? (levels : Nat) (written : Written) : Option GraphQLError := do
  match ← written.parts? ["message", "path", "extensions"] with
  | [message, path, extensions] =>
    let message ← Written.withDefault? "" Json.string? levels message
    let path ← Written.optional? Path.ofJson? levels path
    let extensions ← Written.withDefault? [] Json.object? levels extensions
    return ⟨message, path, extensions⟩
  | _ => none

/-- Reads the text of an error. -/
def GraphQLError.ofText? (text : String) : Option GraphQLError :=
  (Written.ofText? text).bind (GraphQLError.ofWritten? (Written.messageLevels - 1))

/-- Reads the text of a request. -/
def Request.ofText? (text : String) : Option Request := do
  let levels := Written.messageLevels - 1
  match ← (← Written.ofText? text).parts? ["query", "operationName", "variables"] with
  | [query, operationName, vars] =>
    let query ← Written.optional? Json.string? levels query
    let operationName ← Written.optional? Json.string? levels operationName
    let variableValues ← Written.withDefault? [] Json.object? levels vars
    return ⟨query, operationName, variableValues⟩
  | _ => none

/-- Reads the errors of a response. -/
def Response.errorsOfWritten? (levels : Nat) : Option Written → Option (List GraphQLError)
  | none => some []
  | some (.array items) => items.mapM (GraphQLError.ofWritten? (levels - 2))
  | some _ => none

/-- Reads the text of a response. -/
def Response.ofText? (text : String) : Option Response := do
  let levels := Written.messageLevels - 1
  match ← (← Written.ofText? text).parts? ["data", "errors"] with
  | [data, errors] =>
    let data ← Written.optional? some levels data
    let errors ← Response.errorsOfWritten? levels errors
    return ⟨data, errors⟩
  | _ => none

end GraphCache
