import GraphCache.Context
import GraphCache.Json.Text
import GraphCache.Resolver.Basic

/-!
# Scripted resolvers

A small language in which resolvers can be described. Scripts read the inputs of the resolver and
read and count in a context; every call of a scripted resolver is logged.

## Main definitions

* `Script`: the language; `Script.ofJson?` reads it.
* `Session`: the world of scripted resolvers, a context and a log.
* `Script.run`: evaluates a script.
* `ScriptedResolver.resolver`: the resolver that a script describes.
-/

namespace GraphCache

/-- How a value is computed. -/
inductive Script where
  /-- A fixed value. -/
  | const (value : Json)
  /-- A failure. -/
  | fail (reason : String)
  /-- A field of the parent object. -/
  | parent (name : String)
  /-- An argument. -/
  | argument (name : String)
  /-- A variable of the request. -/
  | var (name : String)
  /-- The whole parent object. -/
  | parentObject
  /-- All arguments. -/
  | allArguments
  /-- All variables of the request. -/
  | allVariables
  /-- An entry of the context. -/
  | context (key : String)
  /-- The next value of a counter in the context. -/
  | count (key : String)
  /-- A record of the cache. -/
  | record (key : String)
  /-- A reference whose key is given by an argument. -/
  | referenceTo (argument : String)
  /-- An object of computed values. -/
  | object (fields : List (String × Script))
  /-- A list of computed values. -/
  | list (items : List Script)

/-- The world of scripted resolvers. -/
structure Session where
  /-- The context shared by all resolvers. -/
  context : Context := []
  /-- The calls so far, the latest last. -/
  calls : List String := []

/-- The inputs of a resolver. -/
structure ResolverInput where
  /-- The object that holds the field. -/
  parent : Object
  /-- The values of the field's arguments. -/
  arguments : Object
  /-- What is the same for all resolvers of an execution. -/
  scope : ResolverScope

namespace Session

/-- Adds a call to the log. -/
def log (call : String) : StateM Session Unit :=
  modify fun session => { session with calls := session.calls ++ [call] }

/-- Increments a counter, which starts from zero, and returns its new value. -/
def count (key : String) : StateM Session ResolverResult := do
  let session ← get
  let (result, context) := Context.upsert Codec.int64 session.context key (· + 1) 0
  set { session with context := context }
  match result, Dict.get? context key with
  | .ok (), some value => return .ok value
  | _, _ => return .error "counter is not an integer"

end Session

namespace Script

/-- A value or `null`. -/
def orNull (value : Option Json) : ResolverResult :=
  .ok (value.getD .null)

mutual

/-- Evaluates a script. -/
def run (input : ResolverInput) : Script → StateM Session ResolverResult
  | const value => return .ok value
  | fail reason => return .error reason
  | parent name => return orNull (Dict.get? input.parent name)
  | argument name => return orNull (Dict.get? input.arguments name)
  | var name => return orNull (Dict.get? input.scope.variableValues name)
  | parentObject => return .ok (.object input.parent)
  | allArguments => return .ok (.object input.arguments)
  | allVariables => return .ok (.object input.scope.variableValues)
  | context key => return orNull (Dict.get? (← get).context key)
  | count key => Session.count key
  | record key =>
    return match input.scope.store.get key with
      | .ok fields => .ok (.object fields)
      | .error error => .error error.message
  | referenceTo name =>
    return match (Dict.get? input.arguments name).bind Json.string? with
      | some key => .ok (Json.reference key)
      | none => .error ("no argument " ++ name)
  | object fields => do return (← runFields input fields).map (.object ∘ Dict.ofPairs)
  | list items => do return (← runItems input items).map .array

/-- Evaluates the listed scripts in order, up to the first failure. -/
def runItems (input : ResolverInput) : List Script → StateM Session (Except String (List Json))
  | [] => return .ok []
  | item :: items => do
    match ← run input item with
    | .error reason => return .error reason
    | .ok value => return (← runItems input items).map (value :: ·)

/-- Evaluates the listed fields in order, up to the first failure. -/
def runFields (input : ResolverInput) :
    List (String × Script) → StateM Session (Except String (List (String × Json)))
  | [] => return .ok []
  | (name, item) :: fields => do
    match ← run input item with
    | .error reason => return .error reason
    | .ok value => return (← runFields input fields).map ((name, value) :: ·)

end

mutual

/-- Reads a script: an object whose only key tells what is computed. -/
def ofJson? : Json → Option Script
  | .object [("const", value)] => some (const value)
  | .object [("fail", .string reason)] => some (fail reason)
  | .object [("parent", .string name)] => some (parent name)
  | .object [("arg", .string name)] => some (argument name)
  | .object [("var", .string name)] => some (var name)
  | .object [("parent_object", _)] => some parentObject
  | .object [("args", _)] => some allArguments
  | .object [("vars", _)] => some allVariables
  | .object [("context", .string key)] => some (context key)
  | .object [("count", .string key)] => some (count key)
  | .object [("record", .string key)] => some (record key)
  | .object [("ref_arg", .string name)] => some (referenceTo name)
  | .object [("object", .object fields)] => (fieldsOfJson? fields).map object
  | .object [("list", .array items)] => (itemsOfJson? items).map list
  | _ => none

/-- Reads a list of scripts. -/
def itemsOfJson? : List Json → Option (List Script)
  | [] => some []
  | item :: items => do
    let first ← ofJson? item
    let rest ← itemsOfJson? items
    return first :: rest

/-- Reads named scripts. -/
def fieldsOfJson? : List (String × Json) → Option (List (String × Script))
  | [] => some []
  | (name, item) :: fields => do
    let first ← ofJson? item
    let rest ← fieldsOfJson? fields
    return (name, first) :: rest

end

end Script

/-- When a scripted resolver answers. -/
inductive Timing where
  /-- At once. -/
  | immediate
  /-- Through a task that has to be resumed the given number of times before it is finished. -/
  | delayed (polls : Nat)
  /-- At once for an even number of arguments, else through a task; calls are not logged. -/
  | byArgumentCount

/-- A resolver described by a script. -/
structure ScriptedResolver where
  /-- The type that it is registered for. -/
  typeName : String
  /-- The field that it is registered for. -/
  field : String
  /-- How it computes the value. -/
  script : Script
  /-- When it answers. -/
  timing : Timing

namespace ScriptedResolver

/-- A call as it is logged. -/
def call (scripted : ScriptedResolver) (verb : String) (arguments : Object) : String :=
  verb ++ " " ++ scripted.typeName ++ "." ++ scripted.field ++ (Json.object arguments).text

/-- The resolver that a script describes. -/
def resolver (scripted : ScriptedResolver) : Resolver Session :=
  fun parent arguments scope =>
    let run := scripted.script.run ⟨parent, arguments, scope⟩
    match scripted.timing with
    | .immediate => do
      Session.log (scripted.call "call" arguments)
      return .ready (← run)
    | .delayed polls => do
      Session.log (scripted.call "start" arguments)
      return .pending ⟨polls, do
        Session.log (scripted.call "end" arguments)
        run⟩
    | .byArgumentCount => do
      let result ← run
      return if arguments.length % 2 = 0 then .ready result else .pending ⟨0, return result⟩

/-- Registers scripted resolvers in order. -/
def registry (resolvers : List ScriptedResolver) : Registry Session :=
  resolvers.foldl (fun registry scripted =>
    registry.register scripted.typeName scripted.field scripted.resolver) []

end ScriptedResolver

end GraphCache
