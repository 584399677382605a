import GraphCache.Execution.Work

/-!
# Completing selections

A selection plan is completed against an object: remote fields are copied from it, local fields are
computed by resolvers. References are followed into the cache. A field that fails is `null` and
leaves a fault; a field whose resolver answers with a task is `null` for the time being.

An entity that was completed twice for the same selection set without leaving any work is not
completed again.

## Main definitions

* `Execution`: what one execution depends on.
* `Run`: a computation in an execution, with the world of resolvers, the completed entities and the
  number of deferred fields as its state.
* `Execution.completeValue`, `Execution.completeFields`: completion of values and of objects.
* `Execution.completeResolved`: completion of the result of a resolver.
-/

namespace GraphCache

/-- What happens when a reference leads to no record. -/
inductive MissingEntityPolicy where
  /-- The field is `null` and an error is reported. -/
  | nullify
  /-- The execution ends. -/
  | abort
  deriving DecidableEq

/-- How fields are looked up in the objects being read. -/
inductive ReadMode where
  /-- In cache records, by storage name. -/
  | record
  /-- In payloads and results of resolvers, by response key. -/
  | payload
  deriving DecidableEq

/-- What one execution depends on. -/
structure Execution (World : Type) where
  /-- The type from which the operation selects. -/
  rootType : String
  /-- The resolvers. -/
  registry : Registry World
  /-- The content of the cache. -/
  store : Snapshot
  /-- The variables of the request, with default values. -/
  variableValues : Object
  /-- What happens when a reference leads to no record. -/
  missingEntities : MissingEntityPolicy := .nullify

/-- Completed entities by key and number of the selection set, the latest first. An entity that was
completed once is marked; from the second time on its object is kept. -/
abbrev Memo := List ((String × Nat) × Option Object)

/-- What is known about an entity. -/
def Memo.find? (memo : Memo) (key : String × Nat) : Option (Option Object) :=
  (List.find? (fun entry => entry.1 == key) memo).map (·.2)

/-- The state of an execution. -/
structure RunState (World : Type) where
  /-- The world of the resolvers. -/
  world : World
  /-- The entities completed so far. -/
  memo : Memo := []
  /-- The number of fields deferred so far. -/
  nextId : Nat := 0

/-- A computation in an execution; an error ends the execution. -/
abbrev Run (World : Type) := ExceptT ExecutionError (StateM (RunState World))

/-- A completed value, and the work that it leaves behind. -/
abbrev Completed (World α : Type) := α × Work World

/-- Lets a resolver act on the world. -/
def Run.act {World α : Type} (action : StateM World α) : Run World α :=
  fun state =>
    let (value, world) := action.run state.world
    (.ok value, { state with world })

/-- Completes an object for one selection set, given how its fields are looked up, its type where
it is known from the outside, and its position. -/
abbrev Expand (World : Type) :=
  Object → ReadMode → Option String → Trail → Run World (Completed World Object)

namespace Execution

variable {World : Type} (execution : Execution World)

/-- The value of a field that failed. -/
def failed (trail : Trail) (error : FieldError) : Run World (Completed World Json) :=
  return (.null, .ofFault trail error)

/-- A reference that leads to no record. -/
def missingEntity (key : String) (trail : Trail) : Run World (Completed World Json) :=
  match execution.missingEntities with
  | .abort => throw (.missingEntity key trail.path)
  | .nullify => failed trail (.missingEntity key)

/-- Keeps what is now known about an entity. -/
def remember (key : String × Nat) (entry : Option Object) : Run World Unit :=
  modify fun state => { state with memo := (key, entry) :: state.memo }

/-- Completes the entity with a key for the selection set with a number. Only an object that leaves
no work behind does not depend on its position and can be reused. -/
def completeEntity (id : Nat) (expand : Expand World) (key : String) (record : Object)
    (trail : Trail) : Run World (Completed World Json) := do
  let known := (← get).memo.find? (key, id)
  match known with
  | some (some object) => return (.object object, .none)
  | _ =>
    let (object, work) ← expand record .record none trail
    if work.isClean then
      remember (key, id) (if known.isSome then some object else none)
    return (.object object, work)

mutual

/-- Completes a value of a field with nested selections. -/
def completeValue (id : Nat) (expand : Expand World) (mode : ReadMode)
    (typeHint : Option String) (trail : Trail) : Json → Run World (Completed World Json)
  | .null => return (.null, .none)
  | .array items => do
    let (values, work) ← completeItems id expand mode typeHint trail 0 items
    return (.array values, work)
  | .object fields =>
    match execution.store.resolve (.object fields) with
    | .entity key record => completeEntity id expand key record trail
    | .missing key => execution.missingEntity key trail
    | .notReference => do
      let (object, work) ← expand fields mode typeHint trail
      return (.object object, work)
  | scalar => failed trail (.shapeMismatch "object" scalar.kind)

/-- Completes the items of a list, of which the first has the given index. -/
def completeItems (id : Nat) (expand : Expand World) (mode : ReadMode)
    (typeHint : Option String) (trail : Trail) (position : Nat) :
    List Json → Run World (Completed World (List Json))
  | [] => return ([], .none)
  | item :: items => do
    let (value, work) ← completeValue id expand mode typeHint (trail.index position) item
    let (values, more) ← completeItems id expand mode typeHint trail (position + 1) items
    return (value :: values, work ++ more)

end

/-- The value that a remote field reads from an object. -/
def remoteValue? (field : PlannedField) (object : Object) (mode : ReadMode) : Option Json :=
  match mode with
  | .record => Dict.get? object (field.storageNameFor execution.variableValues)
  | .payload => Dict.get? object field.responseKey

/-- Completes a remote field; `complete` treats the value that is found. -/
def completeRemote (complete : Json → Trail → Run World (Completed World Json))
    (field : PlannedField) (object : Object) (mode : ReadMode) (knownType : Option String)
    (trail : Trail) : Run World (Completed World Json) :=
  match execution.remoteValue? field object mode with
  | some value => complete value trail
  | none =>
    match field.isTypename, knownType with
    | true, some typeName => return (.string typeName, .none)
    | _, _ => failed trail (.missingField field.name)

/-- The value of a remote field without nested selections, which must not be a reference. -/
def completeLeaf (value : Json) (trail : Trail) : Run World (Completed World Json) :=
  if value.containsReference then failed trail (.shapeMismatch "leaf value" value.kind)
  else return (value, .none)

/-- Leaves a field to a task. -/
def defer (plan : FieldPlan) (typeName : String) (task : Task World) (trail : Trail) :
    Run World (Completed World Json) := do
  let state ← get
  set { state with nextId := state.nextId + 1 }
  return (.null, .ofDeferred ⟨state.nextId, trail, plan, typeName, task⟩)

/-- The error of a resolver that failed. -/
def resolverFailure (plan : FieldPlan) (typeName reason : String) : FieldError :=
  .resolverFailure typeName plan.field.name reason

/-- Completes a local field; `complete` treats the result of the resolver. -/
def completeLocal (complete : Json → Trail → Run World (Completed World Json))
    (plan : FieldPlan) (object : Object) (knownType : Option String) (trail : Trail) :
    Run World (Completed World Json) :=
  let typeName := knownType.getD execution.rootType
  match execution.registry.lookup typeName plan.field.name with
  | none => failed trail (.unresolvedLocalField typeName plan.field.name)
  | some resolver => do
    let arguments := plan.field.boundArguments execution.variableValues
    match ← Run.act (resolver object arguments ⟨execution.variableValues, execution.store⟩) with
    | .ready (.ok value) => complete value trail
    | .ready (.error reason) => failed trail (resolverFailure plan typeName reason)
    | .pending task => defer plan typeName task trail

/-- The type of an object as far as it is known at one of its fields: from the object, from the
query or from the outside. -/
def knownType (field : PlannedField) (object : Object) (typeHint : Option String) :
    Option String :=
  (typename? object).or (field.parentType.or typeHint)

mutual

/-- Completes one field of an object. -/
def completeField (plan : FieldPlan) (object : Object) (mode : ReadMode)
    (known : Option String) (trail : Trail) : Run World (Completed World Json) :=
  match plan with
  | .leaf field =>
    if field.isLocal then
      execution.completeLocal (fun value _ => return (value, .none))
        (.leaf field) object known trail
    else execution.completeRemote completeLeaf field object mode known trail
  | .nested field id fields =>
    let expand : Expand World := fun inner mode typeHint trail =>
      completeFields fields 0 inner mode typeHint trail .empty
    if field.isLocal then
      execution.completeLocal
        (fun value trail => execution.completeValue id expand .payload none trail value)
        (.nested field id fields) object known trail
    else
      execution.completeRemote
        (fun value trail => execution.completeValue id expand mode none trail value)
        field object mode known trail

/-- Completes the listed fields of an object, of which the first has the given position in its
selection set, after those that have been assembled already. -/
def completeFields (plans : List FieldPlan) (position : Nat) (object : Object) (mode : ReadMode)
    (typeHint : Option String) (trail : Trail) (assembler : Assembler World) :
    Run World (Completed World Object) :=
  match plans with
  | [] => return (assembler.object, assembler.work)
  | plan :: plans =>
    if plan.field.isSelected execution.variableValues (typename? object) then do
      let (value, work) ← completeField plan object mode
        (knownType plan.field object typeHint) (trail.field position plan.field.responseKey)
      let (assembler, _) := assembler.insert plan.field.responseKey value work
      completeFields plans (position + 1) object mode typeHint trail assembler
    else completeFields plans (position + 1) object mode typeHint trail assembler

end

/-- Completes an object for a selection set. -/
def completeObject (fields : List FieldPlan) : Expand World :=
  fun object mode typeHint trail =>
    execution.completeFields fields 0 object mode typeHint trail .empty

/-- Completes the result of a resolver for its field. -/
def completeResolved (plan : FieldPlan) (value : Json) (trail : Trail) :
    Run World (Completed World Json) :=
  match plan with
  | .leaf _ => return (value, .none)
  | .nested _ id fields =>
    execution.completeValue id (execution.completeObject fields) .payload none trail value

end Execution

end GraphCache
