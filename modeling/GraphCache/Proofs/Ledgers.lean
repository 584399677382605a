import GraphCache.Execution.Basic
import GraphCache.Proofs.ReplacedFields
import Mathlib.Order.Interval.Finset.Nat

/-!
# Executions with a ledger

An execution hands the work that a value leaves behind to the field that asked for the value. It may
as well enter all of it in one ledger. The errors and the deferred fields of the whole execution are
numbered there in the order in which they occur, so that the numbers given out in the meantime tell
what a field has left behind. When a field is replaced, these numbers are noted, and whatever has
one of them is passed over from then on; the entries themselves stay where they are.

## Main definitions

* `Ledger`: the errors and the deferred fields of an execution, and which of them were replaced.
* `Mark`, `Span`: how far a ledger has got, and what was entered since.
* `Ledger.reports`: the errors that are reported in the end.
* `SpanAssembler`: an object under construction, with the spans of its fields.
* `LedgerExecution`: an execution with a ledger; `Execution.withLedger` makes one.
* `LedgerExecution.completeValue`, `LedgerExecution.completeFields`,
  `LedgerExecution.completeFinished`: its completion of values, of objects and of deferred fields.
-/

namespace GraphCache

variable {World α : Type}

/-- An error, with the positions that tell its place among the errors. -/
abbrev PlacedError := List Nat × GraphQLError

/-- The fault as it is entered in a ledger. -/
def Fault.placed (fault : Fault) : PlacedError :=
  (fault.trail.order, fault.toGraphQLError)

/-- What has happened in an execution. -/
structure Ledger (World : Type) where
  /-- The world of the resolvers. -/
  world : World
  /-- The entities completed so far. -/
  memo : Memo := []
  /-- All errors, which are numbered by their places in the list. -/
  errors : List PlacedError := []
  /-- Deferred fields that were not polled yet. -/
  pending : List (Deferred World) := []
  /-- The number of the next field to be deferred. -/
  nextPending : Nat := 0
  /-- The numbers of the deferred fields that were replaced. -/
  superseded : Finset Nat := ∅
  /-- The numbers of the errors of fields that were replaced. -/
  droppedErrors : Finset Nat := ∅

/-- How far a ledger has got. -/
structure Mark where
  /-- The number of the next field to be deferred. -/
  pending : Nat
  /-- The number of the next error. -/
  errors : Nat

/-- The numbers of the deferred fields and of the errors that are due to one field. -/
structure Span where
  /-- The numbers of the deferred fields. -/
  pending : Finset Nat
  /-- The numbers of the errors. -/
  errors : Finset Nat

/-- Whether there is nothing in the span. -/
def Span.isClean (span : Span) : Bool :=
  span.pending = ∅ && span.errors = ∅

namespace Ledger

variable (ledger : Ledger World)

/-- The ledger up to now. -/
def mark : Mark :=
  ⟨ledger.nextPending, ledger.errors.length⟩

/-- What was entered since the ledger had got to a mark. -/
def spanSince (mark : Mark) : Span :=
  ⟨Finset.Ico mark.pending ledger.nextPending, Finset.Ico mark.errors ledger.errors.length⟩

/-- Notes that the deferred fields and the errors of a span are due to a field that was replaced. -/
def supersede (span : Span) : Ledger World :=
  { ledger with
    superseded := ledger.superseded ∪ span.pending
    droppedErrors := ledger.droppedErrors ∪ span.errors }

/-- Notes what was replaced, if anything was. -/
def supersede? (superseded : Option Span) : Ledger World :=
  superseded.elim ledger ledger.supersede

/-- Enters the error of the field at a position. -/
def enterError (trail : Trail) (error : FieldError) : Ledger World :=
  { ledger with errors := ledger.errors ++ [(trail.order, error.toGraphQLError trail.path)] }

/-- Enters a field that waits for a task. -/
def enterDeferred (plan : FieldPlan) (typeName : String) (task : Task World) (trail : Trail) :
    Ledger World :=
  { ledger with
    pending := ledger.pending ++ [⟨ledger.nextPending, trail, plan, typeName, task⟩]
    nextPending := ledger.nextPending + 1 }

/-- Keeps what is now known about an entity. -/
def remember (key : String × Nat) (entry : Option Object) : Ledger World :=
  { ledger with memo := (key, entry) :: ledger.memo }

/-- The deferred fields that were not replaced. -/
def livePending : List (Deferred World) :=
  ledger.pending.filter (·.id ∉ ledger.superseded)

/-- The errors that are not those of replaced fields, with their numbers. -/
def liveErrors : List (PlacedError × Nat) :=
  ledger.errors.zipIdx.filter (·.2 ∉ ledger.droppedErrors)

/-- The errors that are reported, in the order of their positions. -/
def reports : List GraphQLError :=
  ((ledger.liveErrors.map Prod.fst).mergeSort fun a b => Trail.positionsLE a.1 b.1).map Prod.snd

end Ledger

/-- An object under construction. The first field with a response key fixes the key's place, the
last one its value. -/
structure SpanAssembler where
  /-- The fields so far. -/
  object : Object := []
  /-- The spans of the fields that are not clean, each under its response key. -/
  spans : List (String × Span) := []

namespace SpanAssembler

/-- Takes out the span of the field with a key; without such a field there is none. -/
def takeSpan (assembler : SpanAssembler) (key : String) : Option Span × List (String × Span) :=
  if Dict.contains assembler.object key then Dict.swapRemove assembler.spans key
  else (none, assembler.spans)

/-- Sets a field, and returns the span of the field that is replaced, if it was not clean. -/
def insert (assembler : SpanAssembler) (key : String) (value : Json) (span : Span) :
    SpanAssembler × Option Span :=
  let (superseded, others) := assembler.takeSpan key
  ({ object := Dict.insert assembler.object key value
     spans := if span.isClean then others else others ++ [(key, span)] },
    superseded)

end SpanAssembler

/-- A computation that keeps a ledger; an error ends the execution. -/
abbrev LedgerRun (World : Type) := ExceptT ExecutionError (StateM (Ledger World))

/-- Completes an object for one selection set, given how its fields are looked up, its type where
it is known from the outside, and its position. -/
abbrev LedgerExpand (World : Type) :=
  Object → ReadMode → Option String → Trail → LedgerRun World Object

namespace LedgerRun

/-- Lets a resolver act on the world. -/
def act (action : StateM World α) : LedgerRun World α := fun ledger =>
  let (value, world) := action.run ledger.world
  (.ok value, { ledger with world })

/-- The value of a field that failed. -/
def failed (trail : Trail) (error : FieldError) : LedgerRun World Json := do
  modify fun ledger => ledger.enterError trail error
  return .null

/-- Leaves a field to a task. -/
def defer (plan : FieldPlan) (typeName : String) (task : Task World) (trail : Trail) :
    LedgerRun World Json := do
  modify fun ledger => ledger.enterDeferred plan typeName task trail
  return .null

/-- Sets a field of an object, whose span began at a mark. If another field is replaced, this is
noted in the ledger. -/
def insert (assembler : SpanAssembler) (key : String) (value : Json) (mark : Mark) :
    LedgerRun World SpanAssembler := do
  let span := (← get).spanSince mark
  let (assembler, superseded) := assembler.insert key value span
  modify fun ledger => ledger.supersede? superseded
  return assembler

end LedgerRun

/-- An execution that keeps a ledger. -/
structure LedgerExecution (World : Type) extends Execution World

/-- The execution that keeps a ledger, with the same resolvers and the same cache. -/
def Execution.withLedger (execution : Execution World) : LedgerExecution World :=
  ⟨execution⟩

namespace LedgerExecution

variable (execution : LedgerExecution World)

/-- A reference that leads to no record. -/
def missingEntity (key : String) (trail : Trail) : LedgerRun World Json :=
  match execution.missingEntities with
  | .abort => throw (.missingEntity key trail.path)
  | .nullify => LedgerRun.failed trail (.missingEntity key)

/-- Completes the entity with a key for the selection set with a number. Only an object with a clean
span does not depend on its position and can be reused. -/
def completeEntity (id : Nat) (expand : LedgerExpand World) (key : String) (record : Object)
    (trail : Trail) : LedgerRun World Json := do
  let known := (← get).memo.find? (key, id)
  match known with
  | some (some object) => return .object object
  | _ =>
    let mark := (← get).mark
    let object ← expand record .record none trail
    if ((← get).spanSince mark).isClean then
      modify fun ledger => ledger.remember (key, id) (if known.isSome then some object else none)
    return .object object

mutual

/-- Completes a value of a field with nested selections. -/
def completeValue (id : Nat) (expand : LedgerExpand World) (mode : ReadMode)
    (typeHint : Option String) (trail : Trail) : Json → LedgerRun World Json
  | .null => return .null
  | .array items => do
    let values ← completeItems id expand mode typeHint trail 0 items
    return .array values
  | .object fields =>
    match execution.store.resolve (.object fields) with
    | .entity key record => completeEntity id expand key record trail
    | .missing key => execution.missingEntity key trail
    | .notReference => do
      let object ← expand fields mode typeHint trail
      return .object object
  | scalar => LedgerRun.failed trail (.shapeMismatch "object" scalar.kind)

/-- Completes the items of a list, of which the first has the given index. -/
def completeItems (id : Nat) (expand : LedgerExpand World) (mode : ReadMode)
    (typeHint : Option String) (trail : Trail) (position : Nat) :
    List Json → LedgerRun World (List Json)
  | [] => return []
  | item :: items => do
    let value ← completeValue id expand mode typeHint (trail.index position) item
    let values ← completeItems id expand mode typeHint trail (position + 1) items
    return value :: values

end

/-- Completes a remote field; `complete` treats the value that is found. -/
def completeRemote (complete : Json → Trail → LedgerRun World Json) (field : PlannedField)
    (object : Object) (mode : ReadMode) (knownType : Option String) (trail : Trail) :
    LedgerRun World Json :=
  match execution.remoteValue? field object mode with
  | some value => complete value trail
  | none =>
    match field.isTypename, knownType with
    | true, some typeName => return .string typeName
    | _, _ => LedgerRun.failed trail (.missingField field.name)

/-- The value of a remote field without nested selections, which must not be a reference. -/
def completeLeaf (value : Json) (trail : Trail) : LedgerRun World Json :=
  if value.containsReference then
    LedgerRun.failed trail (.shapeMismatch "leaf value" value.kind)
  else return value

/-- Completes a local field; `complete` treats the result of the resolver. -/
def completeLocal (complete : Json → Trail → LedgerRun World Json) (plan : FieldPlan)
    (object : Object) (knownType : Option String) (trail : Trail) : LedgerRun World Json :=
  let typeName := knownType.getD execution.rootType
  match execution.registry.lookup typeName plan.field.name with
  | none => LedgerRun.failed trail (.unresolvedLocalField typeName plan.field.name)
  | some resolver => do
    let arguments := plan.field.boundArguments execution.variableValues
    let context := ⟨execution.variableValues, execution.store⟩
    match ← LedgerRun.act (resolver object arguments context) with
    | .ready (.ok value) => complete value trail
    | .ready (.error reason) =>
      LedgerRun.failed trail (Execution.resolverFailure plan typeName reason)
    | .pending task => LedgerRun.defer plan typeName task trail

mutual

/-- Completes one field of an object. -/
def completeField (plan : FieldPlan) (object : Object) (mode : ReadMode)
    (known : Option String) (trail : Trail) : LedgerRun World Json :=
  match plan with
  | .leaf field =>
    if field.isLocal then
      execution.completeLocal (fun value _ => return value) (.leaf field) object known trail
    else execution.completeRemote completeLeaf field object mode known trail
  | .nested field id fields =>
    let expand : LedgerExpand World := fun inner mode typeHint trail =>
      completeFields fields 0 inner mode typeHint trail {}
    if field.isLocal then
      execution.completeLocal
        (fun value trail => execution.completeValue id expand .payload none trail value)
        (.nested field id fields) object known trail
    else
      execution.completeRemote
        (fun value trail => execution.completeValue id expand mode none trail value)
        field object mode known trail

/-- Completes the listed fields of an object, of which the first has the given position in its
selection set, after those that have been assembled already. -/
def completeFields (plans : List FieldPlan) (position : Nat) (object : Object) (mode : ReadMode)
    (typeHint : Option String) (trail : Trail) (assembler : SpanAssembler) :
    LedgerRun World Object :=
  match plans with
  | [] => return assembler.object
  | plan :: plans =>
    if plan.field.isSelected execution.variableValues (typename? object) then do
      let mark := (← get).mark
      let value ← completeField plan object mode
        (Execution.knownType plan.field object typeHint)
        (trail.field position plan.field.responseKey)
      let assembler ← LedgerRun.insert assembler plan.field.responseKey value mark
      completeFields plans (position + 1) object mode typeHint trail assembler
    else completeFields plans (position + 1) object mode typeHint trail assembler

end

/-- Completes an object for a selection set. -/
def completeObject (fields : List FieldPlan) : LedgerExpand World :=
  fun object mode typeHint trail =>
    execution.completeFields fields 0 object mode typeHint trail {}

/-- Completes the result of a resolver for its field. -/
def completeResolved (plan : FieldPlan) (value : Json) (trail : Trail) : LedgerRun World Json :=
  match plan with
  | .leaf _ => return value
  | .nested _ id fields =>
    execution.completeValue id (execution.completeObject fields) .payload none trail value

/-- Completes a deferred field whose task has given a result or has failed. -/
def completeFinished (deferred : Deferred World) :
    Except String Json → LedgerRun World Json
  | .ok value => execution.completeResolved deferred.plan value deferred.trail
  | .error reason =>
    LedgerRun.failed deferred.trail
      (Execution.resolverFailure deferred.plan deferred.typeName reason)

end LedgerExecution

end GraphCache
