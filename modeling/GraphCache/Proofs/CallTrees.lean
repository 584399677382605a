import GraphCache.Execution.Basic
import GraphCache.Proofs.Steps

/-!
# Call trees

An execution consists of calls. An object is completed field after field; a field leads to a value,
a list to its items, and a reference to a record of the cache, which may lead back to where it came
from. Here the calls are followed by rules, one for each way that a call can take, and not by the
recursion of the functions that perform them. A derivation by these rules is a finite tree of calls,
so it stands for a run that comes to an end. It also records what happened on the way: which fields
were evaluated at which objects, and what became of entities.

## Main definitions

* `Evaluation`, `Event`: what happens in an execution.
* `Call`, `Call.run`: the calls, and the functions that perform them.
* `Execution.Unrolls`: a call unrolls to a finite tree of calls with an outcome.
* `Executor.Starts`: the first pass over the plan, unrolled.

## Main results

* `Execution.Unrolls.run_eq`: the outcome of a tree is what the function computes.
* `Execution.exists_unrolls`: every call unrolls to a finite tree.
* `Executor.exists_starts`: so does the first pass.
-/

namespace GraphCache

/-- A field that is evaluated at an object. -/
structure Evaluation where
  /-- The number of the selection set. -/
  selection : Nat
  /-- The field. -/
  plan : FieldPlan
  /-- The object. -/
  object : Object
  /-- The type of the object, as far as it is known. -/
  known : Option String
  /-- Where the value belongs. -/
  trail : Trail

/-- What happens in an execution. -/
inductive Event where
  /-- A field is evaluated at an object. -/
  | evaluated (evaluation : Evaluation)
  /-- An entity has been completed for the selection set with a number; it is clean if nothing was
  left behind. -/
  | expanded (key : String) (selection : Nat) (object : Object) (clean : Bool)
  /-- The object of an entity that was completed before is used again. -/
  | reused (key : String) (selection : Nat) (object : Object)

/-- The calls of an execution. -/
inductive Call (World : Type) where
  /-- The listed fields of a selection set are completed at an object, after others. -/
  | fields (selection : Nat) (plans : List FieldPlan) (position : Nat) (object : Object)
      (mode : ReadMode) (typeHint : Option String) (trail : Trail) (assembler : Assembler World)
  /-- A field is evaluated at an object. -/
  | field (evaluation : Evaluation) (mode : ReadMode)
  /-- A value is completed for a selection set. -/
  | value (selection : SelectionPlan) (mode : ReadMode) (typeHint : Option String) (trail : Trail)
      (value : Json)
  /-- The listed items are completed for a selection set, after others. -/
  | items (selection : SelectionPlan) (mode : ReadMode) (typeHint : Option String) (trail : Trail)
      (position : Nat) (items : List Json)
  /-- The result of a resolver is completed for its field. -/
  | resolved (plan : FieldPlan) (trail : Trail) (value : Json)
  /-- A deferred field is finished. -/
  | settle (deferred : Deferred World)

/-- What a call comes to: a value with the work that it leaves behind or an error, and the state
after it. -/
abbrev Outcome (World : Type) :=
  Except ExecutionError (Completed World Json) × RunState World

namespace Run

variable {World α β : Type} {run : Run World α} {state state' : RunState World}

theorem bind_pure_eq_ok_iff {f : α → β} {b : β} :
    (run >>= fun a => pure (f a)) state = (.ok b, state') ↔
      ∃ a, run state = (.ok a, state') ∧ f a = b := by
  rw [bind_eq_ok_iff]
  constructor
  · rintro ⟨a, _, hrun, hpure⟩
    cases hpure
    exact ⟨a, hrun, rfl⟩
  · rintro ⟨a, hrun, rfl⟩
    exact ⟨a, state', hrun, rfl⟩

theorem bind_pure_eq_error_iff {f : α → β} {error : ExecutionError} :
    (run >>= fun a => pure (f a)) state = (.error error, state') ↔
      run state = (.error error, state') := by
  rw [bind_apply]
  rcases run state with ⟨outcome, s⟩
  cases outcome with
  | ok a => exact ⟨nofun, nofun⟩
  | error other =>
    constructor <;> intro h <;> cases h <;> rfl

end Run

variable {World : Type}

/-- The function that performs a call. -/
def Call.run (execution : Execution World) : Call World → Run World (Completed World Json)
  | .fields _ plans position object mode typeHint trail assembler => do
    let (object, work) ←
      execution.completeFields plans position object mode typeHint trail assembler
    return (.object object, work)
  | .field evaluation mode =>
    execution.completeField evaluation.plan evaluation.object mode evaluation.known evaluation.trail
  | .value selection mode typeHint trail json =>
    execution.completeValue selection.id (execution.completeObject selection.fields) mode typeHint
      trail json
  | .items selection mode typeHint trail position list => do
    let (values, work) ← execution.completeItems selection.id
      (execution.completeObject selection.fields) mode typeHint trail position list
    return (.array values, work)
  | .resolved plan trail json => execution.completeResolved plan json trail
  | .settle deferred => execution.settle deferred

namespace Execution

variable (execution : Execution World)

/-- The answer of a resolver that is asked for a field. -/
def answer (resolver : Resolver World) (evaluation : Evaluation) :
    StateM World (Resolution World) :=
  resolver evaluation.object (evaluation.plan.field.boundArguments execution.variableValues)
    ⟨execution.variableValues, execution.store⟩

/-- The type on which a resolver is looked up for a field. -/
def resolverType (evaluation : Evaluation) : String :=
  evaluation.known.getD execution.rootType

/-- The resolver for a field. -/
def resolver? (evaluation : Evaluation) : Option (Resolver World) :=
  execution.registry.lookup (execution.resolverType evaluation) evaluation.plan.field.name

/-- The evaluation of a field of an object. -/
def evaluationOf (selection : Nat) (plan : FieldPlan) (position : Nat) (object : Object)
    (typeHint : Option String) (trail : Trail) : Evaluation :=
  ⟨selection, plan, object, knownType plan.field object typeHint,
    trail.field position plan.field.responseKey⟩

/-- A call unrolls to a finite tree of calls, with the events on the way and an outcome. -/
inductive Unrolls : Call World → RunState World → List Event → Outcome World → Prop where
  -- the fields of an object
  | fieldsNil {selection position object mode typeHint trail assembler state} :
      Unrolls (.fields selection [] position object mode typeHint trail assembler) state []
        (.ok (.object assembler.object, assembler.work), state)
  | fieldsSkip {selection plan plans position object mode typeHint trail assembler state events
      outcome}
      (hskip : plan.field.isSelected execution.variableValues (typename? object) = false)
      (hrest : Unrolls
        (.fields selection plans (position + 1) object mode typeHint trail assembler)
        state events outcome) :
      Unrolls (.fields selection (plan :: plans) position object mode typeHint trail assembler)
        state events outcome
  | fieldsCons {selection plan plans position object mode typeHint trail assembler state state'
      events more value work outcome}
      (hselected : plan.field.isSelected execution.variableValues (typename? object) = true)
      (hfield : Unrolls (.field (evaluationOf selection plan position object typeHint trail) mode)
        state events (.ok (value, work), state'))
      (hrest : Unrolls (.fields selection plans (position + 1) object mode typeHint trail
        (assembler.insert plan.field.responseKey value work).1) state' more outcome) :
      Unrolls (.fields selection (plan :: plans) position object mode typeHint trail assembler)
        state (events ++ more) outcome
  | fieldsAbort {selection plan plans position object mode typeHint trail assembler state state'
      events error}
      (hselected : plan.field.isSelected execution.variableValues (typename? object) = true)
      (hfield : Unrolls (.field (evaluationOf selection plan position object typeHint trail) mode)
        state events (.error error, state')) :
      Unrolls (.fields selection (plan :: plans) position object mode typeHint trail assembler)
        state events (.error error, state')
  -- a remote field
  | typename {evaluation mode state typeName}
      (hremote : evaluation.plan.field.isLocal = false)
      (hmissing : execution.remoteValue? evaluation.plan.field evaluation.object mode = none)
      (htypename : evaluation.plan.field.isTypename = true)
      (hknown : evaluation.known = some typeName) :
      Unrolls (.field evaluation mode) state [.evaluated evaluation]
        (.ok (.string typeName, .none), state)
  | missingField {evaluation mode state}
      (hremote : evaluation.plan.field.isLocal = false)
      (hmissing : execution.remoteValue? evaluation.plan.field evaluation.object mode = none)
      (hunknown : evaluation.plan.field.isTypename = true → evaluation.known = none) :
      Unrolls (.field evaluation mode) state [.evaluated evaluation]
        (failed evaluation.trail (.missingField evaluation.plan.field.name) state)
  | leaf {evaluation mode state value}
      (hremote : evaluation.plan.field.isLocal = false)
      (hvalue : execution.remoteValue? evaluation.plan.field evaluation.object mode = some value)
      (hleaf : evaluation.plan.selection? = none) :
      Unrolls (.field evaluation mode) state [.evaluated evaluation]
        (completeLeaf value evaluation.trail state)
  | nested {evaluation mode state value selection events outcome}
      (hremote : evaluation.plan.field.isLocal = false)
      (hvalue : execution.remoteValue? evaluation.plan.field evaluation.object mode = some value)
      (hnested : evaluation.plan.selection? = some selection)
      (hinner : Unrolls (.value selection mode none evaluation.trail value) state events outcome) :
      Unrolls (.field evaluation mode) state (.evaluated evaluation :: events) outcome
  -- a local field
  | unresolved {evaluation mode state}
      (hlocal : evaluation.plan.field.isLocal = true)
      (hresolver : execution.resolver? evaluation = none) :
      Unrolls (.field evaluation mode) state [.evaluated evaluation]
        (failed evaluation.trail (.unresolvedLocalField (execution.resolverType evaluation)
          evaluation.plan.field.name) state)
  | failure {evaluation mode state resolver reason world}
      (hlocal : evaluation.plan.field.isLocal = true)
      (hresolver : execution.resolver? evaluation = some resolver)
      (hanswer : (execution.answer resolver evaluation).run state.world
        = (.ready (.error reason), world)) :
      Unrolls (.field evaluation mode) state [.evaluated evaluation]
        (failed evaluation.trail
          (resolverFailure evaluation.plan (execution.resolverType evaluation) reason)
          { state with world })
  | pending {evaluation mode state resolver task world}
      (hlocal : evaluation.plan.field.isLocal = true)
      (hresolver : execution.resolver? evaluation = some resolver)
      (hanswer : (execution.answer resolver evaluation).run state.world
        = (.pending task, world)) :
      Unrolls (.field evaluation mode) state [.evaluated evaluation]
        (defer evaluation.plan (execution.resolverType evaluation) task evaluation.trail
          { state with world })
  | answered {evaluation mode state resolver value world events outcome}
      (hlocal : evaluation.plan.field.isLocal = true)
      (hresolver : execution.resolver? evaluation = some resolver)
      (hanswer : (execution.answer resolver evaluation).run state.world
        = (.ready (.ok value), world))
      (hinner : Unrolls (.resolved evaluation.plan evaluation.trail value) { state with world }
        events outcome) :
      Unrolls (.field evaluation mode) state (.evaluated evaluation :: events) outcome
  -- the result of a resolver
  | resolvedLeaf {plan trail value state}
      (hleaf : plan.selection? = none) :
      Unrolls (.resolved plan trail value) state [] (.ok (value, .none), state)
  | resolvedNested {plan trail value state selection events outcome}
      (hnested : plan.selection? = some selection)
      (hinner : Unrolls (.value selection .payload none trail value) state events outcome) :
      Unrolls (.resolved plan trail value) state events outcome
  -- a value
  | null {selection mode typeHint trail state} :
      Unrolls (.value selection mode typeHint trail .null) state [] (.ok (.null, .none), state)
  | scalar {selection mode typeHint trail value state}
      (hnull : value.isNull = false)
      (harray : value.array? = none) (hobject : value.object? = none) :
      Unrolls (.value selection mode typeHint trail value) state []
        (failed trail (.shapeMismatch "object" value.kind) state)
  | array {selection mode typeHint trail items state events outcome}
      (hitems : Unrolls (.items selection mode typeHint trail 0 items) state events outcome) :
      Unrolls (.value selection mode typeHint trail (.array items)) state events outcome
  | plain {selection mode typeHint trail object state events outcome}
      (hresolve : execution.store.resolve (.object object) = .notReference)
      (hfields : Unrolls
        (.fields selection.id selection.fields 0 object mode typeHint trail .empty)
        state events outcome) :
      Unrolls (.value selection mode typeHint trail (.object object)) state events outcome
  | missing {selection mode typeHint trail object key state}
      (hresolve : execution.store.resolve (.object object) = .missing key) :
      Unrolls (.value selection mode typeHint trail (.object object)) state []
        (execution.missingEntity key trail state)
  | reuse {selection mode typeHint trail object known key record state}
      (hresolve : execution.store.resolve (.object object) = .entity key record)
      (hknown : state.reusable? (key, selection.id) = some known) :
      Unrolls (.value selection mode typeHint trail (.object object)) state
        [.reused key selection.id known] (.ok (.object known, .none), state)
  | expand {selection mode typeHint trail object key record state state' events completed work}
      (hresolve : execution.store.resolve (.object object) = .entity key record)
      (hunknown : state.reusable? (key, selection.id) = none)
      (hfields : Unrolls
        (.fields selection.id selection.fields 0 record .record none trail .empty)
        state events (.ok (.object completed, work), state')) :
      Unrolls (.value selection mode typeHint trail (.object object)) state
        (events ++ [.expanded key selection.id completed work.isClean])
        (.ok (.object completed, work),
          if work.isClean then
            state'.keep (key, selection.id) (state.memo.find? (key, selection.id)).isSome completed
          else state')
  | expandAbort {selection mode typeHint trail object key record state state' events error}
      (hresolve : execution.store.resolve (.object object) = .entity key record)
      (hunknown : state.reusable? (key, selection.id) = none)
      (hfields : Unrolls
        (.fields selection.id selection.fields 0 record .record none trail .empty)
        state events (.error error, state')) :
      Unrolls (.value selection mode typeHint trail (.object object)) state events
        (.error error, state')
  -- the items of a list
  | itemsNil {selection mode typeHint trail position state} :
      Unrolls (.items selection mode typeHint trail position []) state []
        (.ok (.array [], .none), state)
  | itemsCons {selection mode typeHint trail position item items state state' state'' events more
      value work rest values}
      (hitem : Unrolls (.value selection mode typeHint (trail.index position) item) state events
        (.ok (value, work), state'))
      (hitems : Unrolls (.items selection mode typeHint trail (position + 1) items) state' more
        (.ok (.array values, rest), state'')) :
      Unrolls (.items selection mode typeHint trail position (item :: items)) state
        (events ++ more) (.ok (.array (value :: values), work ++ rest), state'')
  | itemsAbort {selection mode typeHint trail position item items state state' events error}
      (hitem : Unrolls (.value selection mode typeHint (trail.index position) item) state events
        (.error error, state')) :
      Unrolls (.items selection mode typeHint trail position (item :: items)) state events
        (.error error, state')
  | itemsAbortRest {selection mode typeHint trail position item items state state' state'' events
      more value work error}
      (hitem : Unrolls (.value selection mode typeHint (trail.index position) item) state events
        (.ok (value, work), state'))
      (hitems : Unrolls (.items selection mode typeHint trail (position + 1) items) state' more
        (.error error, state'')) :
      Unrolls (.items selection mode typeHint trail position (item :: items)) state
        (events ++ more) (.error error, state'')
  -- a deferred field
  | settleFailure {deferred state reason world}
      (hfinish : deferred.task.finish.run state.world = (.error reason, world)) :
      Unrolls (.settle deferred) state []
        (failed deferred.trail (resolverFailure deferred.plan deferred.typeName reason)
          { state with world })
  | settleOk {deferred state value world events outcome}
      (hfinish : deferred.task.finish.run state.world = (.ok value, world))
      (hinner : Unrolls (.resolved deferred.plan deferred.trail value) { state with world } events
        outcome) :
      Unrolls (.settle deferred) state events outcome

variable {execution}

/-! ### What the functions compute -/

section Run

variable {selection : SelectionPlan} {mode : ReadMode} {typeHint : Option String} {trail : Trail}
  {state state' : RunState World} {value : Json} {work : Work World}

/-- Completing fields goes on after a field that is not selected. -/
theorem run_fields_skip {number position : Nat} {plan : FieldPlan} {plans : List FieldPlan}
    {object : Object} {assembler : Assembler World}
    (h : plan.field.isSelected execution.variableValues (typename? object) = false) :
    (Call.fields number (plan :: plans) position object mode typeHint trail assembler).run execution
      = (Call.fields number plans (position + 1) object mode typeHint trail assembler).run
          execution := by
  simp only [Call.run]
  rw [completeFields, if_neg (by simp [h])]

/-- A field that is selected is evaluated before the others. -/
theorem run_fields_cons {number position : Nat} {plan : FieldPlan} {plans : List FieldPlan}
    {object : Object} {assembler : Assembler World}
    (h : plan.field.isSelected execution.variableValues (typename? object) = true) :
    (Call.fields number (plan :: plans) position object mode typeHint trail assembler).run execution
      = (do
        let (value, work) ← (Call.field (evaluationOf number plan position object typeHint trail)
          mode).run execution
        (Call.fields number plans (position + 1) object mode typeHint trail
          (assembler.insert plan.field.responseKey value work).1).run execution) := by
  simp only [Call.run]
  rw [completeFields, if_pos h, bind_assoc]
  rfl

/-- Any result of the resolver of a local field is completed as such. -/
theorem run_field_local {evaluation : Evaluation} (h : evaluation.plan.field.isLocal = true) :
    (Call.field evaluation mode).run execution =
      execution.completeLocal (execution.completeResolved evaluation.plan) evaluation.plan
        evaluation.object evaluation.known evaluation.trail := by
  obtain ⟨number, plan, object, known, trail⟩ := evaluation
  cases plan with
  | leaf field =>
    have hfield : field.isLocal = true := h
    simp only [Call.run, completeField, if_pos hfield]
    rfl
  | nested field id fields =>
    have hfield : field.isLocal = true := h
    simp only [Call.run, completeField, if_pos hfield]
    rfl

/-- A local field goes on with the answer of its resolver. -/
theorem run_field_of_answer {evaluation : Evaluation} {resolver : Resolver World}
    {resolution : Resolution World} {world : World}
    (hlocal : evaluation.plan.field.isLocal = true)
    (hresolver : execution.resolver? evaluation = some resolver)
    (hanswer : (execution.answer resolver evaluation).run state.world = (resolution, world)) :
    (Call.field evaluation mode).run execution state =
      continueLocal (execution.completeResolved evaluation.plan) evaluation.plan
        (execution.resolverType evaluation) evaluation.trail resolution { state with world } := by
  rw [run_field_local hlocal, completeLocal_of_lookup execution hresolver]
  exact Run.bind_ok (Run.act_of_eq hanswer) _

end Run

/-- The outcome of a tree of calls is what the function for the call computes. -/
theorem Unrolls.run_eq {call : Call World} {state : RunState World} {events : List Event}
    {outcome : Outcome World} (h : execution.Unrolls call state events outcome) :
    call.run execution state = outcome := by
  induction h with
  | fieldsNil => rfl
  | fieldsSkip hskip _ ih => rw [run_fields_skip hskip, ih]
  | fieldsCons hselected _ _ ihfield ihrest =>
    rw [run_fields_cons hselected, Run.bind_ok ihfield]
    exact ihrest
  | fieldsAbort hselected _ ih => rw [run_fields_cons hselected, Run.bind_error ih]
  | typename hremote hmissing htypename hknown =>
    rw [Call.run, completeField_of_missing execution hremote hmissing, htypename, hknown]
    rfl
  | @missingField evaluation _ _ hremote hmissing hunknown =>
    rw [Call.run, completeField_of_missing execution hremote hmissing]
    cases htypename : evaluation.plan.field.isTypename with
    | false => rfl
    | true => rw [hunknown htypename]
  | @leaf evaluation _ _ _ hremote hvalue hleaf =>
    rw [Call.run, completeField_of_value execution hremote hvalue]
    cases hplan : evaluation.plan with
    | leaf field => rfl
    | nested field id fields => simp [hplan, FieldPlan.selection?] at hleaf
  | @nested evaluation _ _ _ _ _ _ hremote hvalue hnested _ ih =>
    rw [Call.run, completeField_of_value execution hremote hvalue]
    cases hplan : evaluation.plan with
    | leaf field => simp [hplan, FieldPlan.selection?] at hnested
    | nested field id fields =>
      obtain rfl : _ = _ := by simpa [hplan, FieldPlan.selection?] using hnested
      exact ih
  | unresolved hlocal hresolver =>
    rw [run_field_local hlocal, completeLocal_of_lookup_none execution hresolver]
    rfl
  | failure hlocal hresolver hanswer => exact run_field_of_answer hlocal hresolver hanswer
  | pending hlocal hresolver hanswer => exact run_field_of_answer hlocal hresolver hanswer
  | answered hlocal hresolver hanswer _ ih =>
    rw [run_field_of_answer hlocal hresolver hanswer]
    exact ih
  | @resolvedLeaf plan _ _ _ hleaf =>
    cases plan with
    | leaf field => rfl
    | nested field id fields => cases hleaf
  | @resolvedNested plan _ _ _ _ _ _ hnested _ ih =>
    cases plan with
    | leaf field => cases hnested
    | nested field id fields =>
      cases hnested
      exact ih
  | null => rfl
  | @scalar _ _ _ _ value _ hnull harray hobject =>
    cases value with
    | null => cases hnull
    | array items => cases harray
    | object fields => cases hobject
    | bool _ => rfl
    | number _ => rfl
    | string _ => rfl
  | array _ ih =>
    rw [Call.run, completeValue]
    exact ih
  | plain hresolve _ ih =>
    rw [Call.run, completeValue, hresolve]
    exact ih
  | missing hresolve => rw [Call.run, completeValue, hresolve]
  | reuse hresolve hknown =>
    rw [Call.run, completeValue, hresolve]
    exact completeEntity_of_known hknown _ _ _
  | expand hresolve hunknown _ ih =>
    obtain ⟨⟨object, work⟩, hfields, heq⟩ := Run.bind_pure_eq_ok_iff.1 ih
    cases heq
    rw [Call.run, completeValue, hresolve]
    refine (completeEntity_of_unknown hunknown _ _ _).trans ?_
    rw [completeObject, hfields]
  | expandAbort hresolve hunknown _ ih =>
    have hfields := Run.bind_pure_eq_error_iff.1 ih
    rw [Call.run, completeValue, hresolve]
    refine (completeEntity_of_unknown hunknown _ _ _).trans ?_
    rw [completeObject, hfields]
  | itemsNil => rfl
  | itemsCons _ _ ihitem ihitems =>
    obtain ⟨⟨values, rest⟩, hitems, heq⟩ := Run.bind_pure_eq_ok_iff.1 ihitems
    cases heq
    rw [Call.run, completeItems, bind_assoc]
    refine (Run.bind_ok ihitem _).trans ?_
    rw [bind_assoc]
    exact Run.bind_ok hitems _
  | itemsAbort _ ihitem =>
    rw [Call.run, completeItems, bind_assoc]
    exact Run.bind_error ihitem _
  | itemsAbortRest _ _ ihitem ihitems =>
    have hitems := Run.bind_pure_eq_error_iff.1 ihitems
    rw [Call.run, completeItems, bind_assoc]
    refine (Run.bind_ok ihitem _).trans ?_
    rw [bind_assoc]
    exact Run.bind_error hitems _
  | settleFailure hfinish =>
    rw [Call.run, settle, Run.bind_ok (Run.act_of_eq hfinish)]
  | settleOk hfinish _ ih =>
    rw [Call.run, settle, Run.bind_ok (Run.act_of_eq hfinish)]
    exact ih

/-! ### Every call comes to an end -/

/-- From every state the call unrolls to a finite tree. -/
def Ends (execution : Execution World) (call : Call World) : Prop :=
  ∀ state, ∃ events outcome, execution.Unrolls call state events outcome

/-- Completing fields yields an object. -/
theorem Unrolls.exists_object {number position : Nat} {plans : List FieldPlan} {object : Object}
    {mode : ReadMode} {typeHint : Option String} {trail : Trail} {assembler : Assembler World}
    {state state' : RunState World} {events : List Event} {value : Json} {work : Work World}
    (h : execution.Unrolls (.fields number plans position object mode typeHint trail assembler)
      state events (.ok (value, work), state')) : ∃ completed, value = .object completed := by
  obtain ⟨⟨completed, _⟩, -, heq⟩ := Run.bind_pure_eq_ok_iff.1 h.run_eq
  cases heq
  exact ⟨completed, rfl⟩

/-- Completing items yields a list. -/
theorem Unrolls.exists_array {selection : SelectionPlan} {mode : ReadMode}
    {typeHint : Option String} {trail : Trail} {position : Nat} {items : List Json}
    {state state' : RunState World} {events : List Event} {value : Json} {work : Work World}
    (h : execution.Unrolls (.items selection mode typeHint trail position items) state events
      (.ok (value, work), state')) : ∃ values, value = .array values := by
  obtain ⟨⟨values, _⟩, -, heq⟩ := Run.bind_pure_eq_ok_iff.1 h.run_eq
  cases heq
  exact ⟨values, rfl⟩

/-- Completing any object for a selection set comes to an end. -/
def ObjectsEnd (execution : Execution World) (selection : SelectionPlan) : Prop :=
  ∀ object mode typeHint trail,
    execution.Ends (.fields selection.id selection.fields 0 object mode typeHint trail .empty)

namespace ObjectsEnd

variable {selection : SelectionPlan}

/-- The objects in a value come to an end: those that it holds, and the records that it refers to,
whatever these refer to in turn. -/
theorem object (h : execution.ObjectsEnd selection) (mode : ReadMode) (typeHint : Option String)
    (trail : Trail) (object : Object) :
    execution.Ends (.value selection mode typeHint trail (.object object)) := by
  intro state
  cases hresolve : execution.store.resolve (.object object) with
  | missing key => exact ⟨_, _, .missing hresolve⟩
  | notReference =>
    obtain ⟨events, outcome, hfields⟩ := h object mode typeHint trail state
    exact ⟨_, _, .plain hresolve hfields⟩
  | entity key record =>
    cases hknown : state.reusable? (key, selection.id) with
    | some known => exact ⟨_, _, .reuse hresolve hknown⟩
    | none =>
      obtain ⟨events, ⟨outcome, state'⟩, hfields⟩ := h record .record none trail state
      cases outcome with
      | error error => exact ⟨_, _, .expandAbort hresolve hknown hfields⟩
      | ok completed =>
        obtain ⟨value, work⟩ := completed
        obtain ⟨completed, rfl⟩ := hfields.exists_object
        exact ⟨_, _, .expand hresolve hknown hfields⟩

mutual

theorem value (h : execution.ObjectsEnd selection) (mode : ReadMode) (typeHint : Option String)
    (trail : Trail) (value : Json) :
    execution.Ends (.value selection mode typeHint trail value) := by
  cases value with
  | null => exact fun state ↦ ⟨_, _, .null⟩
  | bool _ => exact fun state ↦ ⟨_, _, .scalar rfl rfl rfl⟩
  | number _ => exact fun state ↦ ⟨_, _, .scalar rfl rfl rfl⟩
  | string _ => exact fun state ↦ ⟨_, _, .scalar rfl rfl rfl⟩
  | array items =>
    intro state
    obtain ⟨events, outcome, hitems⟩ := h.items mode typeHint trail 0 items state
    exact ⟨_, _, .array hitems⟩
  | object object => exact h.object mode typeHint trail object

theorem items (h : execution.ObjectsEnd selection) (mode : ReadMode) (typeHint : Option String)
    (trail : Trail) (position : Nat) (items : List Json) :
    execution.Ends (.items selection mode typeHint trail position items) := by
  intro state
  cases items with
  | nil => exact ⟨_, _, .itemsNil⟩
  | cons item items =>
    obtain ⟨events, ⟨first, state'⟩, hitem⟩ :=
      h.value mode typeHint (trail.index position) item state
    cases first with
    | error error => exact ⟨_, _, .itemsAbort hitem⟩
    | ok completed =>
      obtain ⟨more, ⟨rest, state''⟩, hitems⟩ :=
        h.items mode typeHint trail (position + 1) items state'
      cases rest with
      | error error => exact ⟨_, _, .itemsAbortRest hitem hitems⟩
      | ok others =>
        obtain ⟨value, work⟩ := others
        obtain ⟨values, rfl⟩ := hitems.exists_array
        exact ⟨_, _, .itemsCons hitem hitems⟩

end

end ObjectsEnd

/-- Completing any object for the nested selections of a field comes to an end. -/
def InnerEnds (execution : Execution World) (plan : FieldPlan) : Prop :=
  ∀ selection, plan.selection? = some selection → execution.ObjectsEnd selection

namespace InnerEnds

variable {plan : FieldPlan}

theorem resolved (h : execution.InnerEnds plan) (trail : Trail) (value : Json) :
    execution.Ends (.resolved plan trail value) := by
  intro state
  cases hselection : plan.selection? with
  | none => exact ⟨_, _, .resolvedLeaf hselection⟩
  | some selection =>
    obtain ⟨events, outcome, hvalue⟩ :=
      (h selection hselection).value .payload none trail value state
    exact ⟨_, _, .resolvedNested hselection hvalue⟩

theorem remoteField {evaluation : Evaluation} (h : execution.InnerEnds evaluation.plan)
    (hremote : evaluation.plan.field.isLocal = false) (mode : ReadMode) :
    execution.Ends (.field evaluation mode) := by
  intro state
  cases hvalue : execution.remoteValue? evaluation.plan.field evaluation.object mode with
  | none =>
    by_cases hunknown : evaluation.plan.field.isTypename = true → evaluation.known = none
    · exact ⟨_, _, .missingField hremote hvalue hunknown⟩
    · obtain ⟨htypename, hknown⟩ := Classical.not_imp.1 hunknown
      obtain ⟨typeName, hknown⟩ := Option.ne_none_iff_exists'.1 hknown
      exact ⟨_, _, .typename hremote hvalue htypename hknown⟩
  | some value =>
    cases hselection : evaluation.plan.selection? with
    | none => exact ⟨_, _, .leaf hremote hvalue hselection⟩
    | some selection =>
      obtain ⟨events, outcome, hinner⟩ :=
        (h selection hselection).value mode none evaluation.trail value state
      exact ⟨_, _, .nested hremote hvalue hselection hinner⟩

/-- Whatever its resolver answers, a local field comes to an end. -/
theorem localField {evaluation : Evaluation} (h : execution.InnerEnds evaluation.plan)
    (hlocal : evaluation.plan.field.isLocal = true) (mode : ReadMode) :
    execution.Ends (.field evaluation mode) := by
  intro state
  cases hresolver : execution.resolver? evaluation with
  | none => exact ⟨_, _, .unresolved hlocal hresolver⟩
  | some resolver =>
    rcases hanswer : (execution.answer resolver evaluation).run state.world with ⟨resolution, world⟩
    cases resolution with
    | pending task => exact ⟨_, _, .pending hlocal hresolver hanswer⟩
    | ready result =>
      cases result with
      | error reason => exact ⟨_, _, .failure hlocal hresolver hanswer⟩
      | ok value =>
        obtain ⟨events, outcome, hinner⟩ := h.resolved evaluation.trail value { state with world }
        exact ⟨_, _, .answered hlocal hresolver hanswer hinner⟩

theorem field {evaluation : Evaluation} (h : execution.InnerEnds evaluation.plan)
    (mode : ReadMode) : execution.Ends (.field evaluation mode) := by
  cases hlocal : evaluation.plan.field.isLocal with
  | true => exact h.localField hlocal mode
  | false => exact h.remoteField hlocal mode

end InnerEnds

mutual

/-- No reference leads back to an outer selection set: the nested selections of a field have fewer
levels than the field. -/
theorem innerEnds (plan : FieldPlan) : execution.InnerEnds plan := by
  cases plan with
  | leaf field => exact nofun
  | nested field id fields =>
    intro selection hselection
    cases hselection
    exact fun object mode typeHint trail ↦ ends_fields fields id 0 object mode typeHint trail .empty

theorem ends_fields (plans : List FieldPlan) (number position : Nat) (object : Object)
    (mode : ReadMode) (typeHint : Option String) (trail : Trail) (assembler : Assembler World) :
    execution.Ends (.fields number plans position object mode typeHint trail assembler) := by
  intro state
  cases plans with
  | nil => exact ⟨_, _, .fieldsNil⟩
  | cons plan plans =>
    cases hselected : plan.field.isSelected execution.variableValues (typename? object) with
    | false =>
      obtain ⟨events, outcome, hrest⟩ :=
        ends_fields plans number (position + 1) object mode typeHint trail assembler state
      exact ⟨_, _, .fieldsSkip hselected hrest⟩
    | true =>
      have hends : execution.Ends
          (.field (evaluationOf number plan position object typeHint trail) mode) :=
        InnerEnds.field (innerEnds plan) mode
      obtain ⟨events, ⟨first, state'⟩, hfield⟩ := hends state
      cases first with
      | error error => exact ⟨_, _, .fieldsAbort hselected hfield⟩
      | ok completed =>
        obtain ⟨more, outcome, hrest⟩ := ends_fields plans number (position + 1) object mode
          typeHint trail (assembler.insert plan.field.responseKey completed.1 completed.2).1 state'
        exact ⟨_, _, .fieldsCons hselected hfield hrest⟩

end

/-- Every call comes to an end, whatever the store holds and whatever the resolvers answer. -/
theorem ends (call : Call World) : execution.Ends call := by
  have hobjects (selection : SelectionPlan) : execution.ObjectsEnd selection :=
    fun object mode typeHint trail ↦
      ends_fields selection.fields selection.id 0 object mode typeHint trail .empty
  cases call with
  | fields number plans position object mode typeHint trail assembler =>
    exact ends_fields plans number position object mode typeHint trail assembler
  | field evaluation mode => exact (innerEnds evaluation.plan).field mode
  | value selection mode typeHint trail value =>
    exact (hobjects selection).value mode typeHint trail value
  | items selection mode typeHint trail position items =>
    exact (hobjects selection).items mode typeHint trail position items
  | resolved plan trail value => exact (innerEnds plan).resolved trail value
  | settle deferred =>
    intro state
    rcases hfinish : deferred.task.finish.run state.world with ⟨result, world⟩
    cases result with
    | error reason => exact ⟨_, _, .settleFailure hfinish⟩
    | ok value =>
      obtain ⟨events, outcome, hinner⟩ :=
        (innerEnds deferred.plan).resolved deferred.trail value { state with world }
      exact ⟨_, _, .settleOk hfinish hinner⟩

variable (execution) in
/-- Every call unrolls to a finite tree whose outcome is what the function for the call computes. -/
theorem exists_unrolls (call : Call World) (state : RunState World) :
    ∃ events, execution.Unrolls call state events (call.run execution state) := by
  have hends : execution.Ends call := ends call
  obtain ⟨events, outcome, h⟩ := hends state
  exact ⟨events, h.run_eq.symm ▸ h⟩

end Execution

/-! ### The first pass -/

namespace Executor

variable (executor : Executor World)

/-- The record from which an execution starts. There need not be one for the root of the
operation. -/
def rootRecord? (key : String) : Option Object :=
  (Dict.get? executor.store key).or (if key = executor.plan.rootKey then some [] else none)

/-- The first pass over the plan unrolls to a finite tree of calls. -/
inductive Starts : Root → RunState World → List Event → Outcome World → Prop where
  | record {key record state events outcome}
      (hrecord : executor.rootRecord? key = some record)
      (hfields : executor.execution.Unrolls (.fields executor.plan.selection.id
        executor.plan.selection.fields 0 record .record (some executor.plan.rootType) {} .empty)
        state events outcome) :
      Starts (.entity key) state events outcome
  | missing {key state} (hrecord : executor.rootRecord? key = none) :
      Starts (.entity key) state [] (executor.execution.missingEntity key {} state)
  | payload {payload state events outcome}
      (hvalue : executor.execution.Unrolls (.value executor.plan.selection .payload
        (some executor.plan.rootType) {} payload) state events outcome) :
      Starts (.value payload) state events outcome

variable {executor}

/-- The outcome of a first pass is what the executor computes. -/
theorem Starts.start_eq {root : Root} {state : RunState World} {events : List Event}
    {outcome : Outcome World} (h : executor.Starts root state events outcome) :
    executor.start root state = outcome := by
  cases h with
  | @record key _ _ _ _ hrecord hfields =>
    rw [start]
    cases hget : Dict.get? executor.store key with
    | some record =>
      obtain rfl : record = _ := by simpa [rootRecord?, hget] using hrecord
      exact hfields.run_eq
    | none =>
      by_cases hkey : key = executor.plan.rootKey
      · simp only [rootRecord?, hget, if_pos hkey, Option.none_or, Option.some.injEq] at hrecord
        subst hrecord
        simp only [if_pos hkey]
        exact hfields.run_eq
      · simp [rootRecord?, hget, hkey] at hrecord
  | @missing key _ hrecord =>
    rw [start]
    cases hget : Dict.get? executor.store key with
    | some record => simp [rootRecord?, hget] at hrecord
    | none =>
      have hkey : key ≠ executor.plan.rootKey := by
        rintro rfl
        simp [rootRecord?, hget] at hrecord
      simp only [if_neg hkey]
  | payload hvalue => exact hvalue.run_eq

/-- The first pass comes to an end from every root. -/
theorem exists_starts (root : Root) (state : RunState World) :
    ∃ events, executor.Starts root state events (executor.start root state) := by
  have hstarts : ∃ events outcome, executor.Starts root state events outcome := by
    cases root with
    | value payload =>
      obtain ⟨events, hvalue⟩ := executor.execution.exists_unrolls _ state
      exact ⟨events, _, .payload hvalue⟩
    | entity key =>
      cases hrecord : executor.rootRecord? key with
      | none => exact ⟨_, _, .missing hrecord⟩
      | some record =>
        obtain ⟨events, hfields⟩ := executor.execution.exists_unrolls _ state
        exact ⟨events, _, .record hrecord hfields⟩
  obtain ⟨events, outcome, h⟩ := hstarts
  exact ⟨events, h.start_eq.symm ▸ h⟩

end Executor

end GraphCache
