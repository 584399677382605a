import GraphCache.Execution.Completion
import GraphCache.Proofs.Numbering

/-!
# What one step of an execution does

A computation of an execution takes a state and returns an outcome with the next state. The lemmas
here say for each kind of step what these are, so that later proofs need not open the steps again.

## Main definitions

* `Run.Achieves`: a computation that succeeds and ensures a postcondition.
* `Memo.Describes`: what is known about entities is right.

## Main results

* `Memo.Describes.cons`: what is known about entities stays right when one more is remembered.
* `Run.bind_ok`, `Run.bind_error`, `Run.bind_eq_ok_iff`: a computation followed by another one.
* `Execution.completeEntity_of_known`, `Execution.completeEntity_of_unknown`: an entity is reused,
  or it is expanded and remembered if nothing is left behind.
* `Execution.completeField_of_value`: a remote field is completed like the value that is found.
* `Execution.completeLocal_of_lookup`: a local field asks its resolver.
-/

namespace GraphCache

variable {World α β : Type}

namespace Run

@[simp] theorem pure_apply {σ : Type} (a : α) (state : σ) :
    (pure a : ExceptT ExecutionError (StateM σ) α) state = (.ok a, state) := rfl

@[simp] theorem throw_apply (error : ExecutionError) (state : RunState World) :
    (throw error : Run World α) state = (.error error, state) := rfl

section Bind

variable {σ : Type} {run : ExceptT ExecutionError (StateM σ) α} {state state' : σ}

theorem bind_apply (run : ExceptT ExecutionError (StateM σ) α)
    (next : α → ExceptT ExecutionError (StateM σ) β) (state : σ) :
    (run >>= next) state =
      match run state with
      | (.ok a, state) => next a state
      | (.error error, state) => (.error error, state) := by
  simp only [bind, ExceptT.bind, ExceptT.mk, StateT.bind]
  rcases run state with ⟨outcome, s⟩
  cases outcome <;> rfl

/-- After a computation that succeeds the next one goes on from the state that it leaves. -/
theorem bind_ok {a : α} (h : run state = (.ok a, state'))
    (next : α → ExceptT ExecutionError (StateM σ) β) : (run >>= next) state = next a state' := by
  rw [bind_apply, h]

/-- After a computation that fails nothing else happens. -/
theorem bind_error {error : ExecutionError} (h : run state = (.error error, state'))
    (next : α → ExceptT ExecutionError (StateM σ) β) :
    (run >>= next) state = (.error error, state') := by
  rw [bind_apply, h]

theorem get_apply (state : σ) :
    (get : ExceptT ExecutionError (StateM σ) σ) state = (.ok state, state) := rfl

end Bind

/-- Two computations in a row succeed if the second one succeeds after the first one. -/
theorem bind_eq_ok_iff {run : Run World α} {next : α → Run World β}
    {state state'' : RunState World} {b : β} :
    (run >>= next) state = (.ok b, state'') ↔
      ∃ a state', run state = (.ok a, state') ∧ next a state' = (.ok b, state'') := by
  rw [bind_apply]
  rcases run state with ⟨outcome, state'⟩
  cases outcome with
  | error error =>
    refine ⟨nofun, ?_⟩
    rintro ⟨_, _, hrun, _⟩
    cases hrun
  | ok a =>
    refine ⟨fun h ↦ ⟨a, state', rfl, h⟩, ?_⟩
    rintro ⟨_, _, hrun, hnext⟩
    cases hrun
    exact hnext

theorem act_apply (action : StateM World α) (state : RunState World) :
    act action state = (.ok (action.run state.world).1,
      { state with world := (action.run state.world).2 }) := rfl

theorem act_of_eq {action : StateM World α} {state : RunState World} {a : α} {world : World}
    (h : action.run state.world = (a, world)) :
    act action state = (.ok a, { state with world }) := by
  rw [act_apply, h]

/-- Whenever the completed entities satisfy an invariant, the computation succeeds, keeps the
invariant and ensures the postcondition. -/
def Achieves (sound : Memo → Prop) (run : Run World α) (post : α → Prop) : Prop :=
  ∀ state, sound state.memo →
    ∃ a state', run state = (.ok a, state') ∧ sound state'.memo ∧ post a

namespace Achieves

variable {sound : Memo → Prop} {run : Run World α} {post : α → Prop}

theorem pure {a : α} (h : post a) : Achieves sound (pure a : Run World α) post :=
  fun state hsound ↦ ⟨a, state, rfl, hsound, h⟩

theorem bind (h : Achieves sound run post) {next : α → Run World β} {post' : β → Prop}
    (hnext : ∀ a, post a → Achieves sound (next a) post') :
    Achieves sound (run >>= next) post' := by
  intro state hsound
  obtain ⟨a, state', hrun, hsound', ha⟩ := h state hsound
  obtain ⟨b, state'', hrest, hsound'', hb⟩ := hnext a ha state' hsound'
  exact ⟨b, state'', (bind_ok hrun next).trans hrest, hsound'', hb⟩

theorem mono (h : Achieves sound run post) {post' : α → Prop} (hpost : ∀ a, post a → post' a) :
    Achieves sound run post' := by
  intro state hsound
  obtain ⟨a, state', hrun, hsound', ha⟩ := h state hsound
  exact ⟨a, state', hrun, hsound', hpost a ha⟩

/-- A resolver that acts on the world leaves the completed entities alone. -/
theorem act {action : StateM World α} (h : ∀ world, post (action.run world).1) :
    Achieves sound (Run.act action) post :=
  fun state hsound ↦ ⟨_, _, act_apply action state, hsound, h state.world⟩

end Achieves

end Run

namespace Memo

theorem find?_cons (known : String × Nat) (entry : Option Object) (memo : Memo)
    (key : String × Nat) :
    find? ((known, entry) :: memo) key = if known = key then some entry else find? memo key := by
  by_cases h : known = key
  · simp [find?, h]
  · simp [find?, h]

/-- What is known about the entities of a store is right: each object that is kept under the number
of a selection set of the plan is related to the fields of that selection set and to the record. -/
def Describes (store : Snapshot) (plan : QueryPlan)
    (right : (fields : List FieldPlan) → (record object : Object) → Prop) (memo : Memo) : Prop :=
  ∀ key id object, memo.find? (key, id) = some (some object) →
    ∀ fields, ⟨id, fields⟩ ∈ plan.selection.selections →
      ∀ record, Dict.get? store key = some record → right fields record object

namespace Describes

variable {store : Snapshot} {plan : QueryPlan}
  {right : (fields : List FieldPlan) → (record object : Object) → Prop} {memo : Memo}

theorem nil : Describes store plan right [] := by
  intro key id object hfind
  cases hfind

/-- An entity can be remembered with an object that is right for one selection set with the number,
as there is no other one. -/
theorem cons (hplan : plan.Planned) (h : Describes store plan right memo) {key : String} {id : Nat}
    {fields : List FieldPlan} (hfields : ⟨id, fields⟩ ∈ plan.selection.selections)
    {record : Object} (hrecord : Dict.get? store key = some record) {entry : Option Object}
    (hentry : ∀ object, entry = some object → right fields record object) :
    Describes store plan right (((key, id), entry) :: memo) := by
  intro key' id' object hfind fields' hfields' record' hrecord'
  rw [find?_cons] at hfind
  split at hfind
  · next heq =>
    obtain ⟨rfl, rfl⟩ := Prod.mk.inj heq
    have hselection : (⟨id, fields⟩ : SelectionPlan) = ⟨id, fields'⟩ :=
      hplan.selection_eq_of_id_eq hfields hfields' rfl
    obtain ⟨-, rfl⟩ := SelectionPlan.mk.inj hselection
    obtain rfl : record = record' := Option.some.inj (hrecord.symm.trans hrecord')
    exact hentry object (Option.some.inj hfind)
  · exact h key' id' object hfind fields' hfields' record' hrecord'

end Describes

end Memo

/-- The state after an entity has been completed: an object without any work is remembered. -/
def RunState.keep (state : RunState World) (key : String × Nat) (seen : Bool) (object : Object) :
    RunState World :=
  { state with memo := (key, if seen then some object else none) :: state.memo }

/-- The object that is known for an entity and may be used again. -/
def RunState.reusable? (state : RunState World) (key : String × Nat) : Option Object :=
  (state.memo.find? key).join

theorem RunState.reusable?_eq_some_iff {state : RunState World} {key : String × Nat}
    {object : Object} :
    state.reusable? key = some object ↔ state.memo.find? key = some (some object) :=
  Option.join_eq_some_iff

namespace Execution

variable (execution : Execution World)

section Entities

variable {id : Nat} {key : String} {state : RunState World}

/-- An entity whose object is known is not completed again. -/
theorem completeEntity_of_known {object : Object}
    (h : state.reusable? (key, id) = some object) (expand : Expand World) (record : Object)
    (trail : Trail) :
    completeEntity id expand key record trail state = (.ok (.object object, .none), state) := by
  rw [completeEntity, Run.bind_ok (Run.get_apply state)]
  simp only [RunState.reusable?_eq_some_iff.1 h]
  rfl

/-- An entity whose object is not known is expanded. What is known about it changes only if nothing
is left behind. -/
theorem completeEntity_of_unknown (h : state.reusable? (key, id) = none) (expand : Expand World)
    (record : Object) (trail : Trail) :
    completeEntity id expand key record trail state =
      match expand record .record none trail state with
      | (.ok (object, work), state') =>
        (.ok (.object object, work),
          if work.isClean then state'.keep (key, id) (state.memo.find? (key, id)).isSome object
          else state')
      | (.error error, state') => (.error error, state') := by
  rw [completeEntity, Run.bind_ok (Run.get_apply state)]
  rcases hexpand : expand record .record none trail state with ⟨outcome, state'⟩
  rcases hfind : state.memo.find? (key, id) with _ | _ | object
  case some.some => exact absurd (h.symm.trans (RunState.reusable?_eq_some_iff.2 hfind)) nofun
  all_goals
    cases outcome with
    | error error => exact Run.bind_error hexpand _
    | ok completed =>
      refine (Run.bind_ok hexpand _).trans ?_
      cases hclean : completed.2.isClean with
      | false => simp [hclean]
      | true =>
        simp [hclean]
        rfl

end Entities

/-- Completes a local field whose resolver has answered. -/
def continueLocal (complete : Json → Trail → Run World (Completed World Json))
    (plan : FieldPlan) (typeName : String) (trail : Trail) :
    Resolution World → Run World (Completed World Json)
  | .ready (.ok value) => complete value trail
  | .ready (.error reason) => failed trail (resolverFailure plan typeName reason)
  | .pending task => defer plan typeName task trail

/-- A local field asks its resolver. -/
theorem completeLocal_of_lookup {plan : FieldPlan} {known : Option String}
    {resolver : Resolver World}
    (h : execution.registry.lookup (known.getD execution.rootType) plan.field.name
      = some resolver)
    (complete : Json → Trail → Run World (Completed World Json)) (object : Object)
    (trail : Trail) :
    execution.completeLocal complete plan object known trail =
      Run.act (resolver object (plan.field.boundArguments execution.variableValues)
          ⟨execution.variableValues, execution.store⟩) >>=
        continueLocal complete plan (known.getD execution.rootType) trail := by
  simp only [completeLocal, h]
  rfl

/-- A local field without a resolver fails. -/
theorem completeLocal_of_lookup_none {plan : FieldPlan} {known : Option String}
    (h : execution.registry.lookup (known.getD execution.rootType) plan.field.name = none)
    (complete : Json → Trail → Run World (Completed World Json)) (object : Object)
    (trail : Trail) :
    execution.completeLocal complete plan object known trail =
      failed trail (.unresolvedLocalField (known.getD execution.rootType) plan.field.name) := by
  simp only [completeLocal, h]

/-- Completes the value that was found for a remote field. -/
def completeFound (plan : FieldPlan) (mode : ReadMode) (value : Json) (trail : Trail) :
    Run World (Completed World Json) :=
  match plan with
  | .leaf _ => completeLeaf value trail
  | .nested _ id fields =>
    execution.completeValue id (execution.completeObject fields) mode none trail value

/-- A remote field is completed like its value, if there is one. -/
theorem completeField_of_value {plan : FieldPlan} {object : Object} {mode : ReadMode}
    {value : Json} (hremote : plan.field.isLocal = false)
    (hvalue : execution.remoteValue? plan.field object mode = some value)
    (known : Option String) (trail : Trail) :
    execution.completeField plan object mode known trail
      = execution.completeFound plan mode value trail := by
  cases plan with
  | leaf field =>
    have hfield : field.isLocal = false := hremote
    have hfound : execution.remoteValue? field object mode = some value := hvalue
    simp only [completeField, hfield, completeRemote, hfound]
    rfl
  | nested field id fields =>
    have hfield : field.isLocal = false := hremote
    have hfound : execution.remoteValue? field object mode = some value := hvalue
    simp only [completeField, hfield, completeRemote, hfound]
    rfl

/-- A remote field without a value fails, unless it asks for a type that is known. -/
theorem completeField_of_missing {plan : FieldPlan} {object : Object} {mode : ReadMode}
    (hremote : plan.field.isLocal = false)
    (hmissing : execution.remoteValue? plan.field object mode = none) (known : Option String)
    (trail : Trail) :
    execution.completeField plan object mode known trail
      = match plan.field.isTypename, known with
        | true, some typeName => pure (.string typeName, .none)
        | _, _ => failed trail (.missingField plan.field.name) := by
  cases plan with
  | leaf field =>
    have hfield : field.isLocal = false := hremote
    have hfound : execution.remoteValue? field object mode = none := hmissing
    simp only [completeField, hfield, completeRemote, hfound]
    rfl
  | nested field id fields =>
    have hfield : field.isLocal = false := hremote
    have hfound : execution.remoteValue? field object mode = none := hmissing
    simp only [completeField, hfield, completeRemote, hfound]
    rfl

theorem defer_apply (plan : FieldPlan) (typeName : String) (task : Task World) (trail : Trail)
    (state : RunState World) :
    defer plan typeName task trail state =
      (.ok (.null, .ofDeferred ⟨state.nextId, trail, plan, typeName, task⟩),
        { state with nextId := state.nextId + 1 }) := rfl

end Execution

end GraphCache
