import GraphCache.Proofs.LedgerWork

/-!
# Completions with a ledger

Whatever an execution with a ledger completes has the value that it has without one, and the work
that is handed out without a ledger is entered in it. This holds for the functions one by one, each
next to its counterpart.

## Main definitions

* `Ledger.Entered`: two computations come to the same, and one has entered the work of the other.
* `LedgerRun.Enters`: they do so from any ledger.

## Main results

* `Ledger.Entered.bind`: computations that follow each other.
* `LedgerExecution.completeField_enters`, `LedgerExecution.completeFields_enters`: completing fields
  and objects enters the work that is left behind.
* `LedgerExecution.finish_enters`: so does finishing a deferred field.
-/

namespace GraphCache

variable {World α β : Type}

/-- What a computation with a ledger comes to is what another one comes to, and the work that this
one hands out has been entered. -/
inductive Ledger.Entered (before : Ledger World) :
    Except ExecutionError α × Ledger World →
      Except ExecutionError (Completed World α) × RunState World → Prop
  | completed {a : α} {work : Work World} {after : Ledger World} (h : before.Gains work after) :
    Entered before (.ok a, after) (.ok (a, work), after.runState)
  | aborted {error : ExecutionError} {after : Ledger World} :
    Entered before (.error error, after) (.error error, after.runState)

/-- The second computation follows the first one, and may use what this one has entered. -/
theorem Ledger.Entered.bind {before middle : Ledger World} {first : LedgerRun World α}
    {run : Run World (Completed World α)} {next : α → LedgerRun World β}
    {more : Completed World α → Run World (Completed World β)}
    (h : middle.Entered (first middle) (run middle.runState))
    (hnext : ∀ a work after, middle.Gains work after →
      before.Entered (next a after) (more (a, work) after.runState)) :
    before.Entered ((first >>= next) middle) ((run >>= more) middle.runState) := by
  rw [Run.bind_apply, Run.bind_apply]
  revert h
  generalize first middle = outcome
  generalize run middle.runState = outcome'
  intro h
  cases h with
  | completed hgains => exact hnext _ _ _ hgains
  | aborted => exact .aborted

/-- The world of the resolvers makes no difference to the entries. -/
theorem Ledger.Entered.of_world {before : Ledger World} {world : World}
    {outcome : Except ExecutionError α × Ledger World}
    {outcome' : Except ExecutionError (Completed World α) × RunState World}
    (h : ({ before with world } : Ledger World).Entered outcome outcome') :
    before.Entered outcome outcome' := by
  cases h with
  | completed hgains => exact .completed hgains.of_world
  | aborted => exact .aborted

/-- From any ledger a computation comes to what another one comes to, and enters the work that this
one hands out. -/
def LedgerRun.Enters (entering : LedgerRun World α) (run : Run World (Completed World α)) : Prop :=
  ∀ ledger : Ledger World, ledger.Sound → ledger.Entered (entering ledger) (run ledger.runState)

namespace LedgerRun

theorem pure_enters (a : α) : (pure a : LedgerRun World α).Enters (pure (a, .none)) :=
  fun _ hsound ↦ .completed (.none hsound)

/-- What is made of a value that was completed leaves nothing else behind. -/
theorem Enters.map {entering : LedgerRun World α} {run : Run World (Completed World α)}
    (h : entering.Enters run) (f : α → β) :
    Enters (entering >>= fun a => pure (f a))
      (run >>= fun completed => pure (f completed.1, completed.2)) :=
  fun ledger hsound ↦ (h ledger hsound).bind fun _ _ _ hgains ↦ .completed hgains

theorem failed_enters (trail : Trail) (error : FieldError) :
    (failed trail error : LedgerRun World Json).Enters (Execution.failed trail error) :=
  fun _ hsound ↦ .completed (.enterError hsound trail error)

theorem defer_enters (plan : FieldPlan) (typeName : String) (task : Task World) (trail : Trail) :
    (defer plan typeName task trail).Enters (Execution.defer plan typeName task trail) :=
  fun _ hsound ↦ .completed (.enterDeferred hsound plan typeName task trail)

/-- A resolver acts on the world alike; what follows may depend on its answer. -/
theorem act_enters {γ : Type} (action : StateM World γ) {next : γ → LedgerRun World α}
    {more : γ → Run World (Completed World α)} (h : ∀ answer, (next answer).Enters (more answer)) :
    (act action >>= next).Enters (Run.act action >>= more) :=
  fun ledger hsound ↦ .of_world
    (h (action.run ledger.world).1 { ledger with world := (action.run ledger.world).2 }
      ⟨hsound.pending, hsound.superseded, hsound.droppedErrors⟩)

end LedgerRun

namespace LedgerExecution

variable (execution : LedgerExecution World)

theorem missingEntity_enters (key : String) (trail : Trail) :
    (execution.missingEntity key trail).Enters (execution.toExecution.missingEntity key trail) := by
  unfold missingEntity Execution.missingEntity
  cases execution.missingEntities with
  | abort => exact fun _ _ ↦ .aborted
  | nullify => exact LedgerRun.failed_enters trail _

section Entities

variable {id : Nat} {key : String} {ledger : Ledger World}

/-- An entity whose object is known is not completed again. -/
theorem completeEntity_of_known {object : Object}
    (h : ledger.runState.reusable? (key, id) = some object) (expand : LedgerExpand World)
    (record : Object) (trail : Trail) :
    completeEntity id expand key record trail ledger = (.ok (.object object), ledger) := by
  have hfind : ledger.memo.find? (key, id) = some (some object) :=
    RunState.reusable?_eq_some_iff.1 h
  rw [completeEntity, Run.bind_ok (Run.get_apply ledger)]
  simp only [hfind]
  rfl

/-- An entity whose object is not known is expanded. What is known about it changes only if the span
of the expansion is clean. -/
theorem completeEntity_of_unknown (h : ledger.runState.reusable? (key, id) = none)
    (expand : LedgerExpand World) (record : Object) (trail : Trail) :
    completeEntity id expand key record trail ledger =
      match expand record .record none trail ledger with
      | (.ok object, after) =>
        (.ok (.object object),
          if (after.spanSince ledger.mark).isClean then
            after.remember (key, id)
              (if (ledger.memo.find? (key, id)).isSome then some object else none)
          else after)
      | (.error error, after) => (.error error, after) := by
  rw [completeEntity, Run.bind_ok (Run.get_apply ledger)]
  rcases hexpand : expand record .record none trail ledger with ⟨outcome, after⟩
  rcases hfind : ledger.memo.find? (key, id) with _ | _ | object
  case some.some => exact absurd (h.symm.trans (RunState.reusable?_eq_some_iff.2 hfind)) nofun
  all_goals
    refine (Run.bind_ok (Run.get_apply ledger) _).trans ?_
    cases outcome with
    | error error => exact Run.bind_error hexpand _
    | ok object =>
      refine (Run.bind_ok hexpand _).trans ?_
      refine (Run.bind_ok (Run.get_apply after) _).trans ?_
      cases hclean : (after.spanSince ledger.mark).isClean with
      | false => simp [hclean]
      | true =>
        simp [hclean]
        rfl

end Entities

section Values

variable {execution} {id : Nat} {ledgerExpand : LedgerExpand World} {expand : Expand World}
  (hexpand : ∀ object mode typeHint trail,
    (ledgerExpand object mode typeHint trail).Enters (expand object mode typeHint trail))
include hexpand

/-- An entity is reused or expanded in both cases, and what is known about it then is the same,
since its span is clean if nothing is left behind. -/
theorem completeEntity_enters (key : String) (record : Object) (trail : Trail) :
    (completeEntity id ledgerExpand key record trail).Enters
      (Execution.completeEntity id expand key record trail) := by
  intro ledger hsound
  cases hknown : ledger.runState.reusable? (key, id) with
  | some object =>
    rw [completeEntity_of_known hknown, Execution.completeEntity_of_known hknown]
    exact .completed (.none hsound)
  | none =>
    rw [completeEntity_of_unknown hknown, Execution.completeEntity_of_unknown hknown]
    have hentered := hexpand record .record none trail ledger hsound
    revert hentered
    generalize ledgerExpand record .record none trail ledger = outcome
    generalize expand record .record none trail ledger.runState = outcome'
    rintro (⟨hgains⟩ | _)
    · dsimp only
      rw [hgains.isClean]
      split
      · exact .completed (hgains.remember _ _)
      · exact .completed hgains
    · exact .aborted

-- Each theorem of the block needs the assumptions of the others.
set_option linter.unusedSectionVars false in
mutual

theorem completeValue_enters (mode : ReadMode) (typeHint : Option String) (trail : Trail)
    (value : Json) :
    (execution.completeValue id ledgerExpand mode typeHint trail value).Enters
      (execution.toExecution.completeValue id expand mode typeHint trail value) := by
  cases value with
  | null => exact LedgerRun.pure_enters _
  | bool _ | number _ | string _ => exact LedgerRun.failed_enters _ _
  | array items =>
    unfold completeValue Execution.completeValue
    exact (completeItems_enters mode typeHint trail 0 items).map Json.array
  | object fields =>
    unfold completeValue Execution.completeValue
    cases execution.store.resolve (.object fields) with
    | entity key record => exact completeEntity_enters hexpand key record trail
    | missing key => exact execution.missingEntity_enters key trail
    | notReference => exact (hexpand fields mode typeHint trail).map Json.object

/-- The work of the items of a list is entered item by item. -/
theorem completeItems_enters (mode : ReadMode) (typeHint : Option String) (trail : Trail)
    (position : Nat) (items : List Json) :
    (execution.completeItems id ledgerExpand mode typeHint trail position items).Enters
      (execution.toExecution.completeItems id expand mode typeHint trail position items) := by
  cases items with
  | nil => exact LedgerRun.pure_enters _
  | cons item items =>
    unfold completeItems Execution.completeItems
    intro ledger hsound
    refine (completeValue_enters mode typeHint _ item ledger hsound).bind ?_
    intro value work middle hgains
    refine (completeItems_enters mode typeHint trail _ items middle hgains.sound).bind ?_
    exact fun values more after hmore ↦ .completed (hgains.trans hmore)

end

end Values

section Fields

variable {execution} {complete : Json → Trail → LedgerRun World Json}
  {complete' : Json → Trail → Run World (Completed World Json)}
  (hcomplete : ∀ value trail, (complete value trail).Enters (complete' value trail))
include hcomplete

theorem completeRemote_enters (field : PlannedField) (object : Object) (mode : ReadMode)
    (known : Option String) (trail : Trail) :
    (execution.completeRemote complete field object mode known trail).Enters
      (execution.toExecution.completeRemote complete' field object mode known trail) := by
  unfold completeRemote Execution.completeRemote
  cases execution.remoteValue? field object mode with
  | some value => exact hcomplete value trail
  | none =>
    cases field.isTypename <;> cases known
    case true.some => exact LedgerRun.pure_enters _
    all_goals exact LedgerRun.failed_enters trail _

theorem completeLocal_enters (plan : FieldPlan) (object : Object) (known : Option String)
    (trail : Trail) :
    (execution.completeLocal complete plan object known trail).Enters
      (execution.toExecution.completeLocal complete' plan object known trail) := by
  unfold completeLocal Execution.completeLocal
  dsimp only
  cases execution.registry.lookup (known.getD execution.rootType) plan.field.name with
  | none => exact LedgerRun.failed_enters trail _
  | some resolver =>
    refine LedgerRun.act_enters _ fun answer ↦ ?_
    match answer with
    | .ready (.ok value) => exact hcomplete value trail
    | .ready (.error reason) => exact LedgerRun.failed_enters trail _
    | .pending task => exact LedgerRun.defer_enters plan _ task trail

end Fields

theorem completeLeaf_enters (value : Json) (trail : Trail) :
    (completeLeaf value trail : LedgerRun World Json).Enters
      (Execution.completeLeaf value trail) := by
  unfold completeLeaf Execution.completeLeaf
  split
  · exact LedgerRun.failed_enters trail _
  · exact LedgerRun.pure_enters _

/-- Setting a field never fails; what it replaces is noted. -/
theorem insert_apply (spans : SpanAssembler) (key : String) (value : Json) (mark : Mark)
    (ledger : Ledger World) :
    LedgerRun.insert spans key value mark ledger =
      (.ok (spans.insert key value (ledger.spanSince mark)).1,
        ledger.supersede? (spans.takeSpan key).1) := rfl

mutual

theorem completeField_enters (plan : FieldPlan) (object : Object) (mode : ReadMode)
    (known : Option String) (trail : Trail) :
    (execution.completeField plan object mode known trail).Enters
      (execution.toExecution.completeField plan object mode known trail) := by
  cases plan with
  | leaf field =>
    unfold completeField Execution.completeField
    split
    · exact completeLocal_enters (fun value _ ↦ LedgerRun.pure_enters value) _ object known trail
    · exact completeRemote_enters completeLeaf_enters field object mode known trail
  | nested field id fields =>
    have hexpand (inner : Object) (mode : ReadMode) (typeHint : Option String) (trail : Trail) :
        (execution.completeFields fields 0 inner mode typeHint trail {}).Enters
          (execution.toExecution.completeFields fields 0 inner mode typeHint trail .empty) :=
      fun ledger hsound ↦ completeFields_enters fields 0 inner mode typeHint trail hsound
        (.empty hsound)
    unfold completeField Execution.completeField
    dsimp only
    split
    · exact completeLocal_enters
        (fun value trail ↦ completeValue_enters hexpand .payload none trail value) _ object known
        trail
    · exact completeRemote_enters
        (fun value trail ↦ completeValue_enters hexpand mode none trail value) field object mode
        known trail

/-- The work of an object has been entered since it was begun. -/
theorem completeFields_enters (plans : List FieldPlan) (position : Nat) (object : Object)
    (mode : ReadMode) (typeHint : Option String) (trail : Trail) {base ledger : Ledger World}
    (hbase : base.Sound) {kept : List (Ledger.Kept World)} {spans : SpanAssembler}
    {assembler : Assembler World} (h : Ledger.Assembles base kept spans assembler ledger) :
    base.Entered
      (execution.completeFields plans position object mode typeHint trail spans ledger)
      (execution.toExecution.completeFields plans position object mode typeHint trail assembler
        ledger.runState) := by
  cases plans with
  | nil =>
    unfold completeFields Execution.completeFields
    rw [h.object]
    exact .completed h.gains
  | cons plan plans =>
    unfold completeFields Execution.completeFields
    split
    · refine (completeField_enters plan object mode _ _ ledger h.sound).bind ?_
      intro value work after hgains
      obtain ⟨kept', hassembles⟩ := h.insert hbase hgains plan.field.responseKey value
      rw [Run.bind_ok (insert_apply _ _ _ _ _)]
      have hfields := completeFields_enters plans (position + 1) object mode typeHint trail hbase
        hassembles
      rw [Ledger.runState_supersede?] at hfields
      exact hfields
    · exact completeFields_enters plans (position + 1) object mode typeHint trail hbase h

end

/-- Completing an object enters the work that is left behind. -/
theorem completeObject_enters (fields : List FieldPlan) (object : Object) (mode : ReadMode)
    (typeHint : Option String) (trail : Trail) :
    (execution.completeObject fields object mode typeHint trail).Enters
      (execution.toExecution.completeObject fields object mode typeHint trail) :=
  fun _ hsound ↦ execution.completeFields_enters fields 0 object mode typeHint trail hsound
    (.empty hsound)

/-- So does completing the result of a resolver. -/
theorem completeResolved_enters (plan : FieldPlan) (value : Json) (trail : Trail) :
    (execution.completeResolved plan value trail).Enters
      (execution.toExecution.completeResolved plan value trail) := by
  cases plan with
  | leaf field => exact LedgerRun.pure_enters value
  | nested field id fields =>
    exact completeValue_enters (execution.completeObject_enters fields) .payload none trail value

/-- Finishing a deferred field enters the work that is left behind. -/
theorem finish_enters (deferred : Deferred World) :
    (LedgerRun.act deferred.task.finish >>= execution.completeFinished deferred).Enters
      (execution.toExecution.settle deferred) := by
  refine LedgerRun.act_enters _ fun answer ↦ ?_
  match answer with
  | .ok value => exact execution.completeResolved_enters deferred.plan value deferred.trail
  | .error reason => exact LedgerRun.failed_enters deferred.trail _

end LedgerExecution

end GraphCache
