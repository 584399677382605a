import GraphCache.Proofs.ForgetfulExecutions
import GraphCache.Proofs.Lockstep
import GraphCache.Proofs.Numbering

/-!
# Reusing completed entities

An execution that reuses completed entities is in lock-step with one that always completes them
again. What is kept about an entity is what completing it again would give, at any position, in any
state and whatever else was completed before; and an entity is only kept for a selection set that
no other one shares its number with.

## Main definitions

* `Memo.Transparent`: completed entities are what completing them again gives.
* `Execution.Agrees`: completions that are in lock-step.

## Main results

* `Execution.completeEntity_alike`: reusing an entity and completing it again are in lock-step.
* `Execution.completeFields_alike`, `Execution.driveIn_alike`: so are objects and whole executions.
* `Executor.executeIn_eq_forgetful`: reuse is invisible in the result.
-/

namespace GraphCache

variable {World α : Type} {plan : QueryPlan}

/-- The completed entities are what completing them again gives, at every position and in every
state. -/
def Memo.Transparent (execution : Execution World) (plan : QueryPlan) : Memo → Prop :=
  Memo.Describes execution.store plan fun fields record object =>
    ∀ trail state, ∃ state',
      execution.forgetful.completeObject fields record .record none trail state
        = (.ok (object, .none), state')

namespace Execution

variable {execution : Execution World}

variable (execution) in
/-- A completion of an execution and one that never reuses an entity are in lock-step. -/
def Agrees (plan : QueryPlan) (a b : Run World (Completed World α)) : Prop :=
  Run.Alike (Memo.Transparent execution plan) (Completed.Alike plan) a b

variable (execution) in
/-- The resolvers of the local fields of a plan give answers that are alike in all worlds. -/
def AnswersAlike (plan : QueryPlan) : Prop :=
  ∀ fieldPlan, plan.Has fieldPlan →
    fieldPlan.field.isLocal = true →
      ∀ typeName resolver, execution.registry.lookup typeName fieldPlan.field.name = some resolver →
        ∀ parent arguments world world',
          Resolution.Alike ((resolver parent arguments execution.scope).run world).1
            ((resolver parent arguments execution.scope).run world').1

theorem Agrees.value (value : α) :
    execution.Agrees plan (pure (value, .none)) (pure (value, .none)) :=
  .pure ⟨rfl, .none⟩

theorem Agrees.failed (trail : Trail) (error : FieldError) :
    execution.Agrees plan (failed trail error) (failed trail error) :=
  .pure ⟨rfl, .ofFault trail error⟩

/-- Completed objects become values that are alike. -/
theorem Agrees.object {a b : Run World (Completed World Object)} (h : execution.Agrees plan a b) :
    execution.Agrees plan (a >>= fun completed => pure (Json.object completed.1, completed.2))
      (b >>= fun completed => pure (Json.object completed.1, completed.2)) :=
  Run.Alike.bind h fun _ _ halike ↦ .pure ⟨congrArg Json.object halike.1, halike.2⟩

theorem missingEntity_alike (key : String) (trail : Trail) :
    execution.Agrees plan (execution.missingEntity key trail)
      (execution.missingEntity key trail) := by
  unfold missingEntity
  split
  · exact .throw _
  · exact .failed trail _

/-- An object that leaves no work behind at one position leaves none behind at any other. -/
theorem completeObject_of_clean {fields : List FieldPlan} {record object : Object}
    {trail : Trail} {state state' : RunState World}
    (h : execution.completeObject fields record .record none trail state
      = (.ok (object, .none), state')) (other : Trail) :
    execution.completeObject fields record .record none other state
      = (.ok (object, .none), state') := by
  have hmoves : MovesAlong (execution.completeObject fields) := completeObject_movesAlong fields
  rw [hmoves.eq_under] at h ⊢
  rcases hroot : execution.completeObject fields record .record none {} state with ⟨outcome, s⟩
  cases outcome with
  | error error =>
    rw [Run.under_apply_error hroot] at h
    cases h
  | ok completed =>
    rw [Run.under_apply_ok hroot] at h
    obtain ⟨hcompleted, rfl⟩ := Prod.mk.inj h
    obtain ⟨rfl, hwork⟩ := Prod.mk.inj (Except.ok.inj hcompleted)
    have hclean : completed.2.isClean = true := by
      rw [← Work.isClean_under trail, hwork]
      rfl
    rw [Run.under_apply_ok hroot, (Work.isClean_iff completed.2).1 hclean, Work.under_none]

section Values

variable (hplan : plan.Planned) {id : Nat} {fields : List FieldPlan}
  (hfields : ⟨id, fields⟩ ∈ plan.selection.selections)
  (hexpand : ∀ object mode typeHint trail, execution.Agrees plan
    (execution.completeObject fields object mode typeHint trail)
    (execution.forgetful.completeObject fields object mode typeHint trail))

include hplan hfields hexpand

/-- Completing an entity, perhaps by reusing it, and completing it again are in lock-step. -/
theorem completeEntity_alike {key : String} {record : Object}
    (hrecord : Dict.get? execution.store key = some record) (trail : Trail) :
    execution.Agrees plan (completeEntity id (execution.completeObject fields) key record trail)
      (execution.forgetful.completeObject fields record .record none trail >>=
        fun completed => pure (.object completed.1, completed.2)) := by
  intro s t hsound
  cases hknown : s.reusable? (key, id) with
  | some object =>
    obtain ⟨t', hagain⟩ := hsound key id object (RunState.reusable?_eq_some_iff.1 hknown) fields
      hfields record hrecord trail t
    rw [Run.bind_ok hagain]
    exact .inl ⟨_, _, s, t', completeEntity_of_known hknown _ record trail, rfl, hsound, rfl, .none⟩
  | none =>
    have hstep := completeEntity_of_unknown hknown (execution.completeObject fields) record trail
    rcases hexpand record .record none trail s t hsound with
      ⟨⟨object, work⟩, ⟨again, more⟩, s', t', hrun, hagain, hsound', rfl, hwork⟩ |
      ⟨error, s', t', hrun, hagain⟩
    · rw [hrun] at hstep
      rw [Run.bind_ok hagain]
      refine .inl ⟨_, _, _, t', hstep, rfl, ?_, rfl, hwork⟩
      split
      · next hclean =>
        obtain rfl := (Work.isClean_iff work).1 hclean
        refine Memo.Describes.cons hplan hsound' hfields hrecord fun kept hkept other state ↦ ?_
        have hkept' : kept = object := by
          split at hkept
          · exact (Option.some.inj hkept).symm
          · cases hkept
        subst hkept'
        -- The lock-step begins at any position, and in any state of the second execution.
        obtain ⟨⟨again, left⟩, state', hagain', rfl, hleft⟩ :=
          (hexpand record .record none other).of_ok hsound (completeObject_of_clean hrun other)
            state
        obtain rfl := (Work.isClean_iff left).1 (hleft.isClean_eq.symm.trans rfl)
        exact ⟨state', hagain'⟩
      · exact hsound'
    · rw [hrun] at hstep
      rw [Run.bind_error hagain]
      exact .inr ⟨error, s', t', hstep, rfl⟩

-- Each theorem of the block needs the assumptions of the others.
set_option linter.unusedSectionVars false in
mutual

/-- Completing a value with and without reuse is in lock-step. -/
theorem completeValue_alike (mode : ReadMode) (typeHint : Option String) (trail : Trail)
    (value : Json) :
    execution.Agrees plan
      (execution.completeValue id (execution.completeObject fields) mode typeHint trail value)
      (execution.forgetful.completeValue (execution.forgetful.completeObject fields) mode typeHint
        trail value) := by
  cases value with
  | null => exact .value _
  | bool _ => exact .failed _ _
  | number _ => exact .failed _ _
  | string _ => exact .failed _ _
  | array items =>
    rw [completeValue, ForgetfulExecution.completeValue]
    exact Run.Alike.bind (completeItems_alike mode typeHint trail 0 items) fun _ _ halike ↦
      .pure ⟨congrArg Json.array halike.1, halike.2⟩
  | object object =>
    have hstore : execution.forgetful.store = execution.store := rfl
    rw [completeValue, ForgetfulExecution.completeValue, hstore]
    cases hresolve : execution.store.resolve (.object object) with
    | notReference => exact (hexpand object mode typeHint trail).object
    | entity key record =>
      exact completeEntity_alike hplan hfields hexpand (Snapshot.get?_of_resolve hresolve) trail
    | missing key => exact missingEntity_alike key trail

theorem completeItems_alike (mode : ReadMode) (typeHint : Option String) (trail : Trail)
    (position : Nat) (items : List Json) :
    execution.Agrees plan
      (execution.completeItems id (execution.completeObject fields) mode typeHint trail position
        items)
      (execution.forgetful.completeItems (execution.forgetful.completeObject fields) mode typeHint
        trail position items) := by
  cases items with
  | nil => exact .value _
  | cons item rest =>
    rw [completeItems, ForgetfulExecution.completeItems]
    refine Run.Alike.bind (completeValue_alike mode typeHint (trail.index position) item)
      fun _ _ hitem ↦ ?_
    refine Run.Alike.bind (completeItems_alike mode typeHint trail (position + 1) rest)
      fun _ _ hrest ↦ ?_
    exact .pure ⟨congrArg₂ List.cons hitem.1 hrest.1, hitem.2.append hrest.2⟩

end

end Values

theorem completeLeaf_alike (value : Json) (trail : Trail) :
    execution.Agrees plan (completeLeaf value trail) (completeLeaf value trail) := by
  rw [completeLeaf]
  split
  · exact .failed _ _
  · exact .value _

theorem completeRemote_alike {complete again : Json → Trail → Run World (Completed World Json)}
    (h : ∀ value trail, execution.Agrees plan (complete value trail) (again value trail))
    (planned : PlannedField) (object : Object) (mode : ReadMode) (known : Option String)
    (trail : Trail) :
    execution.Agrees plan (execution.completeRemote complete planned object mode known trail)
      (execution.completeRemote again planned object mode known trail) := by
  unfold completeRemote
  cases execution.remoteValue? planned object mode with
  | some value => exact h value trail
  | none =>
    dsimp only
    split
    · exact .value _
    · exact .failed _ _

/-- Leaving a field to tasks that give the same result is in lock-step. -/
theorem defer_alike {fieldPlan : FieldPlan}
    (hplanned : plan.Has fieldPlan)
    {task again : Task World} (htask : ∃ result, task.Gives result ∧ again.Gives result)
    (typeName : String) (trail : Trail) :
    execution.Agrees plan (defer fieldPlan typeName task trail)
      (defer fieldPlan typeName again trail) := by
  intro s t hsound
  refine .inl ⟨_, _, _, _, defer_apply fieldPlan typeName task trail s,
    defer_apply fieldPlan typeName again trail t, hsound, rfl, ?_⟩
  exact ⟨rfl, .cons ⟨rfl, rfl, rfl, htask, hplanned⟩ .nil, rfl, .nil⟩

theorem completeLocal_alike (hanswers : execution.AnswersAlike plan)
    {complete again : Json → Trail → Run World (Completed World Json)}
    (h : ∀ value trail, execution.Agrees plan (complete value trail) (again value trail))
    {fieldPlan : FieldPlan}
    (hplanned : plan.Has fieldPlan)
    (hlocal : fieldPlan.field.isLocal = true) (object : Object) (known : Option String)
    (trail : Trail) :
    execution.Agrees plan (execution.completeLocal complete fieldPlan object known trail)
      (execution.completeLocal again fieldPlan object known trail) := by
  cases hlookup : execution.registry.lookup (known.getD execution.rootType)
      fieldPlan.field.name with
  | none =>
    rw [completeLocal_of_lookup_none execution hlookup,
      completeLocal_of_lookup_none execution hlookup]
    exact .failed _ _
  | some resolver =>
    rw [completeLocal_of_lookup execution hlookup, completeLocal_of_lookup execution hlookup]
    refine Run.Alike.bind (.act (hanswers fieldPlan hplanned hlocal _ resolver hlookup object
      (fieldPlan.field.boundArguments execution.variableValues))) fun answer answer' halike ↦ ?_
    cases answer with
    | pending task =>
      cases answer' with
      | pending task' => exact defer_alike hplanned halike _ trail
      | ready result' => exact halike.elim
    | ready result =>
      cases answer' with
      | pending task' => exact halike.elim
      | ready result' =>
        obtain rfl : result = result' := halike
        cases result with
        | ok value => exact h value trail
        | error reason => exact Agrees.failed _ _

section Fields

variable (hplan : plan.Planned) (hanswers : execution.AnswersAlike plan)

include hplan hanswers

-- Each theorem of the block needs the assumptions of the others.
set_option linter.unusedSectionVars false in
mutual

/-- Completing a field with and without reuse is in lock-step. -/
theorem completeField_alike (fieldPlan : FieldPlan)
    (hplanned : plan.Has fieldPlan)
    (object : Object) (mode : ReadMode) (known : Option String) (trail : Trail) :
    execution.Agrees plan (execution.completeField fieldPlan object mode known trail)
      (execution.forgetful.completeField fieldPlan object mode known trail) := by
  cases fieldPlan with
  | leaf planned =>
    rw [completeField, ForgetfulExecution.completeField]
    split
    · next hlocal =>
      exact completeLocal_alike hanswers (fun _ _ ↦ .value _) hplanned hlocal object known trail
    · exact completeRemote_alike completeLeaf_alike planned object mode known trail
  | nested planned id fields =>
    have hfields : ⟨id, fields⟩ ∈ plan.selection.selections := hplanned.mem_selections
    have hexpand : ∀ object mode typeHint trail, execution.Agrees plan
        (execution.completeObject fields object mode typeHint trail)
        (execution.forgetful.completeObject fields object mode typeHint trail) :=
      fun object mode typeHint trail ↦ completeFields_alike fields
        (fun _ hinner ↦ QueryPlan.has_of_mem hfields hinner) 0 object mode typeHint trail .empty
        .empty .empty
    rw [completeField, ForgetfulExecution.completeField]
    split
    · next hlocal =>
      exact completeLocal_alike hanswers (fun value trail ↦
        completeValue_alike hplan hfields hexpand .payload none trail value) hplanned hlocal object
        known trail
    · exact completeRemote_alike (fun value trail ↦
        completeValue_alike hplan hfields hexpand mode none trail value) planned object mode known
        trail

/-- Completing listed fields with and without reuse is in lock-step. -/
theorem completeFields_alike (plans : List FieldPlan)
    (hplans : ∀ fieldPlan ∈ plans, plan.Has fieldPlan)
    (position : Nat) (object : Object) (mode : ReadMode) (typeHint : Option String) (trail : Trail)
    (assembler again : Assembler World) (halike : Assembler.Alike plan assembler again) :
    execution.Agrees plan
      (execution.completeFields plans position object mode typeHint trail assembler)
      (execution.forgetful.completeFields plans position object mode typeHint trail again) := by
  cases plans with
  | nil => exact .pure ⟨halike.object, halike.work⟩
  | cons fieldPlan rest =>
    have hrest := fun inner hinner ↦ hplans inner (List.mem_cons_of_mem _ hinner)
    have hvalues : execution.forgetful.variableValues = execution.variableValues := rfl
    rw [completeFields, ForgetfulExecution.completeFields, hvalues]
    split
    · refine Run.Alike.bind (completeField_alike fieldPlan (hplans _ List.mem_cons_self) object mode
        _ _) fun ⟨value, work⟩ ⟨value', work'⟩ hcompleted ↦ ?_
      obtain ⟨rfl, hwork⟩ := hcompleted
      exact completeFields_alike rest hrest (position + 1) object mode typeHint trail _ _
        (halike.insert _ value hwork)
    · exact completeFields_alike rest hrest (position + 1) object mode typeHint trail _ _ halike

end

/-- Completing an object with and without reuse is in lock-step. -/
theorem completeObject_alike {id : Nat} {fields : List FieldPlan}
    (hfields : ⟨id, fields⟩ ∈ plan.selection.selections) (object : Object) (mode : ReadMode)
    (typeHint : Option String) (trail : Trail) :
    execution.Agrees plan (execution.completeObject fields object mode typeHint trail)
      (execution.forgetful.completeObject fields object mode typeHint trail) :=
  completeFields_alike hplan hanswers fields (fun _ hinner ↦ QueryPlan.has_of_mem hfields hinner)
    0 object mode typeHint trail .empty .empty .empty

/-- Completing the result of a resolver with and without reuse is in lock-step. -/
theorem completeResolved_alike {fieldPlan : FieldPlan}
    (hplanned : plan.Has fieldPlan)
    (value : Json) (trail : Trail) :
    execution.Agrees plan (execution.completeResolved fieldPlan value trail)
      (execution.forgetful.completeResolved fieldPlan value trail) := by
  cases fieldPlan with
  | leaf planned => exact .value value
  | nested planned id fields =>
    have hfields : ⟨id, fields⟩ ∈ plan.selection.selections := hplanned.mem_selections
    exact completeValue_alike hplan hfields (completeObject_alike hplan hanswers hfields) .payload
      none trail value

/-- Finishing deferred fields that are alike is in lock-step. -/
theorem settle_alike {deferred again : Deferred World} (halike : deferred.Alike plan again) :
    execution.Agrees plan (execution.settle deferred) (execution.forgetful.settle again) := by
  obtain ⟨result, hresult, hagain⟩ := halike.task
  have hresults : ∀ world world', (deferred.task.finish.run world).1
      = (again.task.finish.run world').1 :=
    fun world world' ↦ (hresult world).trans (hagain world').symm
  rw [settle, ForgetfulExecution.settle, halike.trail, halike.field, halike.typeName]
  refine Run.Alike.bind (.act hresults) fun finished finished' hfinished ↦ ?_
  subst hfinished
  cases finished with
  | ok value => exact completeResolved_alike hplan hanswers halike.planned value again.trail
  | error reason => exact Agrees.failed _ _

/-- Finishing all deferred fields in one order, with and without reuse, ends in the same way. -/
theorem driveIn_alike (order : FinishingOrder) (waiting again : List (Deferred World))
    (hwaiting : List.Forall₂ (Deferred.Alike plan) waiting again) (progress : Progress)
    (s t : RunState World) (hsound : Memo.Transparent execution plan s.memo) :
    (execution.driveIn order ⟨waiting⟩ progress s).1
      = (execution.forgetful.driveIn order ⟨again⟩ progress t).1 := by
  by_cases hempty : waiting = []
  · subst hempty
    obtain rfl := List.forall₂_nil_left_iff.1 hwaiting
    rw [driveIn_nil, ForgetfulExecution.driveIn_nil]
  · have hlength := hwaiting.length_eq
    have hindex : order 0 % waiting.length < waiting.length :=
      Nat.mod_lt _ (List.length_pos_iff.2 hempty)
    have hindex' : order 0 % waiting.length < again.length := hlength ▸ hindex
    have hnext : waiting[order 0 % waiting.length].Alike plan again[order 0 % waiting.length] :=
      hwaiting.get hindex hindex'
    have hothers : List.Forall₂ (Deferred.Alike plan)
        (waiting.eraseIdx (order 0 % waiting.length))
        (again.eraseIdx (order 0 % waiting.length)) := by
      rw [List.eraseIdx_eq_take_drop_succ, List.eraseIdx_eq_take_drop_succ]
      exact List.rel_append (List.forall₂_take _ hwaiting) (List.forall₂_drop _ hwaiting)
    rw [driveIn_cons order hindex rfl,
      ForgetfulExecution.driveIn_cons order hindex' (by rw [hlength])]
    rcases settle_alike hplan hanswers hnext s t hsound with
      ⟨⟨value, work⟩, ⟨value', work'⟩, s', t', hsettle, hsettle', hsound', hvalue, hwork⟩ |
      ⟨error, s', t', hsettle, hsettle'⟩
    · obtain rfl : value = value' := hvalue
      rw [hsettle, hsettle']
      dsimp only
      rw [hnext.trail, hwork.faults]
      exact driveIn_alike order.tail _ _ (List.rel_append hothers hwork.deferred) _ s' t' hsound'
    · rw [hsettle, hsettle']
termination_by (⟨waiting⟩ : Queue World)
decreasing_by
  exact ⟨_, _, work.deferred, execution.settle_rank_lt _ _ _ _ hsettle,
    (List.getElem_cons_eraseIdx_perm hindex).symm, .refl _⟩

end Fields

end Execution

namespace Executor

variable {executor : Executor World}

theorem execution_forgetful : executor.forgetful.execution = executor.execution.forgetful := rfl

/-- The first pass with and without reuse is in lock-step. -/
theorem start_alike (hplan : executor.plan.Planned)
    (hanswers : executor.execution.AnswersAlike executor.plan) (root : Root) :
    executor.execution.Agrees executor.plan (executor.start root)
      (executor.forgetful.start root) := by
  have hroot := executor.plan.selection.self_mem_selections
  have hexpand := Execution.completeObject_alike hplan hanswers hroot
  unfold start ForgetfulExecutor.start
  rw [execution_forgetful]
  cases root with
  | entity key =>
    have hstore : executor.forgetful.store = executor.store := rfl
    have hplans : executor.forgetful.plan = executor.plan := rfl
    dsimp only
    rw [hstore, hplans]
    cases Dict.get? executor.store key with
    | some record => exact (hexpand record .record _ _).object
    | none =>
      dsimp only
      split
      · exact (hexpand [] .record _ _).object
      · exact Execution.missingEntity_alike key _
  | value payload =>
    exact Execution.completeValue_alike hplan hroot hexpand .payload _ _ payload

/-- Whole executions with and without reuse give the same result. -/
theorem executeIn_alike (hplan : executor.plan.Planned)
    (hanswers : executor.execution.AnswersAlike executor.plan) (order : FinishingOrder)
    (root : Root) (world world' : World) :
    (executor.executeIn order root world).1
      = (executor.forgetful.executeIn order root world').1 := by
  have hregistry : executor.forgetful.registry.validate executor.forgetful.plan
      = executor.registry.validate executor.plan := rfl
  unfold executeIn ForgetfulExecutor.executeIn
  rw [hregistry]
  cases executor.registry.validate executor.plan with
  | error error => rfl
  | ok valid =>
    rcases start_alike hplan hanswers root { world } { world := world' } .nil with
      ⟨⟨data, work⟩, ⟨data', work'⟩, s, t, hstart, hstart', hsound, hdata, hwork⟩ |
      ⟨error, s, t, hstart, hstart'⟩
    · obtain rfl : data = data' := hdata
      have hdrive := Execution.driveIn_alike hplan hanswers order _ _ hwork.deferred
        ⟨data, work.faults⟩ s t hsound
      have hfaults : work.faults = work'.faults := hwork.faults
      simp only [hstart, hstart', execution_forgetful]
      rw [hfaults] at hdrive ⊢
      exact congrArg (Except.map respond) hdrive
    · simp only [hstart, hstart']

/-- Reuse is invisible in the result: the response or the error is the one of an execution that
completes every entity again whenever it is met. -/
theorem executeIn_eq_forgetful (hplan : executor.plan.Planned)
    {atOnce : (typeName field : String) → (parent arguments : Object) → Bool}
    {results : ResolverResults}
    (hanswers : executor.registry.Answers executor.scope atOnce results) (root : Root)
    (world world' : World) :
    (∀ order, (executor.executeIn order root world).1
        = (executor.forgetful.executeIn order root world').1) ∧
      ∃ order, (executor.execute root world).1
        = (executor.forgetful.executeIn order root world').1 := by
  have halike : executor.execution.AnswersAlike executor.plan :=
    fun _ _ _ typeName resolver hlookup ↦ hanswers.alike hlookup
  refine ⟨fun order ↦ executeIn_alike hplan halike order root world world', ?_⟩
  obtain ⟨order, horder⟩ := executor.exists_order root world
  exact ⟨order, by rw [← horder, executeIn_alike hplan halike order root world world']⟩

section Sample

/-- Lists people by their names, and asks for a greeting. -/
def peoplePlan : QueryPlan where
  kind := .query
  operationName := none
  rootType := "Query"
  variableDefaults := []
  selection := ⟨0,
    [.nested ⟨"people", "people", false, [], some [], some "people", some "Query", [], []⟩ 1
        [.leaf ⟨"name", "name", false, [], some [], some "name", none, [], []⟩],
      .leaf ⟨"greeting", "greeting", true, [], some [], some "greeting", some "Query", [], []⟩]⟩

theorem peoplePlan_planned : peoplePlan.Planned :=
  .ofSelections (show planSelections
    [.nested { name := "people" } [.leaf { name := "name" }],
      .leaf { name := "greeting", isLocal := true }] [] "Query" = .ok peoplePlan by rfl)

/-- One person is listed three times; the greeting is left to a task. -/
def peopleExecutor : Executor Nat where
  plan := peoplePlan
  registry := [⟨"Query", "greeting", countingTask (.ok (.string "hello"))⟩]
  store :=
    [(peoplePlan.rootKey, [("people", .array (List.replicate 3 (.reference "Person:1")))]),
      ("Person:1", [("name", .string "Ada")])]

theorem peopleExecutor_answers {scope : ResolverScope} :
    peopleExecutor.registry.Answers scope (fun _ _ _ _ => false)
      fun _ _ _ _ => .ok (.string "hello") := by
  refine ⟨Registry.gives_of_forall_mem fun entry hentry parent arguments world ↦ ?_,
    fun typeName field resolver hlookup parent arguments world ↦ ?_⟩
  · obtain rfl := List.mem_singleton.1 hentry
    exact fun _ ↦ rfl
  · obtain ⟨entry, hfound, rfl⟩ := Option.map_eq_some_iff.1 hlookup
    obtain rfl := List.mem_singleton.1 (List.mem_of_find?_eq_some hfound)
    rfl

theorem peopleExecutor_executeIn_eq_forgetful :
    (∀ order, (peopleExecutor.executeIn order .query 0).1
        = (peopleExecutor.forgetful.executeIn order .query 7).1) ∧
      ∃ order, (peopleExecutor.execute .query 0).1
        = (peopleExecutor.forgetful.executeIn order .query 7).1 :=
  executeIn_eq_forgetful peoplePlan_planned peopleExecutor_answers .query 0 7

end Sample

end Executor

end GraphCache
