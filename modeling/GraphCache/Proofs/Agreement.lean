import GraphCache.Proofs.Answers
import GraphCache.Proofs.FinishingOrder
import GraphCache.Proofs.Numbering
import GraphCache.Proofs.Prospects

/-!
# Executions agree with direct evaluation

When missing entities become `null` and the results of resolvers are determined, completing a value
leads to what direct evaluation gives for it, whatever is deferred on the way. An entity that is
reused was evaluated without faults, so it is evaluated to the same object wherever it occurs; that
no other selection set has the number under which it is kept is what the planner ensures.

## Main definitions

* `Memo.Sound`: completed entities are what direct evaluation gives for them.
* `Execution.Evaluates`: a completion that leads to what direct evaluation gives.

## Main results

* `Execution.completeField_evaluates`, `Execution.completeFields_evaluates`: one case for each kind
  of field, and lists of fields in which later ones replace earlier ones.
* `Execution.Underway.finish`: whatever the order in which deferred fields finish, the data and the
  faults are those of direct evaluation.
-/

namespace GraphCache

variable {World α β : Type}

/-- The completed entities are what direct evaluation gives for them, without any fault. -/
def Memo.Sound (evaluator : Evaluator) (plan : QueryPlan) : Memo → Prop :=
  Memo.Describes evaluator.store plan fun fields record object =>
    evaluator.fields fields 0 record .record none = (object, [])

/-- A field that was deferred during the execution of a plan, by a resolver with determined
results. -/
structure Deferred.Due (plan : QueryPlan) (deferred : Deferred World) : Prop where
  /-- The task gives a determined result. -/
  determined : ∃ result, deferred.task.Gives result
  /-- The field belongs to the plan. -/
  planned : plan.Has deferred.plan

theorem Deferred.Due.under {plan : QueryPlan} {deferred : Deferred World} (h : deferred.Due plan)
    (trail : Trail) : (deferred.under trail).Due plan :=
  ⟨h.determined, h.planned⟩

namespace Execution

variable (execution : Execution World) (results : ResolverResults) (plan : QueryPlan)
  (world : World)

/-- What a deferred field comes to in direct evaluation; the world in which its task is finished is
of no importance if the result is determined. -/
def outcome (deferred : Deferred World) : Evaluated Json :=
  Evaluator.result ((execution.evaluator results).resolved deferred.plan) deferred.plan
    deferred.typeName (deferred.task.finish.run world).1

theorem outcome_portable : Deferred.Portable (execution.outcome results world) :=
  fun _ _ ↦ rfl

/-- A completed value leads to an evaluated one. -/
def Reaches (completed : Completed World Json) (evaluated : Evaluated Json) : Prop :=
  LeadsTo (execution.outcome results world) completed.1 completed.2.faults completed.2.deferred
      evaluated ∧
    ∀ deferred ∈ completed.2.deferred, deferred.Due plan

/-- A completion leads to an evaluated value. -/
def Evaluates (run : Run World (Completed World Json)) (evaluated : Evaluated Json) : Prop :=
  run.Achieves (Memo.Sound (execution.evaluator results) plan)
    fun completed => execution.Reaches results plan world completed evaluated

/-- The items of a list, of which the first has the given index, lead to evaluated ones. -/
def EvaluatesItems (position : Nat) (run : Run World (Completed World (List Json)))
    (evaluated : Evaluated (List Json)) : Prop :=
  run.Achieves (Memo.Sound (execution.evaluator results) plan) fun completed =>
    LeadsToItems (execution.outcome results world) position completed.1 completed.2.faults
        completed.2.deferred evaluated ∧
      ∀ deferred ∈ completed.2.deferred, deferred.Due plan

/-- Completing objects leads to evaluated objects. -/
def EvaluatesObjects (expand : Expand World)
    (evaluate : Object → ReadMode → Option String → Evaluated Object) : Prop :=
  ∀ object mode typeHint,
    (expand object mode typeHint {}).Achieves (Memo.Sound (execution.evaluator results) plan)
      fun completed => execution.Reaches results plan world (.object completed.1, completed.2)
        (.object (evaluate object mode typeHint).1, (evaluate object mode typeHint).2)

/-- The deferred fields that wait lead to a final value and final faults, and all else that is known
is right. -/
structure Underway (final : Evaluated Json) (waiting : List (Deferred World)) (progress : Progress)
    (state : RunState World) : Prop where
  /-- The waiting fields complete the data and the faults so far. -/
  leads : LeadsTo (execution.outcome results world) progress.data progress.faults waiting final
  /-- The waiting fields belong to the plan. -/
  due : ∀ deferred ∈ waiting, deferred.Due plan
  /-- The completed entities are what direct evaluation gives for them. -/
  sound : Memo.Sound (execution.evaluator results) plan state.memo

variable {execution results plan world}

theorem Underway.perm {final : Evaluated Json} {a b : List (Deferred World)} {progress : Progress}
    {state : RunState World} (h : execution.Underway results plan world final a progress state)
    (hperm : a.Perm b) : execution.Underway results plan world final b progress state where
  leads := h.leads.congr_deferred hperm
  due d hd := h.due d (hperm.mem_iff.2 hd)
  sound := h.sound

theorem Evaluates.value (value : Json) :
    execution.Evaluates results plan world (pure (value, .none)) (value, []) :=
  .pure ⟨.finished value, by simp⟩

theorem Evaluates.failed (error : FieldError) :
    execution.Evaluates results plan world (failed {} error) (Evaluator.failing error) :=
  .pure ⟨.failed error, by simp⟩

/-- An object that was completed leads to the evaluated object as a value. -/
theorem EvaluatesObjects.object {expand : Expand World}
    {evaluate : Object → ReadMode → Option String → Evaluated Object}
    (h : execution.EvaluatesObjects results plan world expand evaluate) (object : Object)
    (mode : ReadMode) (typeHint : Option String) :
    execution.Evaluates results plan world
      (expand object mode typeHint {} >>= fun completed => pure (.object completed.1, completed.2))
      (.object (evaluate object mode typeHint).1, (evaluate object mode typeHint).2) :=
  (h object mode typeHint).bind fun _ hreaches ↦ .pure hreaches

/-- Completing an entity leads to the evaluated entity. -/
theorem completeEntity_evaluates (hplan : plan.Planned) {id : Nat} {fields : List FieldPlan}
    (hfields : ⟨id, fields⟩ ∈ plan.selection.selections) {expand : Expand World}
    (hexpand : execution.EvaluatesObjects results plan world expand
      ((execution.evaluator results).fields fields 0)) {key : String} {record : Object}
    (hrecord : Dict.get? execution.store key = some record) :
    execution.Evaluates results plan world (completeEntity id expand key record {})
      (.object ((execution.evaluator results).fields fields 0 record .record none).1,
        ((execution.evaluator results).fields fields 0 record .record none).2) := by
  intro state hsound
  cases hknown : state.reusable? (key, id) with
  | some object =>
    have hfind : state.memo.find? (key, id) = some (some object) :=
      RunState.reusable?_eq_some_iff.1 hknown
    have hevaluated := hsound key id object hfind fields hfields record hrecord
    rw [hevaluated]
    exact ⟨_, state, completeEntity_of_known hknown expand record {}, hsound,
      .finished _, by simp⟩
  | none =>
    obtain ⟨⟨object, work⟩, state', hrun, hsound', hreaches⟩ :=
      hexpand record .record none state hsound
    have hstep := completeEntity_of_unknown hknown expand record {}
    rw [hrun] at hstep
    refine ⟨_, _, hstep, ?_, hreaches⟩
    split
    · next hclean =>
      have hwork : work = .none := (Work.isClean_iff work).1 hclean
      subst hwork
      have hobject := hreaches.1.eq_of_finished
      have hevaluated : (execution.evaluator results).fields fields 0 record .record none
          = (object, []) :=
        Prod.ext (Json.object.inj hobject.1).symm hobject.2.nil_eq.symm
      refine Memo.Describes.cons hplan hsound' hfields hrecord fun kept hkept ↦ ?_
      rw [hevaluated]
      split at hkept
      · rw [Option.some.inj hkept]
      · cases hkept
    · exact hsound'

section Values

variable (hpolicy : execution.missingEntities = .nullify)

include hpolicy

theorem missingEntity_evaluates (key : String) :
    execution.Evaluates results plan world (execution.missingEntity key {})
      (Evaluator.failing (.missingEntity key)) := by
  rw [missingEntity, hpolicy]
  exact .failed _

variable (hplan : plan.Planned) {id : Nat} {fields : List FieldPlan}
  (hfields : ⟨id, fields⟩ ∈ plan.selection.selections) {expand : Expand World}
  (hmoves : MovesAlong expand)
  (hexpand : execution.EvaluatesObjects results plan world expand
    ((execution.evaluator results).fields fields 0))

include hplan hfields hmoves hexpand

-- Each theorem of the block needs the assumptions of the others.
set_option linter.unusedSectionVars false in
mutual

/-- Completing a value leads to the evaluated value. -/
theorem completeValue_evaluates (mode : ReadMode) (typeHint : Option String) (value : Json) :
    execution.Evaluates results plan world
      (execution.completeValue id expand mode typeHint {} value)
      ((execution.evaluator results).value ((execution.evaluator results).fields fields 0) mode
        typeHint value) := by
  cases value with
  | null => exact .value _
  | bool _ => exact .failed _
  | number _ => exact .failed _
  | string _ => exact .failed _
  | array items =>
    rw [completeValue, Evaluator.value]
    refine Run.Achieves.bind (completeItems_evaluates mode typeHint 0 items)
      fun completed hitems ↦ .pure ?_
    exact ⟨hitems.1.array, hitems.2⟩
  | object object =>
    rw [completeValue, Evaluator.value]
    cases hresolve : execution.store.resolve (.object object) with
    | notReference =>
      have hresolve' : (execution.evaluator results).store.resolve (.object object)
          = .notReference := hresolve
      rw [hresolve']
      exact hexpand.object object mode typeHint
    | entity key record =>
      have hresolve' : (execution.evaluator results).store.resolve (.object object)
          = .entity key record := hresolve
      rw [hresolve']
      exact completeEntity_evaluates hplan hfields hexpand (Snapshot.get?_of_resolve hresolve)
    | missing key =>
      have hresolve' : (execution.evaluator results).store.resolve (.object object)
          = .missing key := hresolve
      rw [hresolve']
      exact missingEntity_evaluates hpolicy key

theorem completeItems_evaluates (mode : ReadMode) (typeHint : Option String) (position : Nat)
    (items : List Json) :
    execution.EvaluatesItems results plan world position
      (execution.completeItems id expand mode typeHint {} position items)
      ((execution.evaluator results).items ((execution.evaluator results).fields fields 0) mode
        typeHint position items) := by
  cases items with
  | nil => exact .pure ⟨.nil position, by simp⟩
  | cons item rest =>
    rw [completeItems_cons hmoves, Evaluator.items]
    have hitem := completeValue_evaluates mode typeHint item
    refine (hitem.under _).bind fun ⟨value, _⟩ hvalue ↦ ?_
    obtain ⟨work, rfl, hleads, hdue⟩ := hvalue
    refine Run.Achieves.bind (completeItems_evaluates mode typeHint (position + 1) rest)
      fun ⟨values, more⟩ hvalues ↦ .pure ?_
    refine ⟨.cons (execution.outcome_portable results world) hleads hvalues.1, ?_⟩
    intro deferred hdeferred
    rcases List.mem_append.1 hdeferred with hdeferred | hdeferred
    · obtain ⟨inner, hinner, rfl⟩ := List.mem_map.1 hdeferred
      exact (hdue inner hinner).under _
    · exact hvalues.2 deferred hdeferred

end

end Values

theorem completeLeaf_evaluates (value : Json) :
    execution.Evaluates results plan world (completeLeaf value {}) (Evaluator.leafValue value) := by
  rw [completeLeaf, Evaluator.leafValue]
  split
  · exact .failed _
  · exact .value value

/-- Completing a remote field leads to the evaluated field. -/
theorem completeRemote_evaluates {complete : Json → Trail → Run World (Completed World Json)}
    {evaluate : Json → Evaluated Json}
    (h : ∀ value, execution.Evaluates results plan world (complete value {}) (evaluate value))
    (planned : PlannedField) (object : Object) (mode : ReadMode) (known : Option String) :
    execution.Evaluates results plan world
      (execution.completeRemote complete planned object mode known {})
      ((execution.evaluator results).remoteField evaluate planned object mode known) := by
  have hfound : (execution.evaluator results).found? planned object mode
      = execution.remoteValue? planned object mode := by cases mode <;> rfl
  unfold completeRemote Evaluator.remoteField
  rw [hfound]
  cases execution.remoteValue? planned object mode with
  | some value => exact h value
  | none =>
    cases planned.isTypename with
    | false => exact .failed _
    | true =>
      cases known with
      | none => exact .failed _
      | some typeName => exact .value _

/-- Leaving a field to a task with a determined result leads to what the result comes to. -/
theorem defer_evaluates {fieldPlan : FieldPlan} {typeName : String} {task : Task World}
    {result : ResolverResult} (hresult : task.Gives result)
    (hplanned : plan.Has fieldPlan) :
    execution.Evaluates results plan world (defer fieldPlan typeName task {})
      (Evaluator.result ((execution.evaluator results).resolved fieldPlan) fieldPlan typeName
        result) := by
  intro state hsound
  have houtcome : execution.outcome results world ⟨state.nextId, {}, fieldPlan, typeName, task⟩
      = Evaluator.result ((execution.evaluator results).resolved fieldPlan) fieldPlan typeName
        result := by
    rw [outcome, hresult world]
  refine ⟨_, _, defer_apply fieldPlan typeName task {} state, hsound, ?_, ?_⟩
  · rw [← houtcome]
    exact .deferred rfl
  · intro deferred hdeferred
    rw [List.mem_singleton.1 hdeferred]
    exact ⟨⟨result, hresult⟩, hplanned⟩

/-- Completing a local field leads to the evaluated field. -/
theorem completeLocal_evaluates (hgives : execution.registry.Gives execution.scope results)
    {complete : Json → Trail → Run World (Completed World Json)} {fieldPlan : FieldPlan}
    (hplanned : plan.Has fieldPlan)
    (h : ∀ value, execution.Evaluates results plan world (complete value {})
      ((execution.evaluator results).resolved fieldPlan value))
    (object : Object) (known : Option String) :
    execution.Evaluates results plan world
      (execution.completeLocal complete fieldPlan object known {})
      ((execution.evaluator results).localField
        ((execution.evaluator results).resolved fieldPlan) fieldPlan object known) := by
  have hresolve : (execution.evaluator results).resolve?
        (known.getD (execution.evaluator results).rootType) fieldPlan.field.name
      = (execution.registry.lookup (known.getD execution.rootType) fieldPlan.field.name).map
          fun _ => results (known.getD execution.rootType) fieldPlan.field.name := rfl
  unfold Evaluator.localField
  dsimp only
  rw [hresolve]
  cases hlookup : execution.registry.lookup (known.getD execution.rootType)
      fieldPlan.field.name with
  | none =>
    rw [completeLocal_of_lookup_none execution hlookup]
    exact .failed _
  | some resolver =>
    rw [completeLocal_of_lookup execution hlookup]
    refine (Run.Achieves.act fun world ↦ hgives _ _ resolver hlookup object
      (fieldPlan.field.boundArguments execution.variableValues) world).bind fun answer hanswer ↦ ?_
    dsimp only [Option.map_some]
    cases answer with
    | pending task => exact defer_evaluates hanswer hplanned
    | ready result =>
      have hresult : result = results (known.getD execution.rootType) fieldPlan.field.name object
          (fieldPlan.field.boundArguments execution.variableValues) := hanswer
      have hvalues : (execution.evaluator results).variableValues = execution.variableValues := rfl
      rw [hvalues, ← hresult]
      cases result with
      | ok value => exact h value
      | error reason => exact Evaluates.failed _

/-- Completing an object from nothing sets the evaluated fields. -/
theorem EvaluatesObjects.of_completeFields {fields : List FieldPlan}
    (h : ∀ object mode typeHint,
      (execution.completeFields fields 0 object mode typeHint {} .empty).Achieves
        (Memo.Sound (execution.evaluator results) plan) fun completed =>
          execution.Reaches results plan world (.object completed.1, completed.2)
            (.object (Dict.merge []
                ((execution.evaluator results).fields fields 0 object mode typeHint).1),
              ((execution.evaluator results).fields fields 0 object mode typeHint).2)) :
    execution.EvaluatesObjects results plan world (execution.completeObject fields)
      ((execution.evaluator results).fields fields 0) := by
  intro object mode typeHint
  have hcompleted := h object mode typeHint
  rw [Dict.merge_nil_left (Evaluator.nodup_keys_fields _ _ _ _ _ _)] at hcompleted
  exact hcompleted

/-- The work of a field that is set leaves the deferred fields of an object in the plan. -/
theorem due_pending_insert {assembler : Assembler World} {key : String} {value : Json}
    {work : Work World} (hdue : ∀ entry ∈ assembler.pending, ∀ deferred ∈ entry.2.deferred,
      deferred.Due plan) (hwork : ∀ deferred ∈ work.deferred, deferred.Due plan) (trail : Trail) :
    ∀ entry ∈ (assembler.insert key value (work.under trail)).1.pending,
      ∀ deferred ∈ entry.2.deferred, deferred.Due plan := by
  intro entry hentry deferred hdeferred
  rcases Assembler.mem_pending_insert hentry with ⟨hentry, _⟩ | rfl
  · exact hdue entry hentry deferred hdeferred
  · obtain ⟨inner, hinner, rfl⟩ := List.mem_map.1 hdeferred
    exact (hwork inner hinner).under _

/-- What an object leads to after a field was set and with the fields that follow is what it leads
to with that field and those that follow: either one of these replaces the field, and its faults are
not due any more, or it is the last field with its key. -/
theorem leadsTo_fields_cons {outcome : Deferred World → Evaluated Json}
    (hportable : Deferred.Portable outcome) {evaluator : Evaluator} {fieldPlan : FieldPlan}
    {rest : List FieldPlan} {position : Nat} {object : Object} {mode : ReadMode}
    {typeHint : Option String}
    (hselected : fieldPlan.field.isSelected evaluator.variableValues (typename? object) = true)
    {assembler : Assembler World} {final : Object} {value : Json} {work : Work World}
    (hvalue : LeadsTo outcome value work.faults work.deferred
      (evaluator.field fieldPlan object mode (knownType fieldPlan.field object typeHint)))
    {data : Json} {faults : List Fault} {deferred : List (Deferred World)}
    (h : LeadsTo outcome data faults deferred
      (.object (Dict.merge
          (Dict.insert final fieldPlan.field.responseKey (evaluator.field fieldPlan object mode
            (knownType fieldPlan.field object typeHint)).1)
          (evaluator.fields rest (position + 1) object mode typeHint).1),
        (assembler.insert fieldPlan.field.responseKey value (work.under
            (({} : Trail).field position fieldPlan.field.responseKey))).1.dueBeside outcome
            (evaluator.fields rest (position + 1) object mode typeHint).1
          ++ (evaluator.fields rest (position + 1) object mode typeHint).2)) :
    LeadsTo outcome data faults deferred
      (.object (Dict.merge final
          (evaluator.fields (fieldPlan :: rest) position object mode typeHint).1),
        assembler.dueBeside outcome
            (evaluator.fields (fieldPlan :: rest) position object mode typeHint).1
          ++ (evaluator.fields (fieldPlan :: rest) position object mode typeHint).2) := by
  have honce := evaluator.nodup_keys_fields rest (position + 1) object mode typeHint
  cases hlater : Dict.get? (evaluator.fields rest (position + 1) object mode typeHint).1
      fieldPlan.field.responseKey with
  | some later =>
    have hreplaced : Dict.contains (evaluator.fields rest (position + 1) object mode typeHint).1
        fieldPlan.field.responseKey = true := by
      rw [Dict.contains, hlater, Option.isSome_some]
    rw [Dict.merge_eq_of_get? (Dict.mem_keys_insert_self _ _ _) honce hlater, Dict.insert_insert,
      Assembler.dueBeside_insert_of_replaced hreplaced later] at h
    rw [Evaluator.fields_cons_of_replaced hselected hlater, Dict.merge_cons]
    exact h
  | none =>
    have hlast : Dict.contains (evaluator.fields rest (position + 1) object mode typeHint).1
        fieldPlan.field.responseKey = false := by
      rw [Dict.contains, hlater, Option.isSome_none]
    have hfaults := Assembler.dueFaults_under hportable hvalue fieldPlan.field.responseKey
      (({} : Trail).field position fieldPlan.field.responseKey)
    rw [Assembler.dueBeside_insert_of_last hlast] at h
    rw [Evaluator.fields_cons_of_last hselected hlater, Dict.merge_cons]
    refine h.congr_faults ?_
    rw [← List.append_assoc]
    exact (hfaults.append_left _).append_right _

section Fields

variable (hpolicy : execution.missingEntities = .nullify) (hplan : plan.Planned)
  (hgives : execution.registry.Gives execution.scope results)

include hpolicy hplan hgives

-- Each theorem of the block needs the assumptions of the others.
set_option linter.unusedSectionVars false in
mutual

/-- Completing a field leads to the evaluated field. -/
theorem completeField_evaluates (fieldPlan : FieldPlan)
    (hplanned : plan.Has fieldPlan)
    (object : Object) (mode : ReadMode) (known : Option String) :
    execution.Evaluates results plan world
      (execution.completeField fieldPlan object mode known {})
      ((execution.evaluator results).field fieldPlan object mode known) := by
  cases fieldPlan with
  | leaf planned =>
    rw [completeField, Evaluator.field]
    split
    · exact completeLocal_evaluates hgives hplanned (fun value ↦ .value value) object known
    · exact completeRemote_evaluates completeLeaf_evaluates planned object mode known
  | nested planned id fields =>
    have hfields : ⟨id, fields⟩ ∈ plan.selection.selections := hplanned.mem_selections
    have hexpand : execution.EvaluatesObjects results plan world
        (execution.completeObject fields) ((execution.evaluator results).fields fields 0) := by
      have hempty : (Assembler.empty : Assembler World).LeadsTo
          (execution.outcome results world) [] := .empty
      exact .of_completeFields fun object mode typeHint ↦ completeFields_evaluates fields
        (fun _ hinner ↦ QueryPlan.has_of_mem hfields hinner) 0 object mode typeHint .empty hempty
        (by simp [Assembler.empty])
    have hvalue := completeValue_evaluates hpolicy hplan hfields
      (completeObject_movesAlong fields) hexpand
    unfold completeField Evaluator.field
    dsimp only
    split
    · exact completeLocal_evaluates hgives hplanned (hvalue .payload none) object known
    · exact completeRemote_evaluates (hvalue mode none) planned object mode known

/-- Completing an object for listed fields sets the evaluated fields in the final object, and the
faults of fields that are replaced are not due any more. -/
theorem completeFields_evaluates (plans : List FieldPlan)
    (hplans : ∀ fieldPlan ∈ plans, plan.Has fieldPlan)
    (position : Nat) (object : Object) (mode : ReadMode) (typeHint : Option String)
    (assembler : Assembler World) {final : Object}
    (hleads : assembler.LeadsTo (execution.outcome results world) final)
    (hdue : ∀ entry ∈ assembler.pending, ∀ deferred ∈ entry.2.deferred, deferred.Due plan) :
    (execution.completeFields plans position object mode typeHint {} assembler).Achieves
      (Memo.Sound (execution.evaluator results) plan) fun completed =>
        execution.Reaches results plan world (.object completed.1, completed.2)
          (.object (Dict.merge final
              ((execution.evaluator results).fields plans position object mode typeHint).1),
            assembler.dueBeside (execution.outcome results world)
                ((execution.evaluator results).fields plans position object mode typeHint).1
              ++ ((execution.evaluator results).fields plans position object mode typeHint).2) := by
  cases plans with
  | nil =>
    rw [completeFields, Evaluator.fields]
    refine .pure ⟨?_, ?_⟩
    · simpa using hleads.finish
    · intro deferred hdeferred
      rw [Assembler.work_deferred] at hdeferred
      obtain ⟨entry, hentry, hdeferred⟩ := List.mem_flatMap.1 hdeferred
      exact hdue entry hentry deferred hdeferred
  | cons fieldPlan rest =>
    have hrest := fun inner hinner ↦ hplans inner (List.mem_cons_of_mem _ hinner)
    by_cases hselected : fieldPlan.field.isSelected execution.variableValues
        (typename? object) = true
    · have hvalue := completeField_evaluates fieldPlan (hplans _ List.mem_cons_self) object mode
        (knownType fieldPlan.field object typeHint)
      rw [completeFields_cons_of_selected hselected]
      refine (hvalue.under _).bind fun ⟨value, _⟩ hcompleted ↦ ?_
      obtain ⟨work, rfl, hleadsValue, hdueValue⟩ := hcompleted
      have hinserted : (assembler.insert fieldPlan.field.responseKey value (work.under
          (({} : Trail).field position fieldPlan.field.responseKey))).1.LeadsTo
            (execution.outcome results world) _ :=
        hleads.insert (execution.outcome_portable results world) hleadsValue position
      have hnext := completeFields_evaluates rest hrest (position + 1) object mode typeHint _
        hinserted (due_pending_insert hdue hdueValue _)
      exact hnext.mono fun completed hreaches ↦ ⟨leadsTo_fields_cons
        (execution.outcome_portable results world) hselected hleadsValue hreaches.1, hreaches.2⟩
    · have hskip : (execution.evaluator results).fields (fieldPlan :: rest) position object mode
            typeHint
          = (execution.evaluator results).fields rest (position + 1) object mode typeHint :=
        Evaluator.fields_cons_of_not_selected hselected
      rw [completeFields_cons_of_not_selected hselected, hskip]
      exact completeFields_evaluates rest hrest (position + 1) object mode typeHint assembler
        hleads hdue

end

/-- Completing an object for a selection set leads to the evaluated object. -/
theorem completeObject_evaluates {id : Nat} {fields : List FieldPlan}
    (hfields : ⟨id, fields⟩ ∈ plan.selection.selections) :
    execution.EvaluatesObjects results plan world (execution.completeObject fields)
      ((execution.evaluator results).fields fields 0) := by
  have hempty : (Assembler.empty : Assembler World).LeadsTo
      (execution.outcome results world) [] := .empty
  exact .of_completeFields fun object mode typeHint ↦ completeFields_evaluates hpolicy hplan hgives
    fields (fun _ hinner ↦ QueryPlan.has_of_mem hfields hinner) 0 object mode typeHint .empty hempty
    (by simp [Assembler.empty])

/-- Completing the result of a resolver leads to what the result comes to. -/
theorem completeResolved_evaluates {fieldPlan : FieldPlan}
    (hplanned : plan.Has fieldPlan)
    (value : Json) :
    execution.Evaluates results plan world (execution.completeResolved fieldPlan value {})
      ((execution.evaluator results).resolved fieldPlan value) := by
  cases fieldPlan with
  | leaf planned => exact .value value
  | nested planned id fields =>
    have hfields : ⟨id, fields⟩ ∈ plan.selection.selections := hplanned.mem_selections
    exact completeValue_evaluates hpolicy hplan hfields (completeObject_movesAlong fields)
      (completeObject_evaluates hpolicy hplan hgives hfields) .payload none value

/-- Finishing a deferred field leads to what the field comes to, at the position of the field. -/
theorem settle_evaluates {deferred : Deferred World} (hdue : deferred.Due plan) :
    (execution.settle deferred).Achieves (Memo.Sound (execution.evaluator results) plan)
      fun completed => ∃ work, completed.2 = work.under deferred.trail ∧
        execution.Reaches results plan world (completed.1, work)
          (execution.outcome results world deferred) := by
  obtain ⟨result, hresult⟩ := hdue.determined
  have houtcome : execution.outcome results world deferred
      = Evaluator.result ((execution.evaluator results).resolved deferred.plan) deferred.plan
        deferred.typeName result := by rw [outcome, hresult world]
  rw [houtcome]
  have hact : (Run.act deferred.task.finish).Achieves
      (Memo.Sound (execution.evaluator results) plan) (· = result) := .act hresult
  have hevaluates : execution.Evaluates results plan world
      (Run.act deferred.task.finish >>= execution.completeFinished deferred)
      (Evaluator.result ((execution.evaluator results).resolved deferred.plan) deferred.plan
        deferred.typeName result) := by
    refine hact.bind fun finished hfinished ↦ ?_
    subst hfinished
    cases finished with
    | ok value => exact completeResolved_evaluates hpolicy hplan hgives hdue.planned value
    | error reason => exact Evaluates.failed _
  rw [settle_eq_under]
  exact hevaluates.under _

/-- Finishing one of the waiting fields leads on to the same final value and faults. -/
theorem Underway.settle {final : Evaluated Json} {next : Deferred World}
    {others : List (Deferred World)} {progress : Progress} {state : RunState World}
    (h : execution.Underway results plan world final (next :: others) progress state) :
    ∃ value work state', execution.settle next state = (.ok (value, work), state') ∧
      execution.Underway results plan world final (others ++ work.deferred)
        (progress.write next.trail value work.faults) state' := by
  obtain ⟨⟨value, _⟩, state', hsettle, hsound, work, rfl, hreaches⟩ :=
    settle_evaluates hpolicy hplan hgives (h.due next List.mem_cons_self) state h.sound
  obtain ⟨data, hreplace, hleads⟩ :=
    h.leads.settle (execution.outcome_portable results world) hreaches.1
  refine ⟨value, _, state', hsettle, ?_, ?_, hsound⟩
  · rw [Progress.write, hreplace]
    exact hleads
  · intro deferred hdeferred
    rcases List.mem_append.1 hdeferred with hdeferred | hdeferred
    · exact h.due deferred (List.mem_cons_of_mem _ hdeferred)
    · obtain ⟨inner, hinner, rfl⟩ := List.mem_map.1 hdeferred
      exact (hreaches.2 inner hinner).under _

/-- Finishing all deferred fields in any order leads to the final value and the final faults. -/
theorem Underway.finish (order : FinishingOrder) {final : Evaluated Json}
    {waiting : List (Deferred World)} {progress : Progress} {state : RunState World}
    (h : execution.Underway results plan world final waiting progress state) :
    ∃ finished state', execution.driveIn order ⟨waiting⟩ progress state = (.ok finished, state') ∧
      finished.data = final.1 ∧ finished.faults.Perm final.2 := by
  have hrun : ∃ finished state',
      execution.driveIn order ⟨waiting⟩ progress state = (.ok finished, state') ∧
        execution.Underway results plan world final [] finished state' :=
    driveIn_of_step (fun _ _ _ _ hperm h ↦ h.perm hperm)
      (fun _ _ _ _ h ↦ h.settle hpolicy hplan hgives) order waiting progress state h
  obtain ⟨finished, state', hdrive, hfinal⟩ := hrun
  exact ⟨finished, state', hdrive, hfinal.leads.eq_of_finished⟩

end Fields

end Execution

end GraphCache
