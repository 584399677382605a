import GraphCache.Proofs.FinishingOrder

/-!
# Executions that reuse nothing

An execution that reuses completed entities is compared with one that expands the record of an
entity whenever it meets a reference to it. That one has no use for the numbers of selection sets,
and neither looks at the completed entities nor adds to them. With the other one it shares only what
does not concern entities: how fields are looked up, resolvers are asked and faults are reported.

## Main definitions

* `ForgetfulExecution`: an execution that reuses nothing; `Execution.forgetful` makes one.
* `ForgetfulExecution.completeValue`, `ForgetfulExecution.completeFields`: its completion of values
  and of objects.
* `ForgetfulExecution.settle`, `ForgetfulExecution.driveIn`: how it finishes deferred fields.
* `ForgetfulExecutor.executeIn`: its response to a plan; `Executor.forgetful` makes such an
  executor.

## Main results

* `ForgetfulExecution.settle_rank_lt`: settling a field defers only fields of lower rank.
-/

namespace GraphCache

variable {World : Type}

/-- An execution that expands the record of an entity whenever it meets a reference to it. -/
structure ForgetfulExecution (World : Type) extends Execution World

/-- The execution that reuses nothing, with the same resolvers and the same cache. -/
def Execution.forgetful (execution : Execution World) : ForgetfulExecution World :=
  ⟨execution⟩

namespace ForgetfulExecution

variable (execution : ForgetfulExecution World)

mutual

/-- Completes a value of a field with nested selections, which `expand` completes an object for. -/
def completeValue (expand : Expand World) (mode : ReadMode) (typeHint : Option String)
    (trail : Trail) : Json → Run World (Completed World Json)
  | .null => return (.null, .none)
  | .array items => do
    let (values, work) ← completeItems expand mode typeHint trail 0 items
    return (.array values, work)
  | .object fields =>
    match execution.store.resolve (.object fields) with
    | .entity _ record => do
      let (object, work) ← expand record .record none trail
      return (.object object, work)
    | .missing key => execution.missingEntity key trail
    | .notReference => do
      let (object, work) ← expand fields mode typeHint trail
      return (.object object, work)
  | scalar => Execution.failed trail (.shapeMismatch "object" scalar.kind)

/-- Completes the items of a list, of which the first has the given index. -/
def completeItems (expand : Expand World) (mode : ReadMode) (typeHint : Option String)
    (trail : Trail) (position : Nat) : List Json → Run World (Completed World (List Json))
  | [] => return ([], .none)
  | item :: items => do
    let (value, work) ← completeValue expand mode typeHint (trail.index position) item
    let (values, more) ← completeItems expand mode typeHint trail (position + 1) items
    return (value :: values, work ++ more)

end

mutual

/-- Completes one field of an object. -/
def completeField (plan : FieldPlan) (object : Object) (mode : ReadMode)
    (known : Option String) (trail : Trail) : Run World (Completed World Json) :=
  match plan with
  | .leaf field =>
    if field.isLocal then
      execution.completeLocal (fun value _ => return (value, .none))
        (.leaf field) object known trail
    else execution.completeRemote Execution.completeLeaf field object mode known trail
  | .nested field id fields =>
    let expand : Expand World := fun inner mode typeHint trail =>
      completeFields fields 0 inner mode typeHint trail .empty
    if field.isLocal then
      execution.completeLocal
        (fun value trail => execution.completeValue expand .payload none trail value)
        (.nested field id fields) object known trail
    else
      execution.completeRemote
        (fun value trail => execution.completeValue expand mode none trail value)
        field object mode known trail

/-- Completes the listed fields of an object, of which the first has the given position in its
selection set, after those that have been assembled already. -/
def completeFields (plans : List FieldPlan) (position : Nat) (object : Object) (mode : ReadMode)
    (typeHint : Option String) (trail : Trail) (assembler : Assembler World) :
    Run World (Completed World Object) :=
  match plans with
  | [] => return (assembler.object, assembler.work)
  | plan :: plans =>
    if plan.field.isSelected execution.variableValues (typename? object) then do
      let (value, work) ← completeField plan object mode
        (Execution.knownType plan.field object typeHint)
        (trail.field position plan.field.responseKey)
      let (assembler, _) := assembler.insert plan.field.responseKey value work
      completeFields plans (position + 1) object mode typeHint trail assembler
    else completeFields plans (position + 1) object mode typeHint trail assembler

end

/-- Completes an object for a selection set. -/
def completeObject (fields : List FieldPlan) : Expand World :=
  fun object mode typeHint trail =>
    execution.completeFields fields 0 object mode typeHint trail .empty

/-- Completes the result of a resolver for its field. -/
def completeResolved (plan : FieldPlan) (value : Json) (trail : Trail) :
    Run World (Completed World Json) :=
  match plan with
  | .leaf _ => return (value, .none)
  | .nested _ _ fields =>
    execution.completeValue (execution.completeObject fields) .payload none trail value

/-- Finishes the task of a deferred field and completes its result. -/
def settle (deferred : Deferred World) : Run World (Completed World Json) := do
  match ← Run.act deferred.task.finish with
  | .ok value => execution.completeResolved deferred.plan value deferred.trail
  | .error reason =>
    Execution.failed deferred.trail
      (Execution.resolverFailure deferred.plan deferred.typeName reason)

/-! ### Deferred fields lie deeper in the plan -/

mutual

theorem completeValue_heightLE {expand : Expand World} {bound : Nat}
    (h : ∀ object mode typeHint trail,
      (expand object mode typeHint trail).Ensures (Execution.HeightLE bound))
    (mode : ReadMode) (typeHint : Option String) (trail : Trail) (value : Json) :
    (execution.completeValue expand mode typeHint trail value).Ensures
      (Execution.HeightLE bound) := by
  cases value with
  | null => exact .pure (.none bound)
  | bool _ | number _ | string _ => exact Execution.failed_heightLE _ _ _
  | array items =>
    unfold completeValue
    exact .bind (completeItems_heightLE h mode typeHint trail 0 items)
      fun completed hcompleted ↦ .pure hcompleted
  | object fields =>
    unfold completeValue
    split
    · exact .bind (h _ _ _ _) fun completed hcompleted ↦ .pure hcompleted
    · exact execution.missingEntity_heightLE _ _ _
    · exact .bind (h _ _ _ _) fun completed hcompleted ↦ .pure hcompleted

theorem completeItems_heightLE {expand : Expand World} {bound : Nat}
    (h : ∀ object mode typeHint trail,
      (expand object mode typeHint trail).Ensures (Execution.HeightLE bound))
    (mode : ReadMode) (typeHint : Option String) (trail : Trail) (position : Nat)
    (items : List Json) :
    (execution.completeItems expand mode typeHint trail position items).Ensures
      (Execution.HeightLE bound) := by
  cases items with
  | nil => exact .pure (.none bound)
  | cons item items =>
    unfold completeItems
    refine .bind (completeValue_heightLE h mode typeHint _ item) fun completed hcompleted ↦ ?_
    refine .bind (completeItems_heightLE h mode typeHint trail _ items) fun more hmore ↦ ?_
    exact .pure (hcompleted.append hmore)

end

mutual

theorem completeField_height_le (plan : FieldPlan) (object : Object) (mode : ReadMode)
    (known : Option String) (trail : Trail) :
    (execution.completeField plan object mode known trail).Ensures
      (Execution.HeightLE plan.height) := by
  cases plan with
  | leaf field =>
    unfold completeField
    split
    · exact Execution.completeLocal_heightLE _
        (fun _ _ ↦ .pure (show Work.HeightLE _ _ from .none _)) _ _ _
    · refine Execution.completeRemote_heightLE _ (fun value trail ↦ ?_) _ _ _ _ _
      unfold Execution.completeLeaf
      split
      · exact Execution.failed_heightLE _ _ _
      · exact .pure (.none _)
  | nested field id fields =>
    have hexpand : ∀ object mode typeHint trail,
        (execution.completeFields fields 0 object mode typeHint trail .empty).Ensures
          (Execution.HeightLE (FieldPlan.nested field id fields).height) :=
      fun object mode typeHint trail ↦ completeFields_height_le fields 0 object mode typeHint trail
        .empty _ (Nat.le_succ _) (by simp [Assembler.HeightLE, Assembler.empty])
    unfold completeField
    dsimp only
    split
    · exact Execution.completeLocal_heightLE _
        (fun value trail ↦ completeValue_heightLE execution hexpand _ _ _ _) _ _ _
    · exact Execution.completeRemote_heightLE _
        (fun value trail ↦ completeValue_heightLE execution hexpand _ _ _ _) _ _ _ _ _

/-- What the completion of an object defers is no higher than its fields. -/
theorem completeFields_height_le (plans : List FieldPlan) (position : Nat) (object : Object)
    (mode : ReadMode) (typeHint : Option String) (trail : Trail) (assembler : Assembler World)
    (bound : Nat) (hplans : FieldPlan.listHeight plans ≤ bound)
    (hassembler : assembler.HeightLE bound) :
    (execution.completeFields plans position object mode typeHint trail assembler).Ensures
      (Execution.HeightLE bound) := by
  cases plans with
  | nil => exact .pure (Assembler.work_heightLE hassembler)
  | cons plan plans =>
    simp only [FieldPlan.listHeight] at hplans
    unfold completeFields
    split
    · refine .bind (completeField_height_le plan object mode _ _) fun completed hcompleted ↦ ?_
      refine completeFields_height_le plans _ object mode typeHint trail _ bound (by omega) ?_
      exact Assembler.insert_heightLE hassembler _ _
        fun deferred h ↦ Nat.le_trans (hcompleted deferred h) (by omega)
    · exact completeFields_height_le plans _ object mode typeHint trail assembler bound
        (by omega) hassembler

end

/-- Settling a field defers only fields of lower rank. -/
theorem settle_rank_lt (deferred : Deferred World) :
    (execution.settle deferred).Ensures
      fun completed ↦ ∀ more ∈ completed.2.deferred, RankLT more deferred := by
  refine .bind_any fun result ↦ ?_
  split
  · next value =>
    cases hplan : deferred.plan with
    | leaf field => exact .pure (by simp)
    | nested field id fields =>
      have h : (execution.completeResolved (.nested field id fields) value deferred.trail).Ensures
          (Execution.HeightLE (FieldPlan.listHeight fields)) :=
        completeValue_heightLE execution
          (fun object mode typeHint trail ↦ execution.completeFields_height_le fields 0 object mode
            typeHint trail .empty _ (Nat.le_refl _)
            (by simp [Assembler.HeightLE, Assembler.empty]))
          .payload none deferred.trail value
      refine h.mono fun completed hcompleted more hmore ↦ .left _ _ ?_
      rw [hplan]
      exact Nat.lt_succ_of_le (hcompleted more hmore)
  · exact .pure (by simp)

/-- Finishes the waiting fields in an order. -/
def driveIn (order : FinishingOrder) (queue : Queue World) (progress : Progress)
    (state : RunState World) : Except ExecutionError Progress × RunState World :=
  match _hqueue : queue.waiting with
  | [] => (.ok progress, state)
  | first :: rest =>
    have hindex : order 0 % (first :: rest).length < (first :: rest).length :=
      Nat.mod_lt _ (by simp)
    let next := (first :: rest)[order 0 % (first :: rest).length]
    match _hsettle : execution.settle next state with
    | (.error error, state) => (.error error, state)
    | (.ok (value, work), state) =>
      driveIn order.tail
        ⟨(first :: rest).eraseIdx (order 0 % (first :: rest).length) ++ work.deferred⟩
        (progress.write next.trail value work.faults) state
termination_by queue
decreasing_by
  exact ⟨next, (first :: rest).eraseIdx (order 0 % (first :: rest).length), work.deferred,
    execution.settle_rank_lt next _ _ _ _hsettle,
    by rw [_hqueue]; exact (List.getElem_cons_eraseIdx_perm hindex).symm, .refl _⟩

variable {execution}

theorem driveIn_nil (order : FinishingOrder) (progress : Progress) (state : RunState World) :
    execution.driveIn order ⟨[]⟩ progress state = (.ok progress, state) := by
  rw [driveIn]

/-- The field at the next index finishes. -/
theorem driveIn_cons (order : FinishingOrder) {waiting : List (Deferred World)}
    {index : Nat} (hindex : index < waiting.length) (horder : order 0 % waiting.length = index)
    (progress : Progress) (state : RunState World) :
    execution.driveIn order ⟨waiting⟩ progress state =
      match execution.settle waiting[index] state with
      | (.error error, state) => (.error error, state)
      | (.ok (value, work), state) =>
        execution.driveIn order.tail ⟨waiting.eraseIdx index ++ work.deferred⟩
          (progress.write waiting[index].trail value work.faults) state := by
  subst horder
  cases waiting with
  | nil => simp at hindex
  | cons first rest =>
    rw [driveIn]
    dsimp only
    split
    · next error state' hsettle => rw [hsettle]
    · next value work state' hsettle => rw [hsettle]

end ForgetfulExecution

/-- An executor whose execution reuses nothing. -/
structure ForgetfulExecutor (World : Type) extends Executor World

/-- The executor that reuses nothing, for the same plan, resolvers and cache. -/
def Executor.forgetful (executor : Executor World) : ForgetfulExecutor World :=
  ⟨executor⟩

namespace ForgetfulExecutor

variable (executor : ForgetfulExecutor World)

/-- The execution of the plan, which reuses nothing. -/
def execution : ForgetfulExecution World :=
  executor.toExecutor.execution.forgetful

/-- The first pass over the plan. -/
def start (root : Root) : Run World (Completed World Json) :=
  let expand := executor.execution.completeObject executor.plan.selection.fields
  let rootType := some executor.plan.rootType
  let complete (record : Object) : Run World (Completed World Json) := do
    let (object, work) ← expand record .record rootType {}
    return (.object object, work)
  match root with
  | .entity key =>
    match Dict.get? executor.store key with
    | some record => complete record
    | none =>
      if key = executor.plan.rootKey then complete []
      else executor.execution.missingEntity key {}
  | .value payload => executor.execution.completeValue expand .payload rootType {} payload

/-- Runs the plan from a root, where the deferred fields finish in an order. -/
def executeIn (order : FinishingOrder) (root : Root) :
    StateM World (Except ExecutionError Response) := fun world =>
  match executor.registry.validate executor.plan with
  | .error error => (.error (.planning error), world)
  | .ok () =>
    match executor.start root { world } with
    | (.error error, state) => (.error error, state.world)
    | (.ok (data, work), state) =>
      let (outcome, state) :=
        executor.execution.driveIn order ⟨work.deferred⟩ ⟨data, work.faults⟩ state
      (outcome.map Executor.respond, state.world)

end ForgetfulExecutor

end GraphCache
