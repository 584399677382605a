import GraphCache.Proofs.FinishingOrder
import GraphCache.Proofs.LedgerCompletion

/-!
# Executions of a plan with a ledger

The loop of an execution with a ledger polls the deferred fields that were entered, unless they were
replaced already. When a task has finished, the field is looked up once more among those that were
replaced; it is never found there, since only fields that were entered later are replaced meanwhile.
So the execution goes on as one does without a ledger, and in the end reports the same errors in the
same order.

## Main definitions

* `LedgerExecution.driveIn`: finishes all deferred fields in an order.
* `LedgerExecutor.executeIn`: its response to a plan; `Executor.withLedger` makes such an executor.

## Main results

* `LedgerExecution.driveIn_concludes`: finishing the deferred fields comes to the same with a ledger
  and without one.
* `Executor.executeIn_withLedger`, `Executor.exists_withLedger_eq_execute`: so do executions, in any
  order and by resuming the tasks in turn.
-/

namespace GraphCache

variable {World : Type}

namespace Ledger

/-- The ledger after its deferred fields have been taken out to be polled, which changes the world
of the resolvers. -/
def polled (ledger : Ledger World) (world : World) : Ledger World :=
  { ledger with pending := [], world }

theorem Sound.polled {ledger : Ledger World} (h : ledger.Sound) (world : World) :
    (ledger.polled world).Sound :=
  ⟨nofun, h.superseded, h.droppedErrors⟩

end Ledger

namespace LedgerExecution

variable (execution : LedgerExecution World)

/-- A deferred field that finishes with a ledger does so without one, and its work is entered. -/
theorem finish_entered {ledger : Ledger World} (hsound : ledger.Sound) (next : Deferred World) :
    (ledger.polled ledger.world).Entered
      (execution.completeFinished next (next.task.finish.run ledger.world).1
        (ledger.polled (next.task.finish.run ledger.world).2))
      (execution.toExecution.settle next ledger.runState) :=
  execution.finish_enters next (ledger.polled ledger.world) (hsound.polled ledger.world)

/-- When a deferred field has finished, all numbers have been given out, and only fields of lower
rank were entered. -/
theorem sound_and_rank_lt_of_finished {ledger after : Ledger World} (hsound : ledger.Sound)
    {next : Deferred World} {value : Json}
    (h : execution.completeFinished next (next.task.finish.run ledger.world).1
      (ledger.polled (next.task.finish.run ledger.world).2) = (.ok value, after)) :
    after.Sound ∧ ∀ more ∈ after.livePending, RankLT more next := by
  have hentered := execution.finish_entered hsound next
  rw [h] at hentered
  generalize hsettle : execution.toExecution.settle next ledger.runState = outcome at hentered
  cases hentered with
  | completed hgains =>
    refine ⟨hgains.sound, ?_⟩
    rw [hgains.pending]
    exact execution.toExecution.settle_rank_lt next _ _ _ hsettle

/-- Finishes the deferred fields in an order: those in flight, and those that were entered. -/
def driveIn (order : FinishingOrder) (inFlight : List (Deferred World)) (data : Json)
    (ledger : Ledger World) (hsound : ledger.Sound) :
    Except ExecutionError Json × Ledger World :=
  match _hwaiting : inFlight ++ ledger.livePending with
  | [] => (.ok data, ledger.polled ledger.world)
  | first :: rest =>
    have hindex : order 0 % (first :: rest).length < (first :: rest).length :=
      Nat.mod_lt _ (by simp)
    let next := (first :: rest)[order 0 % (first :: rest).length]
    let others := (first :: rest).eraseIdx (order 0 % (first :: rest).length)
    let finished := next.task.finish.run ledger.world
    if next.id ∈ ledger.superseded then
      driveIn order.tail others data (ledger.polled finished.2) (hsound.polled finished.2)
    else
      match _hfinished :
        execution.completeFinished next finished.1 (ledger.polled finished.2) with
      | (.error error, after) => (.error error, after)
      | (.ok value, after) =>
        driveIn order.tail others ((data.replaceAt? next.trail.path value).getD data) after
          (execution.sound_and_rank_lt_of_finished hsound _hfinished).1
termination_by (⟨inFlight ++ ledger.livePending⟩ : Queue World)
decreasing_by
  · exact ⟨next, others, [], nofun,
      by rw [_hwaiting]; exact (List.getElem_cons_eraseIdx_perm hindex).symm, .refl _⟩
  · exact ⟨next, others, after.livePending,
      (execution.sound_and_rank_lt_of_finished hsound _hfinished).2,
      by rw [_hwaiting]; exact (List.getElem_cons_eraseIdx_perm hindex).symm, .refl _⟩

section Rounds

variable {execution} {order : FinishingOrder} {inFlight waiting : List (Deferred World)}
  {data : Json} {ledger : Ledger World} {hsound : ledger.Sound}
  (hwaiting : inFlight ++ ledger.livePending = waiting)
include hwaiting

/-- Without a field that waits there is nothing to do. -/
theorem driveIn_of_nil (hempty : waiting = []) :
    execution.driveIn order inFlight data ledger hsound
      = (.ok data, ledger.polled ledger.world) := by
  rw [driveIn]
  split
  · rfl
  · next first rest hcons => exact nomatch (hcons.symm.trans hwaiting).trans hempty

/-- The field at the next index finishes, if it was not replaced. -/
theorem driveIn_of_live {index : Nat} (hindex : index < waiting.length)
    (horder : order 0 % waiting.length = index)
    (hlive : waiting[index].id ∉ ledger.superseded) :
    execution.driveIn order inFlight data ledger hsound =
      match hfinished : execution.completeFinished waiting[index]
          (waiting[index].task.finish.run ledger.world).1
          (ledger.polled (waiting[index].task.finish.run ledger.world).2) with
      | (.error error, after) => (.error error, after)
      | (.ok value, after) =>
        execution.driveIn order.tail (waiting.eraseIdx index)
          ((data.replaceAt? waiting[index].trail.path value).getD data) after
          (execution.sound_and_rank_lt_of_finished hsound hfinished).1 := by
  subst horder
  rw [driveIn]
  split
  · next hnil =>
    subst hwaiting
    rw [hnil] at hindex
    exact absurd hindex (Nat.not_lt_zero _)
  · next first rest hcons =>
    obtain rfl := hcons.symm.trans hwaiting
    rw [if_neg hlive]

end Rounds

/-- Finishing the deferred fields comes to the same with a ledger and without one: the execution is
aborted with the same error, or the data is the same, and the errors are the faults. -/
inductive Concludes :
    Except ExecutionError Json × Ledger World → Except ExecutionError Progress × RunState World →
      Prop
  | done {progress : Progress} {last : Ledger World}
      (hfaults : last.liveErrors.map Prod.fst = progress.faults.map Fault.placed) :
      Concludes (.ok progress.data, last) (.ok progress, last.runState)
  | aborted {error : ExecutionError} {last : Ledger World} :
      Concludes (.error error, last) (.error error, last.runState)

/-- No field that waits was replaced, and only fields that are entered later will be. So no field is
passed over once it is in flight, and the next one that finishes is the same as without a ledger. -/
theorem driveIn_concludes (order : FinishingOrder) (inFlight waiting : List (Deferred World))
    (progress : Progress) (ledger : Ledger World) (hsound : ledger.Sound)
    (hwaiting : inFlight ++ ledger.livePending = waiting)
    (hlive : ∀ deferred ∈ inFlight,
      deferred.id ∉ ledger.superseded ∧ deferred.id < ledger.nextPending)
    (hfaults : ledger.liveErrors.map Prod.fst = progress.faults.map Fault.placed) :
    Concludes (execution.driveIn order inFlight progress.data ledger hsound)
      (execution.toExecution.driveIn order ⟨waiting⟩ progress ledger.runState) := by
  have hwaits : ∀ deferred ∈ waiting,
      deferred.id ∉ ledger.superseded ∧ deferred.id < ledger.nextPending := by
    intro deferred hdeferred
    rw [← hwaiting] at hdeferred
    rcases List.mem_append.1 hdeferred with hdeferred | hdeferred
    · exact hlive deferred hdeferred
    · exact ⟨of_decide_eq_true (List.mem_filter.1 hdeferred).2, hsound.id_lt hdeferred⟩
  by_cases hempty : waiting = []
  · rw [driveIn_of_nil hwaiting hempty, hempty, Execution.driveIn_nil]
    exact .done hfaults
  · have hindex := Nat.mod_lt (order 0) (List.length_pos_iff.2 hempty)
    have hpick := (List.getElem_cons_eraseIdx_perm hindex).symm
    have hentered := execution.finish_entered hsound waiting[order 0 % waiting.length]
    rw [driveIn_of_live hwaiting hindex rfl (hwaits _ (List.getElem_mem hindex)).1,
      Execution.driveIn_cons order hindex rfl]
    generalize hsettle : execution.toExecution.settle waiting[order 0 % waiting.length]
      ledger.runState = outcome at hentered ⊢
    split
    · next error after hfinished =>
      rw [hfinished] at hentered
      cases hentered with
      | aborted => exact .aborted
    · next value after hfinished =>
      rw [hfinished] at hentered
      cases hentered with
      | @completed _ work _ hgains =>
        -- what is replaced now was entered after all fields that wait
        have hothers : ∀ deferred ∈ waiting.eraseIdx (order 0 % waiting.length),
            deferred.id ∉ after.superseded ∧ deferred.id < after.nextPending := by
          intro deferred hdeferred
          obtain ⟨hlive, hlt⟩ := hwaits deferred (List.mem_of_mem_eraseIdx hdeferred)
          refine ⟨fun hid ↦ ?_, Nat.lt_of_lt_of_le hlt hgains.nextPending_le⟩
          rcases hgains.superseded _ hid with hid | hle
          · exact hlive hid
          · exact Nat.lt_irrefl _ (Nat.lt_of_lt_of_le hlt hle)
        have hreported : after.liveErrors.map Prod.fst
            = (progress.write waiting[order 0 % waiting.length].trail value
                work.faults).faults.map Fault.placed := by
          obtain ⟨entered, herrors, hplaced, -⟩ := hgains.errors
          rw [herrors, List.map_append, hplaced, Progress.write, List.map_append, ← hfaults]
          rfl
        exact driveIn_concludes order.tail _ _ _ after hgains.sound
          (congrArg (_ ++ ·) hgains.pending) hothers hreported
termination_by (⟨waiting⟩ : Queue World)
decreasing_by
  exact ⟨_, _, work.deferred, execution.toExecution.settle_rank_lt _ _ _ _ hsettle, hpick,
    .refl _⟩

end LedgerExecution

/-- An executor whose execution keeps a ledger. -/
structure LedgerExecutor (World : Type) extends Executor World

/-- The executor that keeps a ledger, for the same plan, resolvers and cache. -/
def Executor.withLedger (executor : Executor World) : LedgerExecutor World :=
  ⟨executor⟩

namespace LedgerExecutor

variable (executor : LedgerExecutor World)

/-- The execution of the plan, which keeps a ledger. -/
def execution : LedgerExecution World :=
  executor.toExecutor.execution.withLedger

/-- The first pass over the plan. -/
def start (root : Root) : LedgerRun World Json :=
  let expand := executor.execution.completeObject executor.plan.selection.fields
  let rootType := some executor.plan.rootType
  let complete (record : Object) : LedgerRun World Json := do
    let object ← expand record .record rootType {}
    return .object object
  match root with
  | .entity key =>
    match Dict.get? executor.store key with
    | some record => complete record
    | none =>
      if key = executor.plan.rootKey then complete []
      else executor.execution.missingEntity key {}
  | .value payload =>
    executor.execution.completeValue executor.plan.selection.id expand .payload rootType {} payload

/-- The first pass enters the work that is left behind. -/
theorem start_enters (root : Root) :
    (executor.start root).Enters (executor.toExecutor.start root) := by
  have hexpand := executor.execution.completeObject_enters executor.plan.selection.fields
  cases root with
  | entity key =>
    unfold start Executor.start
    dsimp only
    cases Dict.get? executor.store key with
    | some record => exact (hexpand record .record _ {}).map Json.object
    | none =>
      dsimp only
      split
      · exact (hexpand [] .record _ {}).map Json.object
      · exact executor.execution.missingEntity_enters key {}
  | value payload => exact LedgerExecution.completeValue_enters hexpand .payload _ {} payload

/-- In an empty ledger no number has been given out. -/
theorem sound_empty (world : World) : ({ world } : Ledger World).Sound :=
  ⟨nofun, by simp, by simp⟩

/-- After the first pass all numbers have been given out. -/
theorem sound_of_start {root : Root} {world : World} {data : Json} {ledger : Ledger World}
    (h : executor.start root { world } = (.ok data, ledger)) : ledger.Sound := by
  have hentered := executor.start_enters root { world } (sound_empty world)
  rw [h] at hentered
  generalize executor.toExecutor.start root _ = outcome at hentered
  cases hentered with
  | completed hgains => exact hgains.sound

/-- Runs the plan from a root, where the deferred fields finish in an order. -/
def executeIn (order : FinishingOrder) (root : Root) :
    StateM World (Except ExecutionError Response) := fun world =>
  match executor.registry.validate executor.plan with
  | .error error => (.error (.planning error), world)
  | .ok () =>
    match hstart : executor.start root { world } with
    | (.error error, ledger) => (.error error, ledger.world)
    | (.ok data, ledger) =>
      let (outcome, last) :=
        executor.execution.driveIn order [] data ledger (executor.sound_of_start hstart)
      (outcome.map fun data => ⟨some data, last.reports⟩, last.world)

end LedgerExecutor

/-- The errors that a ledger reports are the faults of the response. -/
theorem Ledger.reports_eq {ledger : Ledger World} {faults : List Fault}
    (h : ledger.liveErrors.map Prod.fst = faults.map Fault.placed) :
    ledger.reports = (Fault.inOrder faults).map Fault.toGraphQLError := by
  have hsort : (Fault.inOrder faults).map Fault.placed = (faults.map Fault.placed).mergeSort
      fun a b => Trail.positionsLE a.1 b.1 :=
    List.map_mergeSort fun _ _ _ _ ↦ rfl
  rw [reports, h, ← hsort, List.map_map]
  rfl

/-- **Executions with a ledger.** Whatever the plan, the resolvers, the cache and the order in which
the deferred fields finish, an executor that keeps a ledger gives the response that is given without
one, or the same error, and leaves the same world. -/
theorem Executor.executeIn_withLedger (executor : Executor World) (order : FinishingOrder)
    (root : Root) : executor.withLedger.executeIn order root = executor.executeIn order root := by
  funext world
  unfold LedgerExecutor.executeIn executeIn
  have hvalidate : executor.withLedger.registry.validate executor.withLedger.plan
      = executor.registry.validate executor.plan := rfl
  rw [hvalidate]
  cases executor.registry.validate executor.plan with
  | error error => rfl
  | ok valid =>
    have hentered := executor.withLedger.start_enters root { world }
      (LedgerExecutor.sound_empty world)
    dsimp only
    generalize hrun : executor.start root { world } = outcome
    have hstarted : executor.withLedger.toExecutor.start root
        ({ world } : Ledger World).runState = outcome := hrun
    rw [hstarted] at hentered
    split
    · next error ledger hstart =>
      rw [hstart] at hentered
      cases hentered
      rfl
    · next data ledger hstart =>
      rw [hstart] at hentered
      cases hentered with
      | @completed _ work _ hgains =>
        obtain ⟨entered, herrors, hplaced, -⟩ := hgains.errors
        have hfaults : ledger.liveErrors.map Prod.fst = work.faults.map Fault.placed := by
          rw [herrors]
          exact hplaced
        have hconcludes := executor.withLedger.execution.driveIn_concludes order [] work.deferred
          ⟨data, work.faults⟩ ledger hgains.sound hgains.pending nofun hfaults
        have hexecution : executor.withLedger.execution.toExecution = executor.execution := rfl
        rw [hexecution] at hconcludes
        dsimp only
        revert hconcludes
        generalize executor.withLedger.execution.driveIn order [] data ledger _ = last
        generalize executor.execution.driveIn order _ _ ledger.runState = last'
        rintro (⟨hfaults⟩ | _)
        · simp only [Except.map, Executor.respond, Ledger.reports_eq hfaults]
          rfl
        · rfl

/-- Resuming the tasks in turn comes to the same as well, as it follows one of the orders. -/
theorem Executor.exists_withLedger_eq_execute (executor : Executor World) (root : Root)
    (world : World) :
    ∃ order, executor.withLedger.executeIn order root world = executor.execute root world := by
  obtain ⟨order, horder⟩ := executor.exists_order root world
  exact ⟨order, (congrFun (executor.executeIn_withLedger order root) world).trans horder⟩

end GraphCache
