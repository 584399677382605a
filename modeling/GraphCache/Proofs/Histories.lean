import GraphCache.Proofs.CallOrigins
import GraphCache.Proofs.LoopHeads

/-!
# What happens in an execution

The history of an execution is the list of events on all its calls: those of the first pass, and
then those of the completions of deferred fields, in the order in which these finish. An execution
that has got to a head of its loop, or that was aborted, has a history. What waits or is reported at
a head comes from evaluations that are recorded in it.

## Main definitions

* `Executor.Executes`: executions with their histories.
* `Executor.LeftBy`: what is left at a head comes from evaluations.

## Main results

* `Executor.Executes.reached`, `Executor.exists_executes_of_reached`: executions with a history are
  those that get to the heads of the loop.
* `Executor.exists_executes`: every execution has a history that leads to its outcome.
* `Executor.Executes.follows`: only fields of the plan are evaluated.
* `Executor.Executes.leftBy`: what waits or is reported comes from evaluations in the history.
-/

namespace GraphCache

variable {World : Type}

namespace Executor

variable (executor : Executor World) (root : Root) (world : World)

/-- An execution of the plan with its history. It has got to a head of the loop that finishes
deferred fields, or it was aborted. -/
inductive Executes : List Event → Except ExecutionError (LoopHead World) → Prop where
  | start {events completed state}
      (hvalid : executor.registry.validate executor.plan = .ok ())
      (hstart : executor.Starts root { world } events (.ok completed, state)) :
      Executes events (.ok (.first completed state))
  | startAbort {events error state}
      (hvalid : executor.registry.validate executor.plan = .ok ())
      (hstart : executor.Starts root { world } events (.error error, state)) :
      Executes events (.error error)
  | resume {events head next others} (h : Executes events (.ok head))
      (hnext : head.waiting.Perm (next :: others)) (hpolls : 0 < next.task.polls) :
      Executes events (.ok { head with
        waiting := others ++ [next.resumed]
        polled := next.id :: head.polled })
  | finish {events more head next others value work state} (h : Executes events (.ok head))
      (hnext : head.waiting.Perm (next :: others))
      (hsettle : executor.execution.Unrolls (.settle next) head.state more
        (.ok (value, work), state)) :
      Executes (events ++ more) (.ok {
        waiting := others ++ work.deferred
        superseded := head.superseded ++ work.superseded
        polled := next.id :: head.polled
        written := next.id :: head.written
        progress := head.progress.write next.trail value work.faults
        state := state })
  | finishAbort {events more head next others error state} (h : Executes events (.ok head))
      (hnext : head.waiting.Perm (next :: others))
      (hsettle : executor.execution.Unrolls (.settle next) head.state more
        (.error error, state)) :
      Executes (events ++ more) (.error error)

variable {executor root world}

/-- An execution with a history gets to a head of the loop. -/
theorem Executes.reached {events : List Event} {head : LoopHead World}
    (h : executor.Executes root world events (.ok head)) :
    LoopHead.Reached executor root world head := by
  generalize houtcome : (Except.ok head : Except ExecutionError (LoopHead World)) = outcome at h
  induction h generalizing head with
  | start hvalid hstart =>
    cases houtcome
    exact .start hvalid hstart.start_eq
  | resume _ hnext hpolls ih =>
    cases houtcome
    exact (ih rfl).step (.resume hnext hpolls)
  | finish _ hnext hsettle ih =>
    cases houtcome
    exact (ih rfl).step (.finish hnext hsettle.run_eq)
  | startAbort | finishAbort => cases houtcome

/-- Every head of the loop is got to with a history. -/
theorem exists_executes_of_reached {head : LoopHead World}
    (h : LoopHead.Reached executor root world head) :
    ∃ events, executor.Executes root world events (.ok head) := by
  induction h with
  | start hvalid hstart =>
    obtain ⟨events, hstarts⟩ := executor.exists_starts root { world }
    rw [hstart] at hstarts
    exact ⟨events, .start hvalid hstarts⟩
  | step _ hstep ih =>
    obtain ⟨events, hexecutes⟩ := ih
    cases hstep with
    | resume hnext hpolls => exact ⟨events, .resume hexecutes hnext hpolls⟩
    | @finish next _ _ _ _ hnext hsettle =>
      obtain ⟨more, hunrolls⟩ := executor.execution.exists_unrolls (.settle next) _
      rw [Call.run, hsettle] at hunrolls
      exact ⟨events ++ more, .finish hexecutes hnext hunrolls⟩

/-- Finishing the fields that wait at a head in an order goes on with the history. -/
theorem Executes.exists_of_driveIn {events : List Event} {head : LoopHead World}
    (h : executor.Executes root world events (.ok head)) (order : FinishingOrder) :
    ∃ all outcome, executor.Executes root world all outcome ∧
      (∀ last, outcome = .ok last → last.waiting = []) ∧
      (executor.execution.driveIn order ⟨head.waiting⟩ head.progress head.state).1
        = outcome.map LoopHead.progress := by
  by_cases hempty : head.waiting = []
  · refine ⟨events, _, h, ?_, ?_⟩
    · rintro last heq
      cases heq
      exact hempty
    · rw [hempty, Execution.driveIn_nil]
      rfl
  · have hindex : order 0 % head.waiting.length < head.waiting.length :=
      Nat.mod_lt _ (List.length_pos_iff.2 hempty)
    have hnext := (List.getElem_cons_eraseIdx_perm hindex).symm
    rw [Execution.driveIn_cons order hindex rfl]
    obtain ⟨more, hunrolls⟩ := executor.execution.exists_unrolls
      (.settle head.waiting[order 0 % head.waiting.length]) head.state
    rw [Call.run] at hunrolls
    rcases hsettle : executor.execution.settle head.waiting[order 0 % head.waiting.length]
      head.state with ⟨outcome, state⟩
    rw [hsettle] at hunrolls
    cases outcome with
    | error error =>
      refine ⟨_, _, .finishAbort h hnext hunrolls, fun last heq ↦ ?_, rfl⟩
      cases heq
    | ok completed => exact (Executes.finish h hnext hunrolls).exists_of_driveIn order.tail
termination_by (⟨head.waiting⟩ : Queue World)
decreasing_by
  exact (LoopHead.Step.finish hnext hsettle).replaces

/-- Every execution has a history that leads to its outcome, in whatever order its deferred fields
finish. -/
theorem exists_executes (hvalid : executor.registry.validate executor.plan = .ok ())
    (order : FinishingOrder) :
    ∃ events outcome, executor.Executes root world events outcome ∧
      (∀ last, outcome = .ok last → last.waiting = []) ∧
      (executor.executeIn order root world).1
        = outcome.map fun last => respond last.progress := by
  obtain ⟨events, hstarts⟩ := executor.exists_starts root { world }
  rcases hstart : executor.start root { world } with ⟨outcome, state⟩
  rw [hstart] at hstarts
  cases outcome with
  | error error =>
    refine ⟨events, _, .startAbort hvalid hstarts, nofun, ?_⟩
    simp only [executeIn, hvalid, hstart]
    rfl
  | ok completed =>
    obtain ⟨all, outcome, hexecutes, hlast, hdrive⟩ :=
      (Executes.start hvalid hstarts).exists_of_driveIn order
    refine ⟨all, outcome, hexecutes, hlast, ?_⟩
    simp only [executeIn, hvalid, hstart]
    have hdriven : (executor.execution.driveIn order ⟨completed.2.deferred⟩
      ⟨completed.1, completed.2.faults⟩ state).1 = outcome.map LoopHead.progress := hdrive
    rw [hdriven]
    cases outcome <;> rfl

/-! ### What is evaluated -/

variable (executor) in
/-- What is left at a head comes from evaluations among the events. -/
structure LeftBy (events : List Event) (head : LoopHead World) : Prop where
  /-- Each field that waits was evaluated. -/
  waiting : ∀ d ∈ head.waiting,
    ∃ evaluation, .evaluated evaluation ∈ events ∧ evaluation.plan = d.plan
  /-- Each local field that is reported to have no resolver was evaluated. -/
  faults : ∀ fault ∈ head.progress.faults, fault.error.IsUnresolved →
    ∃ evaluation, .evaluated evaluation ∈ events ∧ evaluation.Fails executor.execution fault

namespace LeftBy

variable {events more : List Event} {head : LoopHead World} {next : Deferred World}
  {others : List (Deferred World)}

theorem first {completed : Completed World Json} {state : RunState World}
    (h : completed.2.From executor.execution events) :
    executor.LeftBy events (.first completed state) :=
  ⟨fun d hd ↦ h.deferred d (Work.mem_allDeferred.2 (.inl hd)),
    fun fault hfault ↦ h.faults fault (List.mem_append_left _ hfault)⟩

theorem resume (h : executor.LeftBy events head) (hnext : head.waiting.Perm (next :: others)) :
    executor.LeftBy events { head with
      waiting := others ++ [next.resumed]
      polled := next.id :: head.polled } := by
  refine ⟨fun d hd ↦ ?_, h.faults⟩
  rcases List.mem_append.1 hd with hd | hd
  · exact h.waiting d (hnext.mem_iff.2 (List.mem_cons_of_mem _ hd))
  · rw [List.mem_singleton.1 hd]
    exact h.waiting next (hnext.mem_iff.2 List.mem_cons_self)

/-- What was left before is still left by the events, and what is added comes from later ones. -/
theorem finish (h : executor.LeftBy events head) (hnext : head.waiting.Perm (next :: others))
    {value : Json} {work : Work World} {state : RunState World}
    (hwork : work.From executor.execution more) :
    executor.LeftBy (events ++ more) {
      waiting := others ++ work.deferred
      superseded := head.superseded ++ work.superseded
      polled := next.id :: head.polled
      written := next.id :: head.written
      progress := head.progress.write next.trail value work.faults
      state := state } where
  waiting d hd := by
    rcases List.mem_append.1 hd with hd | hd
    · obtain ⟨evaluation, hmem, hplan⟩ :=
        h.waiting d (hnext.mem_iff.2 (List.mem_cons_of_mem _ hd))
      exact ⟨evaluation, List.mem_append_left _ hmem, hplan⟩
    · obtain ⟨evaluation, hmem, hplan⟩ := hwork.deferred d (Work.mem_allDeferred.2 (.inl hd))
      exact ⟨evaluation, List.mem_append_right _ hmem, hplan⟩
  faults fault hfault herror := by
    rcases List.mem_append.1 hfault with hfault | hfault
    · obtain ⟨evaluation, hmem, hfails⟩ := h.faults fault hfault herror
      exact ⟨evaluation, List.mem_append_left _ hmem, hfails⟩
    · obtain ⟨evaluation, hmem, hfails⟩ :=
        hwork.faults fault (List.mem_append_left _ hfault) herror
      exact ⟨evaluation, List.mem_append_right _ hmem, hfails⟩

end LeftBy

/-- What is left at a head comes from evaluations in the history. -/
theorem Executes.leftBy {events : List Event} {head : LoopHead World}
    (h : executor.Executes root world events (.ok head)) : executor.LeftBy events head := by
  generalize houtcome : (Except.ok head : Except ExecutionError (LoopHead World)) = outcome at h
  induction h generalizing head with
  | start _ hstart =>
    cases houtcome
    exact .first hstart.work_from
  | resume _ hnext _ ih =>
    cases houtcome
    exact (ih rfl).resume hnext
  | finish _ hnext hsettle ih =>
    cases houtcome
    exact (ih rfl).finish hnext (hsettle.work_from (List.Subset.refl _) trivial rfl)
  | startAbort | finishAbort => cases houtcome

/-- A field that waits at a head is a field of the plan if those that were evaluated are. -/
theorem Executes.has_of_waiting {events : List Event} {head : LoopHead World}
    (h : executor.Executes root world events (.ok head))
    (hevents : ∀ evaluation, .evaluated evaluation ∈ events →
      evaluation.Follows executor.execution executor.plan.Enters)
    {next : Deferred World} (hnext : next ∈ head.waiting) : executor.plan.Has next.plan := by
  obtain ⟨evaluation, hmem, hplan⟩ := h.leftBy.waiting next hnext
  rw [← hplan]
  exact (hevents evaluation hmem).has

/-- In an execution only selected fields of the plan are evaluated, also if it is aborted. -/
theorem Executes.follows {events : List Event} {outcome : Except ExecutionError (LoopHead World)}
    (h : executor.Executes root world events outcome) :
    ∀ evaluation, .evaluated evaluation ∈ events →
      evaluation.Follows executor.execution executor.plan.Enters := by
  induction h with
  | start _ hstart | startAbort _ hstart => exact hstart.follows
  | resume _ _ _ ih => exact ih
  | finish h hnext hsettle ih | finishAbort h hnext hsettle ih =>
    intro evaluation hmem
    rcases List.mem_append.1 hmem with hmem | hmem
    · exact ih evaluation hmem
    · have hhas := h.has_of_waiting ih (hnext.mem_iff.2 List.mem_cons_self)
      exact hsettle.follows QueryPlan.enters_closed hhas.leadsInto evaluation hmem

end Executor

end GraphCache
