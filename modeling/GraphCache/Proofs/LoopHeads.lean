import GraphCache.Proofs.Leftovers
import GraphCache.Proofs.Responses

/-!
# The loop that finishes deferred fields

An execution is followed from one head of its loop to the next one, whatever the order in which
tasks are resumed and finished, whatever they give, and whether or not the execution is aborted in
the end. At every head each deferred field is in one of three states: it waits, it was written, or
it was replaced. A field that waits has a slot of its own to be written to; a field that was
replaced was never polled.

## Main definitions

* `LoopHead`: an execution at the head of the loop.
* `LoopHead.Step`, `LoopHead.Reached`: one round of the loop, and the heads of an execution.
* `LoopHead.Accounted`: what holds at every head.
* `LoopHead.Finishes`: how a field that waits comes by its value.

## Main results

* `LoopHead.Accounted.step`, `LoopHead.Reached.accounted`: one round keeps the accounts, so they are
  right at every head.
* `LoopHead.Reached.exists_last_of_response`: an execution that is not aborted ends at a head where
  nothing waits.
* `LoopHead.no_completion_lost`: no completion is lost.
-/

namespace GraphCache

variable {World : Type}

/-- An execution at the head of the loop that finishes its deferred fields, with a record of what
has happened to these fields. -/
structure LoopHead (World : Type) where
  /-- The fields that wait to be finished. -/
  waiting : List (Deferred World)
  /-- The fields that were replaced. -/
  superseded : List (Deferred World)
  /-- The numbers of the fields whose tasks were resumed or finished. -/
  polled : List Nat
  /-- The numbers of the fields whose values were written. -/
  written : List Nat
  /-- The response so far. -/
  progress : Progress
  /-- The state of the execution. -/
  state : RunState World

namespace LoopHead

/-- The first head, after the first pass over the plan. -/
def first (completed : Completed World Json) (state : RunState World) : LoopHead World where
  waiting := completed.2.deferred
  superseded := completed.2.superseded
  polled := []
  written := []
  progress := ⟨completed.1, completed.2.faults⟩
  state := state

/-- One round of the loop: the task of any of the waiting fields is resumed in vain, or it finishes
and its result is completed and written. -/
inductive Step (execution : Execution World) (head : LoopHead World) : LoopHead World → Prop
  | resume {next : Deferred World} {others : List (Deferred World)}
      (hnext : head.waiting.Perm (next :: others)) (hpolls : 0 < next.task.polls) :
      Step execution head { head with
        waiting := others ++ [next.resumed]
        polled := next.id :: head.polled }
  | finish {next : Deferred World} {others : List (Deferred World)} {value : Json}
      {work : Work World} {state : RunState World}
      (hnext : head.waiting.Perm (next :: others))
      (hsettle : execution.settle next head.state = (.ok (value, work), state)) :
      Step execution head {
        waiting := others ++ work.deferred
        superseded := head.superseded ++ work.superseded
        polled := next.id :: head.polled
        written := next.id :: head.written
        progress := head.progress.write next.trail value work.faults
        state := state }

/-- The heads of the loop in the executions of a plan from a root, in all orders in which the tasks
may be resumed and finished. -/
inductive Reached (executor : Executor World) (root : Root) (world : World) :
    LoopHead World → Prop
  | start {completed : Completed World Json} {state : RunState World}
      (hvalid : executor.registry.validate executor.plan = .ok ())
      (hstart : executor.start root { world } = (.ok completed, state)) :
      Reached executor root world (first completed state)
  | step {head next : LoopHead World} (h : Reached executor root world head)
      (hstep : Step executor.execution head next) : Reached executor root world next

/-- A round of the loop replaces a waiting field by fields of lower rank, so the loop ends. -/
theorem Step.replaces {execution : Execution World} {head next : LoopHead World}
    (h : Step execution head next) : Replaces RankLT next.waiting head.waiting := by
  cases h with
  | resume hnext hpolls =>
    refine ⟨_, _, [_], fun b hb ↦ ?_, hnext, .refl _⟩
    rw [List.mem_singleton.1 hb]
    exact .right _ (by simp only [Deferred.resumed]; omega)
  | finish hnext hsettle =>
    exact ⟨_, _, _, execution.settle_rank_lt _ _ _ _ hsettle, hnext, .refl _⟩

section Rounds

variable (execution : Execution World) {head : LoopHead World}

/-- As long as fields wait, finishing them in turn goes on from another head, or it is aborted. -/
theorem drive_round (h : head.waiting ≠ []) :
    (∃ next, Step execution head next ∧
        execution.drive ⟨head.waiting⟩ head.progress head.state
          = execution.drive ⟨next.waiting⟩ next.progress next.state) ∨
      ∃ error state, execution.drive ⟨head.waiting⟩ head.progress head.state
        = (.error error, state) := by
  obtain ⟨next, rest, hwaiting⟩ := List.exists_cons_of_ne_nil h
  have hnext : head.waiting.Perm (next :: rest) := .of_eq hwaiting
  rw [hwaiting]
  by_cases hpolls : 0 < next.task.polls
  · exact .inl ⟨_, .resume hnext hpolls, Execution.drive_cons_of_polls hpolls _ _ _⟩
  · rw [Execution.drive_cons_of_done hpolls]
    rcases hsettle : execution.settle next head.state with ⟨outcome, state⟩
    cases outcome with
    | error error => exact .inr ⟨error, state, rfl⟩
    | ok completed => exact .inl ⟨_, .finish hnext hsettle, rfl⟩

/-- As long as fields wait, finishing them in an order goes on from another head, or it is
aborted. -/
theorem driveIn_round (order : FinishingOrder) (h : head.waiting ≠ []) :
    (∃ next, Step execution head next ∧
        execution.driveIn order ⟨head.waiting⟩ head.progress head.state
          = execution.driveIn order.tail ⟨next.waiting⟩ next.progress next.state) ∨
      ∃ error state, execution.driveIn order ⟨head.waiting⟩ head.progress head.state
        = (.error error, state) := by
  have hindex : order 0 % head.waiting.length < head.waiting.length :=
    Nat.mod_lt _ (List.length_pos_iff.2 h)
  have hnext := (List.getElem_cons_eraseIdx_perm hindex).symm
  rw [Execution.driveIn_cons order hindex rfl]
  rcases hsettle : execution.settle head.waiting[order 0 % head.waiting.length] head.state
    with ⟨outcome, state⟩
  cases outcome with
  | error error => exact .inr ⟨error, state, rfl⟩
  | ok completed => exact .inl ⟨_, .finish hnext hsettle, rfl⟩

end Rounds

/-- Each deferred field is in one of three states, and those that wait have slots of their own. -/
structure Accounted (vars : Object) (fields : List FieldPlan) (head : LoopHead World) : Prop where
  /-- The faults and the fields that wait have slots of their own. -/
  fits : Work.Fits vars fields head.progress.data
    { faults := head.progress.faults, deferred := head.waiting }
  /-- Each field waits, was written or was replaced. -/
  ids : (head.waiting.map Deferred.id ++ head.written ++ head.superseded.map Deferred.id).Perm
    (List.range head.state.nextId)
  /-- Only fields that wait or were written were polled. -/
  polled : ∀ id ∈ head.polled, id ∈ head.waiting.map Deferred.id ++ head.written

namespace Accounted

variable {vars : Object} {fields : List FieldPlan} {head : LoopHead World}

/-- The accounts are right after the first pass. -/
theorem first {completed : Completed World Json} {state : RunState World}
    (hfits : Work.Fits vars fields completed.1 completed.2)
    (hnumbered : completed.2.Numbered 0 state.nextId) :
    (LoopHead.first completed state).Accounted vars fields where
  fits := hfits.congr rfl rfl
  ids := by
    have hids := hnumbered.ids
    rw [Nat.sub_zero, ← List.range_eq_range'] at hids
    rw [LoopHead.first, List.append_nil]
    exact hids
  polled := by simp [LoopHead.first]

/-- No field that was replaced waits or was ever polled. -/
theorem apart (h : head.Accounted vars fields) {id : Nat}
    (hid : id ∈ head.waiting.map Deferred.id ++ head.written) :
    id ∉ head.superseded.map Deferred.id := by
  have honce := h.ids.nodup_iff.2 List.nodup_range
  exact fun hgone ↦ (List.nodup_append.1 honce).2.2 id hid id hgone rfl

/-- A field that waits has a slot. -/
theorem awaits (h : head.Accounted vars fields) {next : Deferred World}
    (hnext : next ∈ head.waiting) : head.progress.data.Awaits next.trail.path :=
  h.fits.vacancies.awaits _ (List.mem_map_of_mem (Work.mem_trails.2 (.inr ⟨next, hnext, rfl⟩)))

/-- Resuming a task keeps the accounts. -/
theorem resume (h : head.Accounted vars fields) {next : Deferred World}
    {others : List (Deferred World)} (hnext : head.waiting.Perm (next :: others)) :
    ({ head with
      waiting := others ++ [next.resumed]
      polled := next.id :: head.polled } : LoopHead World).Accounted vars fields := by
  have hlast : head.waiting.Perm (others ++ [next]) :=
    hnext.trans (List.perm_append_singleton _ _).symm
  have hids : (head.waiting.map Deferred.id).Perm
      ((others ++ [next.resumed]).map Deferred.id) := by
    have hmap := hlast.map Deferred.id
    rw [List.map_append] at hmap ⊢
    exact hmap
  have hfits := h.fits.perm hlast
  refine ⟨⟨?_, hfits.placed.faults, fun d hd ↦ ?_⟩, ?_, ?_⟩
  · have hvacancies := hfits.vacancies
    simp only [Work.trails, List.map_append, List.map_cons, List.map_nil] at hvacancies ⊢
    exact hvacancies
  · rcases List.mem_append.1 hd with hd | hd
    · exact hfits.placed.deferred d (List.mem_append_left _ hd)
    · rw [List.mem_singleton.1 hd]
      exact hfits.placed.deferred next (List.mem_append_right _ (List.mem_singleton_self next))
  · exact ((hids.symm.append_right _).append_right _).trans h.ids
  · intro id hid
    rcases List.mem_cons.1 hid with rfl | hid
    · exact List.mem_append_left _ (by simp [Deferred.resumed])
    · exact (hids.append_right _).mem_iff.1 (h.polled id hid)

/-- Finishing a field keeps the accounts: its value is written to its slot, and the fields that it
defers either wait or were replaced already. -/
theorem finish {execution : Execution World}
    (h : head.Accounted execution.variableValues fields) {next : Deferred World}
    {others : List (Deferred World)} {value : Json} {work : Work World} {state : RunState World}
    (hnext : head.waiting.Perm (next :: others))
    (hsettle : execution.settle next head.state = (.ok (value, work), state)) :
    ({ waiting := others ++ work.deferred
       superseded := head.superseded ++ work.superseded
       polled := next.id :: head.polled
       written := next.id :: head.written
       progress := head.progress.write next.trail value work.faults
       state := state } : LoopHead World).Accounted execution.variableValues fields := by
  obtain ⟨inner, rfl, hinner, hnumbered⟩ := Execution.settle_leaves hsettle
  have hids := hnext.map Deferred.id
  refine ⟨?fits, ?ids, ?polled⟩
  case fits =>
    have hfits : Work.Fits execution.variableValues fields head.progress.data
        (.ofDeferred next ++ { faults := head.progress.faults, deferred := others }) :=
      (h.fits.perm hnext).congr rfl rfl
    obtain ⟨data, hreplace, hdata⟩ := hfits.settle hinner
    rw [Progress.write, hreplace]
    exact hdata.congr rfl rfl
  case ids =>
    have hmore : (inner.under next.trail).ids.Perm
        (List.range' head.state.nextId (state.nextId - head.state.nextId)) :=
      (hnumbered.under next.trail).ids
    have hall : List.range state.nextId = List.range head.state.nextId
        ++ List.range' head.state.nextId (state.nextId - head.state.nextId) := by
      have hle := hnumbered.le
      have hcount : state.nextId
          = head.state.nextId + (state.nextId - head.state.nextId) := by omega
      conv_lhs => rw [hcount, List.range_eq_range', ← List.range'_append_1]
      rw [List.range_eq_range', Nat.zero_add]
    rw [hall]
    refine List.Perm.trans ?_ (h.ids.append hmore)
    refine List.perm_iff_count.2 fun id ↦ ?_
    have hcount := hids.count_eq id
    simp only [Work.ids, List.map_append, List.map_cons, List.count_append,
      List.count_cons] at hcount ⊢
    omega
  case polled =>
    intro id hid
    rcases List.mem_cons.1 hid with rfl | hid
    · exact List.mem_append_right _ List.mem_cons_self
    · have hold := h.polled id hid
      rw [(hids.append_right _).mem_iff] at hold
      simp only [List.map_append, List.mem_append, List.map_cons, List.mem_cons] at hold ⊢
      tauto

/-- One round of the loop keeps the accounts. -/
theorem step {execution : Execution World} (h : head.Accounted execution.variableValues fields)
    {next : LoopHead World} (hstep : Step execution head next) :
    next.Accounted execution.variableValues fields := by
  cases hstep with
  | resume hnext _ => exact h.resume hnext
  | finish hnext hsettle => exact h.finish hnext hsettle

end Accounted

namespace Reached

variable {executor : Executor World} {root : Root} {world : World} {head : LoopHead World}

/-- The accounts are right at every head of the loop. -/
theorem accounted (h : Reached executor root world head) :
    head.Accounted executor.execution.variableValues executor.plan.selection.fields := by
  induction h with
  | start _ hstart =>
    obtain ⟨hfits, hnumbered⟩ := executor.start_leaves root _ _ _ _ hstart
    exact .first hfits hnumbered
  | step _ hstep ih => exact ih.step hstep

/-- If finishing the waiting fields in an order is not aborted, then it ends at a head where nothing
waits. -/
theorem exists_last_of_driveIn {head : LoopHead World} (h : Reached executor root world head)
    (order : FinishingOrder) {final : Progress} {state : RunState World}
    (hdrive : executor.execution.driveIn order ⟨head.waiting⟩ head.progress head.state
      = (.ok final, state)) :
    ∃ last, Reached executor root world last ∧ last.waiting = [] ∧ last.progress = final := by
  by_cases hempty : head.waiting = []
  · rw [hempty, Execution.driveIn_nil] at hdrive
    cases hdrive
    exact ⟨head, h, hempty, rfl⟩
  · rcases driveIn_round executor.execution order hempty with
      ⟨next, hstep, hround⟩ | ⟨error, aborted, hround⟩
    · rw [hround] at hdrive
      exact exists_last_of_driveIn (h.step hstep) order.tail hdrive
    · rw [hround] at hdrive
      cases hdrive
termination_by (⟨head.waiting⟩ : Queue World)
decreasing_by exact hstep.replaces

/-- If resuming and finishing the tasks in turn is not aborted, then it ends at a head where nothing
waits. -/
theorem exists_last_of_drive {head : LoopHead World} (h : Reached executor root world head)
    {final : Progress} {state : RunState World}
    (hdrive : executor.execution.drive ⟨head.waiting⟩ head.progress head.state
      = (.ok final, state)) :
    ∃ last, Reached executor root world last ∧ last.waiting = [] ∧ last.progress = final := by
  by_cases hempty : head.waiting = []
  · rw [hempty, Execution.drive_nil] at hdrive
    cases hdrive
    exact ⟨head, h, hempty, rfl⟩
  · rcases drive_round executor.execution hempty with
      ⟨next, hstep, hround⟩ | ⟨error, aborted, hround⟩
    · rw [hround] at hdrive
      exact exists_last_of_drive (h.step hstep) hdrive
    · rw [hround] at hdrive
      cases hdrive
termination_by (⟨head.waiting⟩ : Queue World)
decreasing_by exact hstep.replaces

/-- An execution in an order that gives a response ends at a head where nothing waits. -/
theorem exists_last_of_executeIn {order : FinishingOrder} {response : Response}
    (h : (executor.executeIn order root world).1 = .ok response) :
    ∃ last, Reached executor root world last ∧ last.waiting = [] ∧
      Executor.respond last.progress = response := by
  cases hvalid : executor.registry.validate executor.plan with
  | error error => simp [Executor.executeIn, hvalid] at h
  | ok valid =>
    rcases hstart : executor.start root { world } with ⟨outcome, state⟩
    cases outcome with
    | error error => simp [Executor.executeIn, hvalid, hstart] at h
    | ok completed =>
      rcases hdrive : executor.execution.driveIn order ⟨completed.2.deferred⟩
        ⟨completed.1, completed.2.faults⟩ state with ⟨outcome, state'⟩
      simp only [Executor.executeIn, hvalid, hstart, hdrive] at h
      cases outcome with
      | error error => cases h
      | ok final =>
        obtain ⟨last, hlast, hempty, rfl⟩ :=
          exists_last_of_driveIn (.start hvalid hstart) order hdrive
        exact ⟨last, hlast, hempty, Except.ok.inj h⟩

/-- An execution that gives a response ends at a head where nothing waits. -/
theorem exists_last_of_execute {response : Response}
    (h : (executor.execute root world).1 = .ok response) :
    ∃ last, Reached executor root world last ∧ last.waiting = [] ∧
      Executor.respond last.progress = response := by
  cases hvalid : executor.registry.validate executor.plan with
  | error error => simp [Executor.execute, hvalid] at h
  | ok valid =>
    rcases hstart : executor.start root { world } with ⟨outcome, state⟩
    cases outcome with
    | error error => simp [Executor.execute, hvalid, hstart] at h
    | ok completed =>
      rcases hdrive : executor.execution.drive ⟨completed.2.deferred⟩
        ⟨completed.1, completed.2.faults⟩ state with ⟨outcome, state'⟩
      simp only [Executor.execute, hvalid, hstart, hdrive] at h
      cases outcome with
      | error error => cases h
      | ok final =>
        obtain ⟨last, hlast, hempty, rfl⟩ := exists_last_of_drive (.start hvalid hstart) hdrive
        exact ⟨last, hlast, hempty, Except.ok.inj h⟩

/-- An execution that gives a response, in an order or by resuming the tasks in turn, ends at a head
where nothing waits. -/
theorem exists_last_of_response {order : FinishingOrder} {response : Response}
    (h : (executor.executeIn order root world).1 = .ok response ∨
      (executor.execute root world).1 = .ok response) :
    ∃ last, Reached executor root world last ∧ last.waiting = [] ∧
      Executor.respond last.progress = response := by
  rcases h with h | h
  · exact exists_last_of_executeIn h
  · exact exists_last_of_execute h

end Reached

/-- A field that waits finishes: if its task gives a result, this is completed for the field; if the
task fails, the value is `null` and the failure is reported. -/
inductive Finishes (execution : Execution World) (next : Deferred World)
    (state : RunState World) : Json → Work World → RunState World → Prop
  | completed {result value : Json} {world : World} {work : Work World} {state' : RunState World}
      (hfinish : next.task.finish.run state.world = (.ok result, world))
      (hcompleted : execution.completeResolved next.plan result next.trail { state with world }
        = (.ok (value, work), state')) :
      Finishes execution next state value work state'
  | failed {reason : String} {world : World}
      (hfinish : next.task.finish.run state.world = (.error reason, world)) :
      Finishes execution next state .null
        (.ofFault next.trail (Execution.resolverFailure next.plan next.typeName reason))
        { state with world }

/-- This is how a round of the loop comes by the value that it writes. -/
theorem finishes_of_settle {execution : Execution World} {next : Deferred World}
    {state state' : RunState World} {value : Json} {work : Work World}
    (h : execution.settle next state = (.ok (value, work), state')) :
    Finishes execution next state value work state' := by
  rcases hfinish : next.task.finish.run state.world with ⟨result, world⟩
  rw [Execution.settle, Run.bind_ok (Run.act_of_eq hfinish)] at h
  cases result with
  | ok result => exact .completed hfinish h
  | error reason =>
    cases h
    exact .failed hfinish

/-- Nothing is lost at a head of the loop. -/
structure NoneLost (execution : Execution World) (head : LoopHead World) : Prop where
  /-- The path of a field that waits leads to a slot that holds `null`. -/
  slots : ∀ deferred ∈ head.waiting,
    head.progress.data.at? deferred.trail.path = some .null
  /-- No such path is the path of another field that waits, or leads into its slot. -/
  apart : head.waiting.Pairwise fun a b => a.trail.path.Apart b.trail.path
  /-- No field that waits was replaced. -/
  current : ∀ deferred ∈ head.waiting, deferred.id ∉ head.superseded.map Deferred.id
  /-- If any of the fields finishes now, without aborting the execution, then the completed result
  of its task is written, or `null` if the task fails. -/
  writes : ∀ next ∈ head.waiting, ∀ value work state,
    execution.settle next head.state = (.ok (value, work), state) →
      Finishes execution next head.state value work state ∧
        ∃ data, head.progress.data.replaceAt? next.trail.path value = some data ∧
          head.progress.write next.trail value work.faults
            = ⟨data, head.progress.faults ++ work.faults⟩
  /-- Of all fields that were deferred, each one waits, was written once or was replaced. -/
  once : (head.waiting.map Deferred.id ++ head.written ++ head.superseded.map Deferred.id).Perm
    (List.range head.state.nextId)
  /-- No field that was replaced was ever polled. -/
  unpolled : ∀ id ∈ head.polled, id ∉ head.superseded.map Deferred.id

/-- Nothing is lost if the accounts are right. -/
theorem Accounted.noneLost {execution : Execution World} {fields : List FieldPlan}
    {head : LoopHead World} (h : head.Accounted execution.variableValues fields) :
    head.NoneLost execution where
  slots deferred hdeferred := (h.awaits hdeferred).at?
  apart := by
    have hpaths := h.fits.vacancies.apart
    rw [Work.trails, List.map_append, List.pairwise_append] at hpaths
    have hwaiting := hpaths.2.1
    rw [List.pairwise_map, List.pairwise_map] at hwaiting
    exact hwaiting
  current deferred hdeferred :=
    h.apart (List.mem_append_left _ (List.mem_map_of_mem hdeferred))
  writes next hnext value work state hsettle := by
    obtain ⟨data, hreplace, _⟩ := (h.awaits hnext).replaceAt? value
    exact ⟨finishes_of_settle hsettle, data, hreplace,
      by rw [Progress.write, hreplace, Option.getD_some]⟩
  once := h.ids
  unpolled id hid := h.apart (h.polled id hid)

/-- No completion is lost: nothing is lost at any head of the loop, in whatever order tasks are
resumed and finished. An execution that is not aborted ends at one of these heads, and there each
field that was deferred has been written once or was replaced. -/
theorem no_completion_lost (executor : Executor World) (root : Root) (world : World) :
    (∀ head, Reached executor root world head → head.NoneLost executor.execution) ∧
      ∀ order response, ((executor.executeIn order root world).1 = .ok response ∨
          (executor.execute root world).1 = .ok response) →
        ∃ last, Reached executor root world last ∧ last.waiting = [] ∧
          Executor.respond last.progress = response ∧
          (last.written ++ last.superseded.map Deferred.id).Perm
            (List.range last.state.nextId) := by
  refine ⟨fun head hreached ↦ hreached.accounted.noneLost, fun order response hresponse ↦ ?_⟩
  obtain ⟨last, hreached, hempty, hrespond⟩ := Reached.exists_last_of_response hresponse
  have hids := hreached.accounted.ids
  rw [hempty] at hids
  exact ⟨last, hreached, hempty, hrespond, hids⟩

/-- The price waits for a while under the key of the cart; then it is replaced, and the cart waits
along with the delivery. -/
theorem cartExecutor_no_completion_lost :
    ∃ head, Reached Executor.cartExecutor .query 0 head ∧ head.waiting.map Deferred.id = [1, 2] ∧
      head.superseded.map Deferred.id = [0] ∧
      head.NoneLost Executor.cartExecutor.execution := by
  have hreached : Reached Executor.cartExecutor .query 0 (first _ _) := .start rfl rfl
  exact ⟨_, hreached, rfl, rfl, (no_completion_lost Executor.cartExecutor .query 0).1 _ hreached⟩

end LoopHead

end GraphCache
