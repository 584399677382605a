import GraphCache.Execution.Basic
import GraphCache.Proofs.Steps
import Mathlib.Data.List.Perm.Basic

/-!
# Orders in which deferred fields finish

Which of the waiting fields finishes next depends on their tasks. Here the choice is left to an
order that is given from outside, so that what holds for every order holds whatever the tasks do.
An execution that resumes its tasks in turn follows one of these orders.

## Main definitions

* `FinishingOrder`: which waiting field is the next one to finish.
* `Execution.driveIn`, `Executor.executeIn`: executions whose deferred fields finish in an order.

## Main results

* `Execution.driveIn_of_step`: what finishing any waiting field preserves holds in the end.
* `Executor.exists_order`: every execution follows some order.
-/

namespace GraphCache

variable {World : Type}

/-- The order in which deferred fields finish: after `n` fields have finished, the next one is the
waiting field at the index given for `n`, counted cyclically. -/
abbrev FinishingOrder := Nat → Nat

namespace FinishingOrder

/-- The order that remains after one field has finished. -/
def tail (order : FinishingOrder) : FinishingOrder :=
  fun n => order (n + 1)

/-- The order that starts with an index. -/
def cons (index : Nat) (order : FinishingOrder) : FinishingOrder
  | 0 => index
  | n + 1 => order n

@[simp] theorem tail_cons (index : Nat) (order : FinishingOrder) :
    (cons index order).tail = order := rfl

end FinishingOrder

namespace Execution

variable (execution : Execution World)

/-- Finishes the waiting fields in an order. -/
def driveIn (order : FinishingOrder) (queue : Queue World) (progress : Progress)
    (state : RunState World) : Except ExecutionError Progress × RunState World :=
  match _hqueue : queue.waiting with
  | [] => (.ok progress, state)
  | first :: rest =>
    have hindex : order 0 % (first :: rest).length < (first :: rest).length :=
      Nat.mod_lt _ (by simp)
    let next := (first :: rest)[order 0 % (first :: rest).length]
    match _hsettle : execution.settle next state with
    | (.error error, state) => (.error error, state)
    | (.ok (value, work), state) =>
      driveIn order.tail
        ⟨(first :: rest).eraseIdx (order 0 % (first :: rest).length) ++ work.deferred⟩
        (progress.write next.trail value work.faults) state
termination_by queue
decreasing_by
  exact ⟨next, (first :: rest).eraseIdx (order 0 % (first :: rest).length), work.deferred,
    execution.settle_rank_lt next _ _ _ _hsettle,
    by rw [_hqueue]; exact (List.getElem_cons_eraseIdx_perm hindex).symm, .refl _⟩

variable {execution}

theorem driveIn_nil (order : FinishingOrder) (progress : Progress) (state : RunState World) :
    execution.driveIn order ⟨[]⟩ progress state = (.ok progress, state) := by
  rw [driveIn]

/-- The field at the next index finishes. -/
theorem driveIn_cons (order : FinishingOrder) {waiting : List (Deferred World)}
    {index : Nat} (hindex : index < waiting.length) (horder : order 0 % waiting.length = index)
    (progress : Progress) (state : RunState World) :
    execution.driveIn order ⟨waiting⟩ progress state =
      match execution.settle waiting[index] state with
      | (.error error, state) => (.error error, state)
      | (.ok (value, work), state) =>
        execution.driveIn order.tail ⟨waiting.eraseIdx index ++ work.deferred⟩
          (progress.write waiting[index].trail value work.faults) state := by
  subst horder
  cases waiting with
  | nil => simp at hindex
  | cons first rest =>
    rw [driveIn]
    dsimp only
    split
    · next error state' hsettle => rw [hsettle]
    · next value work state' hsettle => rw [hsettle]

/-- What finishing any waiting field preserves holds in the end, if waiting fields always finish. -/
theorem driveIn_of_step
    {invariant : List (Deferred World) → Progress → RunState World → Prop}
    (hperm : ∀ a b progress state, a.Perm b → invariant a progress state →
      invariant b progress state)
    (hstep : ∀ next others progress state, invariant (next :: others) progress state →
      ∃ value work state', execution.settle next state = (.ok (value, work), state') ∧
        invariant (others ++ work.deferred) (progress.write next.trail value work.faults) state')
    (order : FinishingOrder) (waiting : List (Deferred World)) (progress : Progress)
    (state : RunState World) (h : invariant waiting progress state) :
    ∃ final state', execution.driveIn order ⟨waiting⟩ progress state = (.ok final, state') ∧
      invariant [] final state' := by
  by_cases hempty : waiting = []
  · subst hempty
    exact ⟨progress, state, driveIn_nil order progress state, h⟩
  · have hindex : order 0 % waiting.length < waiting.length :=
      Nat.mod_lt _ (List.length_pos_iff.2 hempty)
    have hpick := (List.getElem_cons_eraseIdx_perm hindex).symm
    obtain ⟨value, work, state', hsettle, hinvariant⟩ :=
      hstep _ _ _ _ (hperm _ _ _ _ hpick h)
    obtain ⟨final, state'', hdrive, hfinal⟩ :=
      driveIn_of_step hperm hstep order.tail _ _ _ hinvariant
    refine ⟨final, state'', ?_, hfinal⟩
    rw [driveIn_cons order hindex rfl, hsettle]
    exact hdrive
termination_by (⟨waiting⟩ : Queue World)
decreasing_by
  exact ⟨_, _, work.deferred, execution.settle_rank_lt _ _ _ _ hsettle, hpick, .refl _⟩

end Execution

namespace Deferred

/-- The field whose task can be finished at once. -/
def prompt (deferred : Deferred World) : Deferred World :=
  { deferred with task := { deferred.task with polls := 0 } }

@[simp] theorem prompt_resumed (deferred : Deferred World) :
    deferred.resumed.prompt = deferred.prompt := rfl

@[simp] theorem trail_prompt (deferred : Deferred World) :
    deferred.prompt.trail = deferred.trail := rfl

/-- If fields wait in another order and their tasks have been resumed more or less often, the next
one is still among them. -/
theorem exists_index_of_perm {waiting rest : List (Deferred World)} {next : Deferred World}
    (h : (waiting.map prompt).Perm ((next :: rest).map prompt)) :
    ∃ (index : Nat) (hindex : index < waiting.length), waiting[index].prompt = next.prompt ∧
      ((waiting.eraseIdx index).map prompt).Perm (rest.map prompt) := by
  have hmem : next.prompt ∈ waiting.map prompt := h.mem_iff.2 List.mem_cons_self
  obtain ⟨chosen, hchosen, hprompt⟩ := List.mem_map.1 hmem
  obtain ⟨index, hindex, rfl⟩ := List.getElem_of_mem hchosen
  have hpick := (List.getElem_cons_eraseIdx_perm hindex).map prompt
  rw [List.map_cons, hprompt] at hpick
  exact ⟨index, hindex, hprompt, (hpick.trans h).cons_inv⟩

end Deferred

namespace Execution

variable {execution : Execution World}

theorem settle_prompt (deferred : Deferred World) :
    execution.settle deferred.prompt = execution.settle deferred := rfl

theorem drive_nil (progress : Progress) (state : RunState World) :
    execution.drive ⟨[]⟩ progress state = (.ok progress, state) := by
  rw [drive]

/-- A field whose task is not done goes back to the end. -/
theorem drive_cons_of_polls {next : Deferred World} (h : 0 < next.task.polls)
    (rest : List (Deferred World)) (progress : Progress) (state : RunState World) :
    execution.drive ⟨next :: rest⟩ progress state
      = execution.drive ⟨rest ++ [next.resumed]⟩ progress state := by
  conv_lhs => rw [drive]
  simp [h]

/-- A field whose task is done finishes. -/
theorem drive_cons_of_done {next : Deferred World} (h : ¬ 0 < next.task.polls)
    (rest : List (Deferred World)) (progress : Progress) (state : RunState World) :
    execution.drive ⟨next :: rest⟩ progress state =
      match execution.settle next state with
      | (.error error, state) => (.error error, state)
      | (.ok (value, work), state) =>
        execution.drive ⟨rest ++ work.deferred⟩ (progress.write next.trail value work.faults)
          state := by
  conv_lhs => rw [drive]
  dsimp only
  rw [dif_neg h]
  split
  · next error state' hsettle => rw [hsettle]
  · next value work state' hsettle => rw [hsettle]

/-- Resuming the tasks in turn finishes the fields in some order. -/
theorem exists_order (queued waiting : List (Deferred World)) (progress : Progress)
    (state : RunState World)
    (hwaiting : (waiting.map Deferred.prompt).Perm (queued.map Deferred.prompt)) :
    ∃ order, execution.driveIn order ⟨waiting⟩ progress state
      = execution.drive ⟨queued⟩ progress state := by
  by_cases hempty : queued = []
  · subst hempty
    simp only [List.map_nil, List.perm_nil, List.map_eq_nil_iff] at hwaiting
    subst hwaiting
    exact ⟨fun _ ↦ 0, by rw [driveIn_nil, drive_nil]⟩
  · obtain ⟨next, rest, hqueued⟩ := List.exists_cons_of_ne_nil hempty
    rw [hqueued] at hwaiting ⊢
    by_cases hpolls : 0 < next.task.polls
    · have hresumed : (waiting.map Deferred.prompt).Perm
          ((rest ++ [next.resumed]).map Deferred.prompt) := by
        refine hwaiting.trans ?_
        rw [List.map_append, List.map_cons]
        exact (List.perm_append_singleton _ _).symm
      obtain ⟨order, horder⟩ :=
        exists_order (rest ++ [next.resumed]) waiting progress state hresumed
      exact ⟨order, by rw [horder, drive_cons_of_polls hpolls]⟩
    · obtain ⟨index, hindex, hprompt, hrest⟩ := Deferred.exists_index_of_perm hwaiting
      have hmod : index % waiting.length = index := Nat.mod_eq_of_lt hindex
      have hsame : execution.settle waiting[index] = execution.settle next := by
        rw [← settle_prompt waiting[index], hprompt, settle_prompt]
      have htrail : waiting[index].trail = next.trail := by
        rw [← Deferred.trail_prompt, hprompt, Deferred.trail_prompt]
      rcases hsettle : execution.settle next state with ⟨outcome, state'⟩
      cases outcome with
      | error error =>
        refine ⟨.cons index fun _ ↦ 0, ?_⟩
        rw [driveIn_cons _ hindex hmod, hsame, drive_cons_of_done hpolls, hsettle]
      | ok completed =>
        have hmore : ((waiting.eraseIdx index ++ completed.2.deferred).map Deferred.prompt).Perm
            ((rest ++ completed.2.deferred).map Deferred.prompt) := by
          rw [List.map_append, List.map_append]
          exact hrest.append_right _
        obtain ⟨order, horder⟩ := exists_order (rest ++ completed.2.deferred) _
          (progress.write next.trail completed.1 completed.2.faults) state' hmore
        refine ⟨.cons index order, ?_⟩
        rw [driveIn_cons _ hindex hmod, hsame, drive_cons_of_done hpolls, hsettle, htrail]
        exact horder
termination_by (⟨queued⟩ : Queue World)
decreasing_by
  · exact ⟨next, rest, [next.resumed],
      fun b hb ↦ by
        rw [List.mem_singleton.1 hb]
        exact .right _ (by simp only [Deferred.resumed]; omega),
      by rw [hqueued], .refl _⟩
  · exact ⟨next, rest, completed.2.deferred, execution.settle_rank_lt next _ _ _ hsettle,
      by rw [hqueued], .refl _⟩

end Execution

namespace Executor

variable (executor : Executor World)

/-- Runs the plan from a root, where the deferred fields finish in an order. -/
def executeIn (order : FinishingOrder) (root : Root) :
    StateM World (Except ExecutionError Response) := fun world =>
  match executor.registry.validate executor.plan with
  | .error error => (.error (.planning error), world)
  | .ok () =>
    match executor.start root { world } with
    | (.error error, state) => (.error error, state.world)
    | (.ok (data, work), state) =>
      let (outcome, state) :=
        executor.execution.driveIn order ⟨work.deferred⟩ ⟨data, work.faults⟩ state
      (outcome.map respond, state.world)

/-- Every execution follows some order. -/
theorem exists_order (root : Root) (world : World) :
    ∃ order, executor.executeIn order root world = executor.execute root world := by
  cases hvalid : executor.registry.validate executor.plan with
  | error error => exact ⟨fun _ ↦ 0, by simp only [executeIn, execute, hvalid]⟩
  | ok valid =>
    rcases hstart : executor.start root { world } with ⟨outcome, state⟩
    cases outcome with
    | error error => exact ⟨fun _ ↦ 0, by simp only [executeIn, execute, hvalid, hstart]⟩
    | ok completed =>
      have horders : ∃ order, executor.execution.driveIn order ⟨completed.2.deferred⟩
          ⟨completed.1, completed.2.faults⟩ state = executor.execution.drive
            ⟨completed.2.deferred⟩ ⟨completed.1, completed.2.faults⟩ state :=
        Execution.exists_order _ _ _ _ (.refl _)
      obtain ⟨order, horder⟩ := horders
      exact ⟨order, by simp only [executeIn, execute, hvalid, hstart, horder]⟩

end Executor

end GraphCache
