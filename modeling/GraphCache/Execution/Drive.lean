import GraphCache.Execution.Depth
import GraphCache.Execution.Replacement

/-!
# Finishing deferred fields

After the first pass over a plan the deferred fields wait in a queue. A field whose task is not done
goes back to the end; when a task is done, its result is completed and written to the place of the
field, and the fields that this defers join the queue at its end.

Every completion defers only fields that lie deeper in the plan, so the queue is emptied whatever
the resolvers answer.

## Main definitions

* `Progress`: the response data so far, and the faults.
* `Execution.settle`: finishes one deferred field.
* `Execution.drive`: finishes all deferred fields.
-/

namespace GraphCache

variable {World : Type}

/-- The response so far. -/
structure Progress where
  /-- The data, in which fields that are still deferred are `null`. -/
  data : Json
  /-- The faults so far. -/
  faults : List Fault

namespace Progress

/-- Writes the value of a deferred field to its place. -/
def write (progress : Progress) (trail : Trail) (value : Json) (faults : List Fault) : Progress :=
  { data := (progress.data.replaceAt? trail.path value).getD progress.data
    faults := progress.faults ++ faults }

end Progress

namespace Deferred

/-- The order in which deferred fields can follow each other: by the height of the field first,
then by the number of times that the task is still to be resumed. -/
def rank (deferred : Deferred World) : Nat × Nat :=
  (deferred.plan.height, deferred.task.polls)

/-- The field after its task has been resumed in vain. -/
def resumed (deferred : Deferred World) : Deferred World :=
  { deferred with task := { deferred.task with polls := deferred.task.polls - 1 } }

end Deferred

/-- A deferred field that precedes another one in rank. -/
def RankLT (a b : Deferred World) : Prop :=
  Prod.Lex (· < ·) (· < ·) a.rank b.rank

theorem RankLT.wellFounded : WellFounded (@RankLT World) :=
  InvImage.wf Deferred.rank (Prod.lex ⟨_, Nat.lt_wfRel.wf⟩ ⟨_, Nat.lt_wfRel.wf⟩).wf

/-- Queues of deferred fields, ordered by replacing a field by fields of lower rank. -/
structure Queue (World : Type) where
  /-- The waiting fields, the next one first. -/
  waiting : List (Deferred World)

instance : WellFoundedRelation (Queue World) :=
  ⟨fun new old ↦ Replaces RankLT new.waiting old.waiting,
    InvImage.wf Queue.waiting (Replaces.wellFounded RankLT.wellFounded)⟩

namespace Execution

variable (execution : Execution World)

/-- Finishes the task of a deferred field and completes its result. -/
def settle (deferred : Deferred World) : Run World (Completed World Json) := do
  match ← Run.act deferred.task.finish with
  | .ok value => execution.completeResolved deferred.plan value deferred.trail
  | .error reason =>
    failed deferred.trail (resolverFailure deferred.plan deferred.typeName reason)

/-- Settling a field defers only fields of lower rank. -/
theorem settle_rank_lt (deferred : Deferred World) :
    (execution.settle deferred).Ensures
      fun completed ↦ ∀ more ∈ completed.2.deferred, RankLT more deferred := by
  refine .bind_any fun result ↦ ?_
  split
  · exact (execution.completeResolved_height_lt _ _ _).mono
      fun completed h more hmore ↦ .left _ _ (h more hmore)
  · exact .pure (by simp)

/-- Finishes the waiting fields one after the other. -/
def drive (queue : Queue World) (progress : Progress) (state : RunState World) :
    Except ExecutionError Progress × RunState World :=
  match _hqueue : queue.waiting with
  | [] => (.ok progress, state)
  | next :: rest =>
    if _hpolls : 0 < next.task.polls then drive ⟨rest ++ [next.resumed]⟩ progress state
    else
      match _hsettle : execution.settle next state with
      | (.error error, state) => (.error error, state)
      | (.ok (value, work), state) =>
        drive ⟨rest ++ work.deferred⟩ (progress.write next.trail value work.faults) state
termination_by queue
decreasing_by
  · exact ⟨next, rest, [next.resumed],
      fun b hb ↦ by
        rw [List.mem_singleton.1 hb]
        exact .right _ (by simp only [Deferred.resumed]; omega),
      by rw [_hqueue], .refl _⟩
  · exact ⟨next, rest, work.deferred, execution.settle_rank_lt next _ _ _ _hsettle,
      by rw [_hqueue], .refl _⟩

end Execution

end GraphCache
