import GraphCache.Proofs.Histories
import Mathlib.Data.List.Chain
import Mathlib.Order.WellFounded

/-!
# Executions come to an end

Neither the records that are met nor the fields that wait become fewer while a plan is executed: a
reference may lead back to where it came from, and one completion may defer any number of fields.
What becomes less is the plan that is left. A call leads to its parts, or to the nested selections
of a field, and a completion defers only fields strictly below the completed one.

## Main definitions

* `FieldPlan.Below`: a field lies strictly deeper in the plan than another one.
* `Execution.Defers`, `Executor.DefersFirst`: fields that a completion or the first pass defers.
* `Executor.Terminates`: an execution comes to an end in every order.

## Main results

* `Execution.Defers.below`: a completion defers only fields below the completed one.
* `Execution.length_le_of_chain`: so chains of deferred fields are short.
* `Executor.terminates`: every execution comes to an end.
-/

namespace GraphCache

variable {World : Type}

namespace FieldPlan

/-- A field lies strictly deeper in the plan than another one: it is among the nested selections of
the other one, or below a field among them. -/
def Below : FieldPlan → FieldPlan → Prop :=
  Relation.TransGen fun inner outer => inner ∈ outer.nestedFields

theorem height_lt_of_mem_nestedFields {inner outer : FieldPlan} (h : inner ∈ outer.nestedFields) :
    inner.height < outer.height := by
  cases outer with
  | leaf field => cases h
  | nested field id fields => exact Nat.lt_succ_of_le (height_le_listHeight h)

/-- What lies deeper has fewer levels below it. -/
theorem Below.height_lt {inner outer : FieldPlan} (h : inner.Below outer) :
    inner.height < outer.height := by
  induction h with
  | single h => exact height_lt_of_mem_nestedFields h
  | tail _ h ih => exact Nat.lt_trans ih (height_lt_of_mem_nestedFields h)

/-- The selection sets that lie below a field. -/
def ReachesBelow (plan : FieldPlan) : Reach := fun _ selection =>
  ∀ inner ∈ selection.fields, inner.Below plan

theorem fields_eq_nestedFields {plan : FieldPlan} {selection : SelectionPlan}
    (h : plan.selection? = some selection) : selection.fields = plan.nestedFields := by
  cases plan with
  | leaf field => cases h
  | nested field id fields =>
    cases h
    rfl

theorem reachesBelow_closed (plan : FieldPlan) : Reach.Closed plan.ReachesBelow where
  record h := h
  nested h hmem hinner := by
    intro inner hdeeper
    rw [fields_eq_nestedFields hinner] at hdeeper
    exact (h _ hmem).head hdeeper

theorem leadsInto_reachesBelow (plan : FieldPlan) : plan.LeadsInto plan.ReachesBelow := by
  intro selection hselection inner hinner
  rw [fields_eq_nestedFields hselection] at hinner
  exact .single hinner

mutual

/-- The selection sets below a field have fewer levels than the field. -/
theorem listHeight_lt_height {selection : SelectionPlan} (plan : FieldPlan)
    (h : selection ∈ plan.selections) : listHeight selection.fields < plan.height := by
  cases plan with
  | leaf field => cases h
  | nested field id fields =>
    rw [selections] at h
    rcases List.mem_cons.1 h with rfl | h
    · exact Nat.lt_succ_self _
    · exact Nat.lt_succ_of_lt (listHeight_lt_listHeight fields h)

theorem listHeight_lt_listHeight {selection : SelectionPlan} (plans : List FieldPlan)
    (h : selection ∈ listSelections plans) : listHeight selection.fields < listHeight plans := by
  cases plans with
  | nil => cases h
  | cons plan plans =>
    rw [listSelections] at h
    rw [listHeight]
    rcases List.mem_append.1 h with h | h
    · exact Nat.lt_of_lt_of_le (listHeight_lt_height plan h) (Nat.le_max_left _ _)
    · exact Nat.lt_of_lt_of_le (listHeight_lt_listHeight plans h) (Nat.le_max_right _ _)

end

end FieldPlan

/-- No field of a plan has more levels below it than there are below the root. -/
theorem QueryPlan.Has.height_le {plan : QueryPlan} {fieldPlan : FieldPlan}
    (h : plan.Has fieldPlan) : fieldPlan.height ≤ FieldPlan.listHeight plan.selection.fields := by
  obtain ⟨selection, hselection, hmem⟩ := h
  have hheight := FieldPlan.height_le_listHeight hmem
  rcases List.mem_cons.1 hselection with rfl | hselection
  · exact hheight
  · exact hheight.trans (FieldPlan.listHeight_lt_listHeight _ hselection).le

/-! ### Chains of deferred fields -/

namespace Execution

variable {execution : Execution World}

variable (execution) in
/-- When a field is finished in some state, the completion of its value defers another one. -/
def Defers (outer inner : Deferred World) : Prop :=
  ∃ state value work state', execution.settle outer state = (.ok (value, work), state') ∧
    inner ∈ work.allDeferred

/-- A completion defers only fields that lie strictly deeper in the plan than the completed one. -/
theorem Defers.below {outer inner : Deferred World} (h : execution.Defers outer inner) :
    inner.plan.Below outer.plan := by
  obtain ⟨state, value, work, state', hsettle, hmem⟩ := h
  obtain ⟨events, hunrolls⟩ := execution.exists_unrolls (.settle outer) state
  obtain ⟨evaluation, hevaluated, hplan⟩ :=
    (hunrolls.work_from (List.Subset.refl events) trivial hsettle).deferred inner hmem
  obtain ⟨typeHint, fields, hbelow, hevaluation, -⟩ :=
    hunrolls.follows outer.plan.reachesBelow_closed outer.plan.leadsInto_reachesBelow evaluation
      hevaluated
  rw [← hplan]
  exact hbelow _ hevaluation

/-- If each field of a chain was deferred by the completion of the one before it, then the chain is
no longer than there are levels from its first field on. -/
theorem length_le_of_chain {first : Deferred World} {rest : List (Deferred World)}
    (h : List.IsChain execution.Defers (first :: rest)) :
    (first :: rest).length ≤ first.plan.height + 1 := by
  induction rest generalizing first with
  | nil => simp
  | cons next rest ih =>
    obtain ⟨hdefers, hrest⟩ := List.isChain_cons_cons.1 h
    have hheight := hdefers.below.height_lt
    have hlength := ih hrest
    rw [List.length_cons]
    omega

end Execution

namespace Executor

variable (executor : Executor World) (root : Root) (world : World)

/-- The first pass defers a field. -/
def DefersFirst (first : Deferred World) : Prop :=
  ∃ completed state, executor.start root { world } = (.ok completed, state) ∧
    first ∈ completed.2.allDeferred

variable {executor root world} in
/-- The first pass defers only fields of the plan. -/
theorem DefersFirst.has {first : Deferred World} (h : executor.DefersFirst root world first) :
    executor.plan.Has first.plan := by
  obtain ⟨completed, state, hstart, hmem⟩ := h
  obtain ⟨events, hstarts⟩ := executor.exists_starts root { world }
  rw [hstart] at hstarts
  obtain ⟨evaluation, hevaluated, hplan⟩ := hstarts.work_from.deferred first hmem
  rw [← hplan]
  exact (hstarts.follows evaluation hevaluated).has

/-- An execution of the plan comes to an end, in whatever order its deferred fields are resumed and
finished. -/
structure Terminates : Prop where
  /-- The first pass unrolls to a finite tree of calls, and there is only one outcome. -/
  start : (∃ events, executor.Starts root { world } events (executor.start root { world })) ∧
    ∀ events outcome, executor.Starts root { world } events outcome →
      outcome = executor.start root { world }
  /-- So does each completion of a deferred field, from whatever state. -/
  settle : ∀ deferred state, (∃ events, executor.execution.Unrolls (.settle deferred) state events
      (executor.execution.settle deferred state)) ∧
    ∀ events outcome, executor.execution.Unrolls (.settle deferred) state events outcome →
      outcome = executor.execution.settle deferred state
  /-- There are only finitely many rounds of the loop. -/
  rounds : ¬ ∃ heads : Nat → LoopHead World,
    ∀ n, LoopHead.Step executor.execution (heads n) (heads (n + 1))
  /-- No field waits in vain: there is a round for it, or finishing it aborts the execution. -/
  goesOn : ∀ head : LoopHead World, ∀ next ∈ head.waiting,
    (∃ after, LoopHead.Step executor.execution head after ∧ next.id ∈ after.polled) ∨
      ∃ error state, executor.execution.settle next head.state = (.error error, state)
  /-- In every order the execution has a finite history, at the end of which it is aborted or no
  field waits; this gives its outcome. -/
  ends : executor.registry.validate executor.plan = .ok () → ∀ order, ∃ events outcome,
    executor.Executes root world events outcome ∧
      (∀ last, outcome = .ok last → last.waiting = []) ∧
      (executor.executeIn order root world).1 = outcome.map fun last => respond last.progress
  /-- A completion defers only fields strictly below the completed one. -/
  deeper : ∀ outer inner, executor.execution.Defers outer inner → inner.plan.Below outer.plan
  /-- A chain of deferred fields is no longer than there are levels in the plan. -/
  chains : ∀ first rest, executor.DefersFirst root world first →
    List.IsChain executor.execution.Defers (first :: rest) →
      (first :: rest).length ≤ FieldPlan.listHeight executor.plan.selection.fields + 1

/-- Every execution comes to an end: on every store, with cyclic references as well, from every
root, and whatever the resolvers answer. -/
theorem terminates : executor.Terminates root world where
  start := ⟨executor.exists_starts root _, fun _ _ h ↦ h.start_eq.symm⟩
  settle deferred state :=
    ⟨executor.execution.exists_unrolls (.settle deferred) state, fun _ _ h ↦ h.run_eq.symm⟩
  rounds := by
    rintro ⟨heads, hrounds⟩
    have hrank : WellFounded (@RankLT World) := RankLT.wellFounded
    have hwell := Replaces.wellFounded hrank
    exact (wellFounded_iff_isEmpty_descending_chain.1 hwell).false
      ⟨fun n ↦ (heads n).waiting, fun n ↦ (hrounds n).replaces⟩
  goesOn head next hnext := by
    obtain ⟨before, after, hwaiting⟩ := List.append_of_mem hnext
    have hperm : head.waiting.Perm (next :: (before ++ after)) := by
      rw [hwaiting]
      exact List.perm_middle
    rcases hsettle : executor.execution.settle next head.state with ⟨outcome, state⟩
    cases outcome with
    | error error => exact .inr ⟨error, state, rfl⟩
    | ok completed => exact .inl ⟨_, .finish hperm hsettle, List.mem_cons_self⟩
  ends hvalid order := exists_executes hvalid order
  deeper _ _ h := h.below
  chains first rest hfirst hchain :=
    (Execution.length_le_of_chain hchain).trans (Nat.succ_le_succ hfirst.has.height_le)

end Executor

end GraphCache
