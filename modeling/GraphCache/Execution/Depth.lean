import GraphCache.Execution.Completion

/-!
# Deferred fields lie deeper in the plan

Completing the result of a resolver can defer fields only inside the nested selections of the
resolved field. This is why an execution comes to an end.

## Main definitions

* `Run.Ensures`: every result of a computation that does not fail has a property.

## Main results

* `Execution.completeFields_height_le`: what the completion of an object defers is no higher than
  its fields.
* `Execution.completeResolved_height_lt`: what the completion of a resolved field defers is strictly
  lower than the field.
-/

namespace GraphCache

variable {World α β : Type}

/-- Every result of a computation that does not fail has a property. -/
def Run.Ensures (run : Run World α) (property : α → Prop) : Prop :=
  ∀ state result state', run state = (.ok result, state') → property result

namespace Run.Ensures

theorem pure {property : α → Prop} {a : α} (h : property a) :
    Ensures (Pure.pure a : Run World α) property := by
  intro state result state' hrun
  cases hrun
  exact h

theorem throw {property : α → Prop} (error : ExecutionError) :
    Ensures (MonadExcept.throw error : Run World α) property := by
  intro state result state' hrun
  cases hrun

/-- Whatever the first computation ensures may be used about the second one. -/
theorem bind {first : α → Prop} {second : β → Prop} {run : Run World α} {next : α → Run World β}
    (hrun : run.Ensures first) (hnext : ∀ a, first a → (next a).Ensures second) :
    (run >>= next).Ensures second := by
  intro state result state' h
  simp only [Bind.bind, ExceptT.bind, ExceptT.mk, StateT.bind] at h
  rcases hfirst : run state with ⟨outcome, s⟩
  rw [hfirst] at h
  cases outcome with
  | ok a => exact hnext a (hrun state a s hfirst) s result state' h
  | error error => cases h

/-- A property of what follows every result of the first computation. -/
theorem bind_any {property : β → Prop} {run : Run World α} {next : α → Run World β}
    (h : ∀ a, (next a).Ensures property) : (run >>= next).Ensures property :=
  bind (fun _ _ _ _ ↦ trivial : run.Ensures fun _ ↦ True) fun a _ ↦ h a

theorem mono {first second : α → Prop} {run : Run World α} (h : run.Ensures first)
    (himp : ∀ a, first a → second a) : run.Ensures second :=
  fun state result state' hrun ↦ himp result (h state result state' hrun)

end Run.Ensures

/-- All fields that a work defers are at most this high. -/
def Work.HeightLE (work : Work World) (bound : Nat) : Prop :=
  ∀ deferred ∈ work.deferred, deferred.plan.height ≤ bound

namespace Work.HeightLE

@[simp] theorem none (bound : Nat) : HeightLE (Work.none : Work World) bound := by
  simp [HeightLE]

@[simp] theorem ofFault (trail : Trail) (error : FieldError) (bound : Nat) :
    HeightLE (Work.ofFault trail error : Work World) bound := by
  simp [HeightLE]

theorem append {a b : Work World} {bound : Nat} (ha : a.HeightLE bound) (hb : b.HeightLE bound) :
    (a ++ b).HeightLE bound := by
  intro deferred h
  rcases List.mem_append.1 h with h | h
  · exact ha deferred h
  · exact hb deferred h

theorem foldl {works : List (Work World)} {start : Work World} {bound : Nat}
    (hstart : start.HeightLE bound) (h : ∀ work ∈ works, work.HeightLE bound) :
    (works.foldl (· ++ ·) start).HeightLE bound := by
  induction works generalizing start with
  | nil => exact hstart
  | cons work works ih =>
    exact ih (append hstart (h work List.mem_cons_self))
      fun other hother ↦ h other (List.mem_cons_of_mem _ hother)

end Work.HeightLE

namespace Assembler

/-- All fields of an object under construction defer only fields that are at most this high. -/
def HeightLE (assembler : Assembler World) (bound : Nat) : Prop :=
  ∀ entry ∈ assembler.pending, entry.2.HeightLE bound

theorem work_heightLE {assembler : Assembler World} {bound : Nat} (h : assembler.HeightLE bound) :
    assembler.work.HeightLE bound := by
  refine .append (.foldl (.none _) ?_) (.foldl (.none _) ?_)
  · intro work hwork
    obtain ⟨entry, hentry, rfl⟩ := List.mem_map.1 hwork
    exact h entry hentry
  · intro work hwork
    obtain ⟨given, _, rfl⟩ := List.mem_map.1 hwork
    simp [Work.HeightLE]

theorem insert_heightLE {assembler : Assembler World} {bound : Nat} (h : assembler.HeightLE bound)
    (key : String) (value : Json) {work : Work World} (hwork : work.HeightLE bound) :
    (assembler.insert key value work).1.HeightLE bound := by
  intro entry hentry
  simp only [insert] at hentry
  split at hentry
  · exact h entry (List.mem_filter.1 hentry).1
  · rcases List.mem_append.1 hentry with hentry | hentry
    · exact h entry (List.mem_filter.1 hentry).1
    · simp only [List.mem_singleton] at hentry
      subst hentry
      exact hwork

end Assembler

namespace Execution

variable (execution : Execution World)

/-- The work of a completed value defers only fields that are at most this high. -/
def HeightLE (bound : Nat) (completed : Completed World α) : Prop :=
  completed.2.HeightLE bound

theorem failed_heightLE (trail : Trail) (error : FieldError) (bound : Nat) :
    (failed trail error : Run World _).Ensures (HeightLE bound) :=
  .pure (.ofFault trail error bound)

theorem missingEntity_heightLE (key : String) (trail : Trail) (bound : Nat) :
    (execution.missingEntity key trail).Ensures (HeightLE bound) := by
  unfold missingEntity
  split
  · exact .throw _
  · exact failed_heightLE _ _ _

/-- An entity leaves behind what expanding its record leaves behind, or nothing if it is reused. -/
theorem completeEntity_ensures {id : Nat} {expand : Expand World} {p : Work World → Prop}
    {key : String} {record : Object} {trail : Trail} (hnone : p .none)
    (h : (expand record .record none trail).Ensures fun completed ↦ p completed.2) :
    (completeEntity id expand key record trail).Ensures fun completed ↦ p completed.2 := by
  unfold completeEntity
  refine .bind_any fun state ↦ ?_
  dsimp only
  split
  · exact .pure hnone
  · refine .bind h fun completed hcompleted ↦ ?_
    obtain ⟨object, work⟩ := completed
    dsimp only
    split
    · exact .bind_any fun _ ↦ .pure hcompleted
    · exact .pure hcompleted

mutual

theorem completeValue_heightLE {id : Nat} {expand : Expand World} {bound : Nat}
    (h : ∀ object mode typeHint trail, (expand object mode typeHint trail).Ensures (HeightLE bound))
    (mode : ReadMode) (typeHint : Option String) (trail : Trail) (value : Json) :
    (execution.completeValue id expand mode typeHint trail value).Ensures (HeightLE bound) := by
  cases value with
  | null => exact .pure (.none bound)
  | bool _ => exact failed_heightLE _ _ _
  | number _ => exact failed_heightLE _ _ _
  | string _ => exact failed_heightLE _ _ _
  | array items =>
    unfold completeValue
    exact .bind (completeItems_heightLE h mode typeHint trail 0 items)
      fun completed hcompleted ↦ .pure hcompleted
  | object fields =>
    unfold completeValue
    split
    · exact completeEntity_ensures (p := (Work.HeightLE · bound)) (.none bound) (h _ _ _ _)
    · exact missingEntity_heightLE _ _ _ _
    · exact .bind (h _ _ _ _) fun completed hcompleted ↦ .pure hcompleted

theorem completeItems_heightLE {id : Nat} {expand : Expand World} {bound : Nat}
    (h : ∀ object mode typeHint trail, (expand object mode typeHint trail).Ensures (HeightLE bound))
    (mode : ReadMode) (typeHint : Option String) (trail : Trail) (position : Nat)
    (items : List Json) :
    (execution.completeItems id expand mode typeHint trail position items).Ensures
      (HeightLE bound) := by
  cases items with
  | nil => exact .pure (.none bound)
  | cons item items =>
    unfold completeItems
    refine .bind (completeValue_heightLE h mode typeHint _ item) fun completed hcompleted ↦ ?_
    refine .bind (completeItems_heightLE h mode typeHint trail _ items) fun more hmore ↦ ?_
    exact .pure (hcompleted.append hmore)

end

theorem completeRemote_heightLE {complete : Json → Trail → Run World (Completed World Json)}
    {bound : Nat} (h : ∀ value trail, (complete value trail).Ensures (HeightLE bound))
    (field : PlannedField) (object : Object) (mode : ReadMode) (known : Option String)
    (trail : Trail) :
    (execution.completeRemote complete field object mode known trail).Ensures (HeightLE bound) := by
  unfold completeRemote
  split
  · exact h _ _
  · split
    · exact .pure (.none bound)
    · exact failed_heightLE _ _ _

theorem completeLocal_heightLE {complete : Json → Trail → Run World (Completed World Json)}
    {plan : FieldPlan}
    (h : ∀ value trail, (complete value trail).Ensures (HeightLE plan.height))
    (object : Object) (known : Option String) (trail : Trail) :
    (execution.completeLocal complete plan object known trail).Ensures
      (HeightLE plan.height) := by
  unfold completeLocal
  dsimp only
  split
  · exact failed_heightLE _ _ _
  · refine .bind_any fun resolution ↦ ?_
    split
    · exact h _ _
    · exact failed_heightLE _ _ _
    · unfold defer
      refine .bind_any fun state ↦ ?_
      refine .bind_any fun _ ↦ .pure ?_
      simp [HeightLE, Work.HeightLE]

mutual

theorem completeField_height_le (plan : FieldPlan) (object : Object) (mode : ReadMode)
    (known : Option String) (trail : Trail) :
    (execution.completeField plan object mode known trail).Ensures (HeightLE plan.height) := by
  cases plan with
  | leaf field =>
    unfold completeField
    split
    · exact completeLocal_heightLE execution
        (fun _ _ ↦ .pure (show Work.HeightLE _ _ from .none _)) _ _ _
    · refine completeRemote_heightLE execution (fun value trail ↦ ?_) _ _ _ _ _
      unfold completeLeaf
      split
      · exact failed_heightLE _ _ _
      · exact .pure (.none _)
  | nested field id fields =>
    have hexpand : ∀ object mode typeHint trail,
        (execution.completeFields fields 0 object mode typeHint trail .empty).Ensures
          (HeightLE (FieldPlan.nested field id fields).height) := fun object mode typeHint trail ↦
      completeFields_height_le fields 0 object mode typeHint trail .empty _
        (Nat.le_succ _) (by simp [Assembler.HeightLE, Assembler.empty])
    unfold completeField
    dsimp only
    split
    · exact completeLocal_heightLE execution
        (fun value trail ↦ completeValue_heightLE execution hexpand _ _ _ _) _ _ _
    · exact completeRemote_heightLE execution
        (fun value trail ↦ completeValue_heightLE execution hexpand _ _ _ _) _ _ _ _ _

/-- What the completion of an object defers is no higher than its fields. -/
theorem completeFields_height_le (plans : List FieldPlan) (position : Nat) (object : Object)
    (mode : ReadMode) (typeHint : Option String) (trail : Trail) (assembler : Assembler World)
    (bound : Nat) (hplans : FieldPlan.listHeight plans ≤ bound)
    (hassembler : assembler.HeightLE bound) :
    (execution.completeFields plans position object mode typeHint trail assembler).Ensures
      (HeightLE bound) := by
  cases plans with
  | nil => exact .pure (Assembler.work_heightLE hassembler)
  | cons plan plans =>
    simp only [FieldPlan.listHeight] at hplans
    unfold completeFields
    split
    · refine .bind (completeField_height_le plan object mode _ _) fun completed hcompleted ↦ ?_
      refine completeFields_height_le plans _ object mode typeHint trail _ bound (by omega) ?_
      exact Assembler.insert_heightLE hassembler _ _
        fun deferred h ↦ Nat.le_trans (hcompleted deferred h) (by omega)
    · exact completeFields_height_le plans _ object mode typeHint trail assembler bound
        (by omega) hassembler

end

/-- What the completion of a resolved field defers is strictly lower than the field. -/
theorem completeResolved_height_lt (plan : FieldPlan) (value : Json) (trail : Trail) :
    (execution.completeResolved plan value trail).Ensures
      fun completed ↦ ∀ deferred ∈ completed.2.deferred, deferred.plan.height < plan.height := by
  cases plan with
  | leaf field => exact .pure (by simp)
  | nested field id fields =>
    have h : (execution.completeResolved (.nested field id fields) value trail).Ensures
        (HeightLE (FieldPlan.listHeight fields)) :=
      completeValue_heightLE execution
        (fun object mode typeHint trail ↦ execution.completeFields_height_le fields 0 object mode
          typeHint trail .empty _ (Nat.le_refl _) (by simp [Assembler.HeightLE, Assembler.empty]))
        .payload none trail value
    exact h.mono fun completed hcompleted deferred hd ↦
      Nat.lt_succ_of_le (hcompleted deferred hd)

end Execution

end GraphCache
