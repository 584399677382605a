import GraphCache.Proofs.FinishingOrder
import GraphCache.Proofs.Vacancies

/-!
# What completions leave behind

Whatever the resolvers answer and however missing entities are treated: if a completion succeeds,
then the faults and the deferred fields that it leaves behind have slots of their own in the
completed value, and the fields that it deferred have consecutive numbers. A field that was replaced
is given up with its number; the numbers of fields that wait are never given up.

An entity that is reused leaves nothing behind, so nothing need be known about which entities those
are.

## Main definitions

* `Work.ids`, `Work.Numbered`: the numbers of the fields that were deferred.
* `Execution.Leaves`: a completion whose work fits the value and is numbered.

## Main results

* `Assembler.ids_insert`: replacing a field gives up the numbers of its deferred fields.
* `Execution.completeField_leaves`, `Execution.completeFields_leaves`: completions of fields and of
  objects.
* `Execution.settle_leaves`, `Executor.start_leaves`: the steps of an execution.
-/

namespace GraphCache

variable {World : Type}

/-! ### The numbers of deferred fields -/

namespace Work

/-- The numbers of the fields that were deferred: of those that wait, and of those that were
replaced. -/
def ids (work : Work World) : List Nat :=
  work.deferred.map Deferred.id ++ work.superseded.map Deferred.id

theorem ids_append (a b : Work World) : (a ++ b).ids.Perm (a.ids ++ b.ids) := by
  have hsuperseded : (a ++ b).superseded = a.superseded ++ b.superseded := rfl
  simp only [ids, deferred_append, hsuperseded, List.map_append, List.append_assoc]
  exact List.Perm.append_left _ (List.perm_append_comm_assoc _ _ _)

theorem ids_giveUp (work : Work World) : work.giveUp.ids.Perm work.ids := by
  simp only [ids, giveUp, List.map_nil, List.nil_append, List.map_append]
  exact List.perm_append_comm

@[simp] theorem ids_under (trail : Trail) (work : Work World) :
    (work.under trail).ids = work.ids := by
  simp [ids, under, Function.comp_def, Deferred.under]

theorem ids_of_isClean {work : Work World} (h : work.isClean = true) : work.ids = [] := by
  rw [(isClean_iff work).1 h]
  rfl

theorem ids_foldl (works : List (Work World)) (start : Work World) :
    (works.foldl (· ++ ·) start).ids.Perm (start.ids ++ works.flatMap ids) := by
  induction works generalizing start with
  | nil => simp
  | cons work works ih =>
    rw [List.foldl_cons, List.flatMap_cons, ← List.append_assoc]
    exact (ih (start ++ work)).trans ((ids_append start work).append_right _)

/-- The fields that were deferred have the numbers from the first one on, up to the next one. -/
structure Numbered (first : Nat) (work : Work World) (next : Nat) : Prop where
  /-- Numbers are only ever added. -/
  le : first ≤ next
  /-- Each number has been given out once. -/
  ids : work.ids.Perm (List.range' first (next - first))

namespace Numbered

variable {first middle next : Nat} {a b : Work World}

theorem none (first : Nat) : Numbered first (Work.none : Work World) first :=
  ⟨Nat.le_refl _, by simp [Work.ids, Work.none]⟩

theorem ofFault (trail : Trail) (error : FieldError) (first : Nat) :
    Numbered first (Work.ofFault trail error : Work World) first :=
  ⟨Nat.le_refl _, by simp [Work.ids, Work.ofFault]⟩

theorem ofDeferred (d : Deferred World) : Numbered d.id (Work.ofDeferred d) (d.id + 1) :=
  ⟨Nat.le_succ _, by simp [Work.ids, Work.ofDeferred]⟩

theorem perm (h : Numbered first a next) (hperm : b.ids.Perm a.ids) : Numbered first b next :=
  ⟨h.le, hperm.trans h.ids⟩

theorem under (h : Numbered first a next) (trail : Trail) :
    Numbered first (a.under trail) next :=
  h.perm (.of_eq (ids_under trail a))

/-- Work that has the numbers of two works that follow each other. -/
theorem trans (ha : Numbered first a middle) (hb : Numbered middle b next) {c : Work World}
    (hperm : c.ids.Perm (a.ids ++ b.ids)) : Numbered first c next := by
  refine ⟨Nat.le_trans ha.le hb.le, hperm.trans ?_⟩
  have hfirst : first + (middle - first) = middle := by
    have hle := ha.le
    omega
  have hcount : next - first = (middle - first) + (next - middle) := by
    have hle := ha.le
    have hle' := hb.le
    omega
  rw [hcount, ← List.range'_append_1, hfirst]
  exact ha.ids.append hb.ids

theorem append (ha : Numbered first a middle) (hb : Numbered middle b next) :
    Numbered first (a ++ b) next :=
  ha.trans hb (ids_append a b)

end Numbered

end Work

namespace Assembler

variable {assembler : Assembler World}

theorem ids_work (assembler : Assembler World) :
    assembler.work.ids.Perm
      (assembler.pending.flatMap (·.2.ids) ++ assembler.replaced.flatMap Work.ids) := by
  refine (Work.ids_append _ _).trans (List.Perm.append ?_ ?_)
  · refine (Work.ids_foldl _ _).trans (.of_eq ?_)
    rw [List.flatMap_map]
    rfl
  · refine (Work.ids_foldl _ _).trans ?_
    rw [List.flatMap_map]
    exact List.Perm.flatMap_left _ fun work _ ↦ Work.ids_giveUp work

/-- Setting a field adds the numbers of the fields that were deferred for it. Those of the field
that it replaces are given up, but they are not lost. -/
theorem ids_insert (h : (Dict.keys assembler.pending).Nodup) (key : String) (value : Json)
    (work : Work World) :
    (assembler.insert key value work).1.work.ids.Perm (assembler.work.ids ++ work.ids) := by
  have hpending : (assembler.insert key value work).1.pending.flatMap (·.2.ids)
      = (assembler.pending.filter (·.1 != key)).flatMap (·.2.ids) ++ work.ids := by
    simp only [insert]
    split
    · next hclean => rw [Work.ids_of_isClean hclean, List.append_nil]
    · rw [List.flatMap_append, List.flatMap_singleton]
  have hreplaced : (assembler.insert key value work).1.replaced
      = assembler.replaced ++ (assembler.workOf? key).toList := rfl
  have hold : (assembler.pending.flatMap (·.2.ids)).Perm
      ((assembler.pending.filter (·.1 != key)).flatMap (·.2.ids)
        ++ (assembler.workOf? key).toList.flatMap Work.ids) := by
    refine ((Dict.perm_filter_ne h key).flatMap_right _).trans (.of_eq ?_)
    rw [List.flatMap_append, List.flatMap_map]
    rfl
  have hwork := assembler.ids_work
  have hnext := (assembler.insert key value work).1.ids_work
  rw [hpending, hreplaced, List.flatMap_append] at hnext
  generalize (assembler.pending.filter (·.1 != key)).flatMap (·.2.ids) = others at hold hnext
  generalize (assembler.workOf? key).toList.flatMap Work.ids = old at hold hnext
  generalize assembler.replaced.flatMap Work.ids = replaced at hwork hnext
  refine hnext.trans (List.Perm.trans ?_ ((hwork.trans (hold.append_right _)).symm.append_right _))
  refine List.perm_iff_count.2 fun id ↦ ?_
  simp only [List.count_append]
  omega

end Assembler

/-! ### Completions -/

namespace Execution

variable (vars : Object) (fields : List FieldPlan)

/-- If the completion succeeds, then what it leaves behind fits the value, and the fields that it
deferred got the next numbers. -/
def Leaves (run : Run World (Completed World Json)) : Prop :=
  ∀ state value work state', run state = (.ok (value, work), state') →
    Work.Fits vars fields value work ∧ work.Numbered state.nextId state'.nextId

/-- If the completion of the items of a list succeeds, the first of which has the given index, then
what it leaves behind fits the items, and the fields that it deferred got the next numbers. -/
def LeavesItems (position : Nat) (run : Run World (Completed World (List Json))) : Prop :=
  ∀ state values work state', run state = (.ok (values, work), state') →
    Work.FitsItems vars fields position values work ∧ work.Numbered state.nextId state'.nextId

/-- If the completion of an object succeeds, then what it leaves behind fits the object, and the
fields that it deferred got the next numbers. -/
def LeavesObjects (expand : Expand World) : Prop :=
  ∀ object mode typeHint state inner work state',
    expand object mode typeHint {} state = (.ok (inner, work), state') →
      Work.Fits vars fields (.object inner) work ∧ work.Numbered state.nextId state'.nextId

variable {vars : Object} {fields : List FieldPlan} {execution : Execution World}

namespace Leaves

theorem value (value : Json) :
    Leaves vars fields (pure (value, .none) : Run World (Completed World Json)) := by
  intro state _ _ _ h
  cases h
  exact ⟨.none value, .none _⟩

theorem failed (error : FieldError) :
    Leaves vars fields (failed {} error : Run World (Completed World Json)) := by
  intro state _ _ _ h
  cases h
  exact ⟨.ofFault error, .ofFault _ _ _⟩

theorem throw (error : ExecutionError) :
    Leaves vars fields (throw error : Run World (Completed World Json)) := by
  intro state _ _ _ h
  cases h

/-- A resolver that acts on the world takes no numbers. -/
theorem act_bind {α : Type} {action : StateM World α} {next : α → Run World (Completed World Json)}
    (h : ∀ a, Leaves vars fields (next a)) : Leaves vars fields (Run.act action >>= next) := by
  intro state value work state' hrun
  rw [Run.bind_ok (Run.act_apply action state)] at hrun
  exact h _ { state with world := (action.run state.world).2 } value work state' hrun

end Leaves

theorem LeavesObjects.object {expand : Expand World} (h : LeavesObjects vars fields expand)
    (object : Object) (mode : ReadMode) (typeHint : Option String) :
    Leaves vars fields
      (expand object mode typeHint {} >>= fun completed =>
        pure (.object completed.1, completed.2)) := by
  intro state value work state' hrun
  obtain ⟨completed, middle, hexpand, hpure⟩ := Run.bind_eq_ok_iff.1 hrun
  cases hpure
  exact h object mode typeHint state completed.1 completed.2 _ hexpand

theorem missingEntity_leaves (key : String) :
    Leaves vars fields (execution.missingEntity key {}) := by
  unfold missingEntity
  split
  · exact .throw _
  · exact .failed _

/-- An entity that is reused leaves nothing behind, and keeping one takes no numbers. -/
theorem completeEntity_leaves {expand : Expand World} (h : LeavesObjects vars fields expand)
    (id : Nat) (key : String) (record : Object) :
    Leaves vars fields (completeEntity id expand key record {}) := by
  intro state value work state' hrun
  cases hknown : state.reusable? (key, id) with
  | some object =>
    rw [completeEntity_of_known hknown] at hrun
    cases hrun
    exact ⟨.none _, .none _⟩
  | none =>
    rw [completeEntity_of_unknown hknown] at hrun
    rcases hexpand : expand record .record none {} state with ⟨outcome, middle⟩
    rw [hexpand] at hrun
    cases outcome with
    | error error => cases hrun
    | ok completed =>
      obtain ⟨hfits, hnumbered⟩ := h record .record none state _ _ middle hexpand
      obtain ⟨hvalue, hstate⟩ := Prod.mk.inj hrun
      cases hvalue
      refine ⟨hfits, ?_⟩
      rw [← hstate]
      split
      · exact hnumbered
      · exact hnumbered

section Values

variable {expand : Expand World} (hmoves : MovesAlong expand)
  (hexpand : LeavesObjects vars fields expand)

include hmoves hexpand

-- Each theorem of the block needs the assumptions of the others.
set_option linter.unusedSectionVars false in
mutual

/-- What the completion of a value leaves behind fits the value. -/
theorem completeValue_leaves (id : Nat) (mode : ReadMode) (typeHint : Option String)
    (value : Json) :
    Leaves vars fields (execution.completeValue id expand mode typeHint {} value) := by
  cases value with
  | null => exact .value _
  | bool _ => exact .failed _
  | number _ => exact .failed _
  | string _ => exact .failed _
  | array items =>
    intro state value work state' hrun
    rw [completeValue] at hrun
    obtain ⟨completed, middle, hitems, hpure⟩ := Run.bind_eq_ok_iff.1 hrun
    cases hpure
    obtain ⟨hfits, hnumbered⟩ :=
      completeItems_leaves id mode typeHint 0 items state _ _ _ hitems
    exact ⟨hfits.array, hnumbered⟩
  | object object =>
    rw [completeValue]
    split
    · exact completeEntity_leaves hexpand id _ _
    · exact missingEntity_leaves _
    · exact hexpand.object object mode typeHint

theorem completeItems_leaves (id : Nat) (mode : ReadMode) (typeHint : Option String)
    (position : Nat) (items : List Json) :
    LeavesItems vars fields position
      (execution.completeItems id expand mode typeHint {} position items) := by
  cases items with
  | nil =>
    intro state _ _ _ hrun
    cases hrun
    exact ⟨.nil position, .none _⟩
  | cons item items =>
    intro state _ _ _ hrun
    rw [completeItems_cons hmoves] at hrun
    obtain ⟨⟨value, _⟩, middle, hitem, hrun⟩ := Run.bind_eq_ok_iff.1 hrun
    obtain ⟨⟨values, more⟩, last, hitems, hpure⟩ := Run.bind_eq_ok_iff.1 hrun
    cases hpure
    obtain ⟨work, hinner, rfl⟩ := Run.under_eq_ok_iff.1 hitem
    obtain ⟨hfits, hnumbered⟩ := completeValue_leaves id mode typeHint item _ _ _ _ hinner
    obtain ⟨hrest, hmore⟩ :=
      completeItems_leaves id mode typeHint (position + 1) items _ _ _ _ hitems
    exact ⟨.cons hfits hrest, (hnumbered.under _).append hmore⟩

end

end Values

theorem completeLeaf_leaves (value : Json) :
    Leaves vars fields (completeLeaf value {} : Run World (Completed World Json)) := by
  rw [completeLeaf]
  split
  · exact .failed _
  · exact .value value

theorem completeRemote_leaves {complete : Json → Trail → Run World (Completed World Json)}
    (h : ∀ value, Leaves vars fields (complete value {})) (planned : PlannedField)
    (object : Object) (mode : ReadMode) (known : Option String) :
    Leaves vars fields (execution.completeRemote complete planned object mode known {}) := by
  unfold completeRemote
  split
  · exact h _
  · split
    · exact .value _
    · exact .failed _

theorem defer_leaves {plan : FieldPlan} (hfields : plan.nestedFields = fields) (typeName : String)
    (task : Task World) : Leaves vars fields (defer plan typeName task {}) := by
  intro state value work state' hrun
  rw [defer_apply] at hrun
  cases hrun
  exact ⟨.ofDeferred rfl hfields, .ofDeferred ⟨state.nextId, {}, plan, typeName, task⟩⟩

theorem completeLocal_leaves {complete : Json → Trail → Run World (Completed World Json)}
    {plan : FieldPlan} (hfields : plan.nestedFields = fields)
    (h : ∀ value, Leaves vars fields (complete value {})) (object : Object)
    (known : Option String) :
    Leaves vars fields (execution.completeLocal complete plan object known {}) := by
  cases hlookup : execution.registry.lookup (known.getD execution.rootType) plan.field.name with
  | none =>
    rw [completeLocal_of_lookup_none execution hlookup]
    exact .failed _
  | some resolver =>
    rw [completeLocal_of_lookup execution hlookup]
    refine .act_bind fun answer ↦ ?_
    cases answer with
    | pending task => exact defer_leaves hfields _ task
    | ready result =>
      cases result with
      | ok value => exact h value
      | error reason => exact .failed _

mutual

/-- What the completion of a field leaves behind fits its value. -/
theorem completeField_leaves (plan : FieldPlan) (object : Object) (mode : ReadMode)
    (known : Option String) :
    Leaves execution.variableValues plan.nestedFields
      (execution.completeField plan object mode known {}) := by
  cases plan with
  | leaf planned =>
    rw [completeField]
    split
    · exact completeLocal_leaves rfl (fun value ↦ .value value) object known
    · exact completeRemote_leaves completeLeaf_leaves planned object mode known
  | nested planned id fields =>
    have hexpand : LeavesObjects execution.variableValues fields
        (execution.completeObject fields) := by
      intro object mode typeHint state inner work state' hrun
      exact completeFields_leaves fields 0 object mode typeHint .empty .empty (fun _ _ h ↦ h)
        (.none _) hrun
    have hvalue (mode : ReadMode) (value : Json) :
        Leaves execution.variableValues fields (execution.completeValue id
          (execution.completeObject fields) mode none {} value) :=
      completeValue_leaves (completeObject_movesAlong fields) hexpand id mode none value
    unfold completeField
    dsimp only
    split
    · exact completeLocal_leaves rfl (hvalue .payload) object known
    · exact completeRemote_leaves (hvalue mode) planned object mode known

/-- What the completion of an object for the fields that remain leaves behind fits the object, if
what was completed for the fields before did. -/
theorem completeFields_leaves (plans : List FieldPlan) (position : Nat) (object : Object)
    (mode : ReadMode) (typeHint : Option String) (assembler : Assembler World)
    {fields : List FieldPlan}
    (hbuilt : assembler.Built execution.variableValues (typename? object) fields
      (fun found completed => Work.Fits execution.variableValues found.2.nestedFields completed.1
        completed.2) position plans)
    (hlater : ∀ key found,
      FieldPlan.prevailing? execution.variableValues (typename? object) key position plans
          = some found →
        FieldPlan.prevailing? execution.variableValues (typename? object) key 0 fields
          = some found)
    {first : Nat} {state state' : RunState World}
    (hnumbered : assembler.work.Numbered first state.nextId) {inner : Object} {work : Work World}
    (hrun : execution.completeFields plans position object mode typeHint {} assembler state
      = (.ok (inner, work), state')) :
    Work.Fits execution.variableValues fields (.object inner) work ∧
      work.Numbered first state'.nextId := by
  cases plans with
  | nil =>
    rw [completeFields] at hrun
    cases hrun
    exact ⟨hbuilt.fits, hnumbered⟩
  | cons plan rest =>
    by_cases hselected : plan.field.isSelected execution.variableValues (typename? object) = true
    · rw [completeFields_cons_of_selected hselected] at hrun
      obtain ⟨⟨value, _⟩, middle, hfield, hrun⟩ := Run.bind_eq_ok_iff.1 hrun
      obtain ⟨own, hinner, rfl⟩ := Run.under_eq_ok_iff.1 hfield
      obtain ⟨hfits, hown⟩ := completeField_leaves plan object mode _ _ _ _ _ hinner
      refine completeFields_leaves rest (position + 1) object mode typeHint _
        (hbuilt.insert hlater hselected hfits) (fun key found hfound ↦
          hlater key found (FieldPlan.prevailing?_cons_of_some hfound)) ?_ hrun
      exact hnumbered.trans (hown.under _) (Assembler.ids_insert hbuilt.tidy.pendingOnce _ _ _)
    · rw [completeFields_cons_of_not_selected hselected] at hrun
      exact completeFields_leaves rest (position + 1) object mode typeHint assembler
        (hbuilt.skip hselected) (fun key found hfound ↦
          hlater key found (FieldPlan.prevailing?_cons_of_some hfound)) hnumbered hrun

end

theorem completeObject_leaves (fields : List FieldPlan) :
    LeavesObjects execution.variableValues fields (execution.completeObject fields) := by
  intro object mode typeHint state inner work state' hrun
  exact completeFields_leaves fields 0 object mode typeHint .empty .empty (fun _ _ h ↦ h)
    (.none _) hrun

/-- What the completion of the result of a resolver leaves behind fits the value. -/
theorem completeResolved_leaves (plan : FieldPlan) (value : Json) :
    Leaves execution.variableValues plan.nestedFields
      (execution.completeResolved plan value {}) := by
  cases plan with
  | leaf planned => exact .value value
  | nested planned id fields =>
    exact completeValue_leaves (completeObject_movesAlong fields) (completeObject_leaves fields) id
      .payload none value

/-- What finishing a deferred field leaves behind fits its value, at the position of the field. -/
theorem settle_leaves {next : Deferred World} {state state' : RunState World} {value : Json}
    {work : Work World} (hrun : execution.settle next state = (.ok (value, work), state')) :
    ∃ inner, work = inner.under next.trail ∧
      Work.Fits execution.variableValues next.plan.nestedFields value inner ∧
      inner.Numbered state.nextId state'.nextId := by
  rw [settle_eq_under] at hrun
  obtain ⟨inner, hinner, rfl⟩ := Run.under_eq_ok_iff.1 hrun
  have hleaves : Leaves execution.variableValues next.plan.nestedFields
      (Run.act next.task.finish >>= execution.completeFinished next) := by
    refine .act_bind fun result ↦ ?_
    cases result with
    | ok value => exact completeResolved_leaves next.plan value
    | error reason => exact .failed _
  exact ⟨inner, rfl, hleaves _ _ _ _ hinner⟩

end Execution

namespace Executor

/-- What the first pass over a plan leaves behind fits its value. -/
theorem start_leaves (executor : Executor World) (root : Root) :
    Execution.Leaves executor.execution.variableValues executor.plan.selection.fields
      (executor.start root) := by
  have hexpand : Execution.LeavesObjects executor.execution.variableValues
      executor.plan.selection.fields
      (executor.execution.completeObject executor.plan.selection.fields) :=
    Execution.completeObject_leaves _
  unfold start
  cases root with
  | entity key =>
    dsimp only
    split
    · exact hexpand.object _ _ _
    · split
      · exact hexpand.object _ _ _
      · exact Execution.missingEntity_leaves key
  | value payload =>
    exact Execution.completeValue_leaves (Execution.completeObject_movesAlong _) hexpand _ _ _ _

end Executor

end GraphCache
