import GraphCache.Execution.Drive
import GraphCache.Proofs.Steps

/-!
# Completion at another position

What a completion yields at one position is what it yields at the root, moved to that position:
values are the same, and faults, deferred fields and the path of an error that ends the execution
are moved. This is why an object without any work can be used again at another position, and it
lets proofs speak about positions relative to the value that is completed.

## Main definitions

* `Trail.append`: the position of an inner position inside a value at an outer one.
* `Fault.under`, `Deferred.under`, `Work.under`, `Assembler.under`: moved work.
* `Run.under`: a computation whose result is moved.

## Main results

* `Execution.completeValue_under`, `Execution.completeFields_under`,
  `Execution.completeResolved_under`: completion at a position.
* `Execution.settle_eq_under`: finishing a deferred field at its position.
-/

namespace GraphCache

variable {World α β : Type}

namespace Trail

/-- The position of an inner position inside a value at an outer one. -/
def append (outer inner : Trail) : Trail :=
  ⟨outer.path ++ inner.path, outer.order ++ inner.order⟩

instance : Append Trail := ⟨append⟩

@[simp] theorem path_append (a b : Trail) : (a ++ b).path = a.path ++ b.path := rfl

@[simp] theorem order_append (a b : Trail) : (a ++ b).order = a.order ++ b.order := rfl

@[ext] theorem ext {a b : Trail} (hpath : a.path = b.path) (horder : a.order = b.order) :
    a = b := by
  cases a
  cases b
  simp_all

@[simp] theorem append_root (trail : Trail) : trail ++ ({} : Trail) = trail := by
  ext1 <;> simp

@[simp] theorem root_append (trail : Trail) : ({} : Trail) ++ trail = trail := rfl

theorem append_assoc (a b c : Trail) : a ++ b ++ c = a ++ (b ++ c) := by
  ext1 <;> simp

theorem append_field (a b : Trail) (position : Nat) (key : String) :
    (a ++ b).field position key = a ++ b.field position key := by
  ext1 <;> simp [field]

theorem append_index (a b : Trail) (position : Nat) :
    (a ++ b).index position = a ++ b.index position := by
  ext1 <;> simp [index]

end Trail

/-- The fault inside a value at a position. -/
def Fault.under (trail : Trail) (fault : Fault) : Fault :=
  { fault with trail := trail ++ fault.trail }

/-- The deferred field inside a value at a position. -/
def Deferred.under (trail : Trail) (deferred : Deferred World) : Deferred World :=
  { deferred with trail := trail ++ deferred.trail }

/-- The error inside a value at a position. -/
def ExecutionError.under (trail : Trail) : ExecutionError → ExecutionError
  | missingEntity key path => missingEntity key (trail.path ++ path)
  | error => error

@[simp] theorem Fault.under_root (fault : Fault) : fault.under {} = fault := rfl

@[simp] theorem Deferred.under_root (deferred : Deferred World) :
    deferred.under {} = deferred := rfl

theorem Fault.under_under (a b : Trail) (fault : Fault) :
    (fault.under b).under a = fault.under (a ++ b) := by
  simp [under, Trail.append_assoc]

namespace Work

/-- The work inside a value at a position. -/
def under (trail : Trail) (work : Work World) : Work World :=
  { faults := work.faults.map (·.under trail)
    deferred := work.deferred.map (·.under trail)
    droppedFaults := work.droppedFaults.map (·.under trail)
    superseded := work.superseded.map (·.under trail) }

@[simp] theorem faults_under (trail : Trail) (work : Work World) :
    (work.under trail).faults = work.faults.map (·.under trail) := rfl

@[simp] theorem deferred_under (trail : Trail) (work : Work World) :
    (work.under trail).deferred = work.deferred.map (·.under trail) := rfl

@[simp] theorem under_none (trail : Trail) : (none : Work World).under trail = none := rfl

theorem under_append (trail : Trail) (a b : Work World) :
    (a ++ b).under trail = a.under trail ++ b.under trail := by
  show under trail (append a b) = append (under trail a) (under trail b)
  simp [under, append]

@[simp] theorem under_root (work : Work World) : work.under {} = work := by
  simp [under]

theorem under_giveUp (trail : Trail) (work : Work World) :
    work.giveUp.under trail = (work.under trail).giveUp := by
  simp [under, giveUp]

@[simp] theorem isClean_under (trail : Trail) (work : Work World) :
    (work.under trail).isClean = work.isClean := by
  simp [under, isClean, List.isEmpty_map]

/-- Only no work at all is clean. -/
theorem isClean_iff (work : Work World) : work.isClean = true ↔ work = none := by
  obtain ⟨faults, deferred, droppedFaults, superseded⟩ := work
  simp [isClean, none, and_assoc]

theorem faults_of_isClean {work : Work World} (h : work.isClean = true) : work.faults = [] := by
  rw [(isClean_iff work).1 h]
  rfl

theorem deferred_of_isClean {work : Work World} (h : work.isClean = true) :
    work.deferred = [] := by
  rw [(isClean_iff work).1 h]
  rfl

theorem under_foldl (trail : Trail) (works : List (Work World)) (start : Work World) :
    (works.foldl (· ++ ·) start).under trail
      = (works.map (·.under trail)).foldl (· ++ ·) (start.under trail) := by
  induction works generalizing start with
  | nil => rfl
  | cons work works ih => rw [List.foldl_cons, ih, under_append, List.map_cons, List.foldl_cons]

end Work

namespace Assembler

/-- The object under construction at another position. -/
def under (trail : Trail) (assembler : Assembler World) : Assembler World :=
  { assembler with
    pending := assembler.pending.map fun entry => (entry.1, entry.2.under trail)
    replaced := assembler.replaced.map (·.under trail) }

@[simp] theorem object_under (trail : Trail) (assembler : Assembler World) :
    (assembler.under trail).object = assembler.object := rfl

@[simp] theorem under_root (assembler : Assembler World) : assembler.under {} = assembler := by
  simp [under]

theorem workOf?_under (trail : Trail) (assembler : Assembler World) (key : String) :
    (assembler.under trail).workOf? key = (assembler.workOf? key).map (·.under trail) := by
  unfold workOf? under
  dsimp only
  induction assembler.pending with
  | nil => rfl
  | cons entry rest ih =>
    rw [List.map_cons, Dict.get?_cons, Dict.get?_cons, ih]
    split
    · rfl
    · rfl

theorem insert_under (trail : Trail) (assembler : Assembler World) (key : String) (value : Json)
    (work : Work World) :
    ((assembler.under trail).insert key value (work.under trail)).1
      = (assembler.insert key value work).1.under trail := by
  simp only [insert, workOf?_under, Work.isClean_under]
  simp only [under, List.filter_map, Function.comp_def, List.map_append, mk.injEq, true_and]
  constructor
  · split
    · rfl
    · simp
  · cases assembler.workOf? key <;> rfl

theorem work_under (trail : Trail) (assembler : Assembler World) :
    (assembler.under trail).work = assembler.work.under trail := by
  unfold work
  rw [Work.under_append, Work.under_foldl, Work.under_foldl, Work.under_none]
  simp only [under, List.map_map, Function.comp_def, Work.under_giveUp]

end Assembler

namespace Run

/-- The computation whose result is moved to a position. -/
def under (trail : Trail) (run : Run World (Completed World α)) : Run World (Completed World α) :=
  fun state =>
    match run state with
    | (.ok (value, work), state) => (.ok (value, work.under trail), state)
    | (.error error, state) => (.error (error.under trail), state)

theorem under_apply_ok {run : Run World (Completed World α)} {state state' : RunState World}
    {value : α} {work : Work World} (h : run state = (.ok (value, work), state'))
    (trail : Trail) : run.under trail state = (.ok (value, work.under trail), state') := by
  rw [under, h]

theorem under_apply_error {run : Run World (Completed World α)} {state state' : RunState World}
    {error : ExecutionError} (h : run state = (.error error, state')) (trail : Trail) :
    run.under trail state = (.error (error.under trail), state') := by
  rw [under, h]

/-- What a computation that is moved to a position yields is what it yields at the root, moved. -/
theorem under_eq_ok_iff {run : Run World (Completed World α)} {trail : Trail}
    {state state' : RunState World} {value : α} {work : Work World} :
    run.under trail state = (.ok (value, work), state') ↔
      ∃ inner, run state = (.ok (value, inner), state') ∧ work = inner.under trail := by
  rcases h : run state with ⟨outcome, middle⟩
  cases outcome with
  | error error =>
    rw [under_apply_error h]
    refine ⟨nofun, ?_⟩
    rintro ⟨_, heq, _⟩
    cases heq
  | ok completed =>
    rw [under_apply_ok h]
    constructor
    · intro heq
      cases heq
      exact ⟨_, rfl, rfl⟩
    · rintro ⟨inner, heq, rfl⟩
      cases heq
      rfl

theorem under_pure (trail : Trail) (value : α) (work : Work World) :
    (pure (value, work) : Run World (Completed World α)).under trail
      = pure (value, work.under trail) := rfl

/-- Both parts of a computation are moved. -/
theorem under_bind {trail : Trail} {run : Run World (Completed World α)}
    {next next' : Completed World α → Run World (Completed World β)}
    (h : ∀ value work, (next (value, work)).under trail = next' (value, work.under trail)) :
    (run >>= next).under trail = run.under trail >>= next' := by
  funext state
  rcases hrun : run state with ⟨outcome, state'⟩
  cases outcome with
  | ok completed =>
    rw [bind_ok (under_apply_ok hrun trail), ← h, under, under, bind_ok hrun]
  | error error =>
    rw [under_apply_error (bind_error hrun next), bind_error (under_apply_error hrun trail)]

/-- What follows the action of a resolver is moved. -/
theorem under_act_bind {trail : Trail} (action : StateM World α)
    {next next' : α → Run World (Completed World β)}
    (h : ∀ a, (next a).under trail = next' a) :
    (act action >>= next).under trail = act action >>= next' := by
  funext state
  rw [under, bind_ok (act_apply action state), bind_ok (act_apply action state), ← h, under]

/-- A computation that is moved to a position ensures what it ensures at the root, moved. -/
theorem Achieves.under {sound : Memo → Prop} {run : Run World (Completed World α)}
    {post : Completed World α → Prop}
    (h : Achieves sound run post) (trail : Trail) :
    Achieves sound (run.under trail) fun completed =>
      ∃ work, completed.2 = work.under trail ∧ post (completed.1, work) := by
  intro state hsound
  obtain ⟨⟨value, work⟩, state', hrun, hsound', hpost⟩ := h state hsound
  exact ⟨_, state', under_apply_ok hrun trail, hsound', work, rfl, hpost⟩

end Run

namespace Execution

variable (execution : Execution World)

theorem failed_under (trail inner : Trail) (error : FieldError) :
    (failed (trail ++ inner) error : Run World (Completed World Json))
      = (failed inner error).under trail := rfl

theorem missingEntity_under (key : String) (trail inner : Trail) :
    execution.missingEntity key (trail ++ inner)
      = (execution.missingEntity key inner).under trail := by
  unfold missingEntity
  split
  · rfl
  · rfl

/-- Completing an object yields the same at every position. -/
def MovesAlong (expand : Expand World) : Prop :=
  ∀ object mode typeHint trail inner,
    expand object mode typeHint (trail ++ inner)
      = (expand object mode typeHint inner).under trail

/-- What is yielded at a position is what is yielded at the root, moved there. -/
theorem MovesAlong.eq_under {expand : Expand World} (h : MovesAlong expand) (object : Object)
    (mode : ReadMode) (typeHint : Option String) (trail : Trail) :
    expand object mode typeHint trail = (expand object mode typeHint {}).under trail := by
  rw [← h, Trail.append_root]

variable {execution}

theorem completeEntity_under {expand : Expand World} (h : MovesAlong expand) (id : Nat)
    (key : String) (record : Object) (trail inner : Trail) :
    completeEntity id expand key record (trail ++ inner)
      = (completeEntity id expand key record inner).under trail := by
  funext state
  cases hknown : state.reusable? (key, id) with
  | some object =>
    rw [completeEntity_of_known hknown,
      Run.under_apply_ok (completeEntity_of_known hknown expand record inner),
      Work.under_none]
  | none =>
    have hinner := completeEntity_of_unknown hknown expand record inner
    rw [completeEntity_of_unknown hknown, h]
    rcases hexpand : expand record .record none inner state with ⟨outcome, state'⟩
    rw [hexpand] at hinner
    cases outcome with
    | ok completed =>
      obtain ⟨object, work⟩ := completed
      rw [Run.under_apply_ok hexpand, Run.under_apply_ok hinner]
      simp only [Work.isClean_under]
    | error error => rw [Run.under_apply_error hexpand, Run.under_apply_error hinner]

mutual

/-- Completing a value yields the same at every position. -/
theorem completeValue_under {expand : Expand World} (h : MovesAlong expand) (id : Nat)
    (mode : ReadMode) (typeHint : Option String) (trail inner : Trail) (value : Json) :
    execution.completeValue id expand mode typeHint (trail ++ inner) value
      = (execution.completeValue id expand mode typeHint inner value).under trail := by
  cases value with
  | null => rfl
  | bool _ => rfl
  | number _ => rfl
  | string _ => rfl
  | array items =>
    rw [completeValue, completeItems_under h id mode typeHint trail inner 0 items]
    exact (Run.under_bind fun _ _ ↦ rfl).symm
  | object fields =>
    unfold completeValue
    split
    · exact completeEntity_under h id _ _ trail inner
    · exact missingEntity_under execution _ trail inner
    · rw [h]
      exact (Run.under_bind fun _ _ ↦ rfl).symm

theorem completeItems_under {expand : Expand World} (h : MovesAlong expand) (id : Nat)
    (mode : ReadMode) (typeHint : Option String) (trail inner : Trail) (position : Nat)
    (items : List Json) :
    execution.completeItems id expand mode typeHint (trail ++ inner) position items
      = (execution.completeItems id expand mode typeHint inner position items).under trail := by
  cases items with
  | nil => rfl
  | cons item items =>
    rw [completeItems]
    rw [Trail.append_index, completeValue_under h id mode typeHint trail _ item,
      completeItems_under h id mode typeHint trail inner _ items]
    refine (Run.under_bind fun value work ↦ ?_).symm
    refine Run.under_bind fun values more ↦ ?_
    rw [Run.under_pure, Work.under_append]

end

/-- What is done with the value of a field yields the same at every position. -/
def Treats (complete : Json → Trail → Run World (Completed World Json)) : Prop :=
  ∀ value trail inner, complete value (trail ++ inner) = (complete value inner).under trail

theorem completeLeaf_treats : Treats (@completeLeaf World) := by
  intro value trail inner
  unfold completeLeaf
  split
  · rfl
  · rfl

theorem completeRemote_under {complete : Json → Trail → Run World (Completed World Json)}
    (h : Treats complete) (field : PlannedField) (object : Object) (mode : ReadMode)
    (known : Option String) (trail inner : Trail) :
    execution.completeRemote complete field object mode known (trail ++ inner)
      = (execution.completeRemote complete field object mode known inner).under trail := by
  unfold completeRemote
  split
  · exact h _ trail inner
  · split
    · rfl
    · rfl

theorem completeLocal_under {complete : Json → Trail → Run World (Completed World Json)}
    (h : Treats complete) (plan : FieldPlan) (object : Object) (known : Option String)
    (trail inner : Trail) :
    execution.completeLocal complete plan object known (trail ++ inner)
      = (execution.completeLocal complete plan object known inner).under trail := by
  cases hlookup : execution.registry.lookup (known.getD execution.rootType) plan.field.name with
  | none =>
    rw [completeLocal_of_lookup_none execution hlookup,
      completeLocal_of_lookup_none execution hlookup]
    rfl
  | some resolver =>
    rw [completeLocal_of_lookup execution hlookup, completeLocal_of_lookup execution hlookup]
    refine (Run.under_act_bind _ fun resolution ↦ ?_).symm
    cases resolution with
    | pending task => rfl
    | ready result =>
      cases result with
      | error reason => rfl
      | ok value => exact (h value trail inner).symm

mutual

theorem completeField_under (plan : FieldPlan) (object : Object) (mode : ReadMode)
    (known : Option String) (trail inner : Trail) :
    execution.completeField plan object mode known (trail ++ inner)
      = (execution.completeField plan object mode known inner).under trail := by
  cases plan with
  | leaf field =>
    unfold completeField
    split
    · exact completeLocal_under (fun _ _ _ ↦ rfl) _ _ _ trail inner
    · exact completeRemote_under completeLeaf_treats _ _ _ _ trail inner
  | nested field id fields =>
    have hexpand : MovesAlong fun object mode typeHint trail ↦
        execution.completeFields fields 0 object mode typeHint trail .empty :=
      fun object mode typeHint trail inner ↦
        completeFields_under fields 0 object mode typeHint trail inner .empty
    unfold completeField
    dsimp only
    split
    · exact completeLocal_under (fun value trail inner ↦
        completeValue_under hexpand id _ _ trail inner value) _ _ _ trail inner
    · exact completeRemote_under (fun value trail inner ↦
        completeValue_under hexpand id _ _ trail inner value) _ _ _ _ trail inner

/-- Completing an object for listed fields yields the same at every position. -/
theorem completeFields_under (plans : List FieldPlan) (position : Nat) (object : Object)
    (mode : ReadMode) (typeHint : Option String) (trail inner : Trail)
    (assembler : Assembler World) :
    execution.completeFields plans position object mode typeHint (trail ++ inner)
        (assembler.under trail)
      = (execution.completeFields plans position object mode typeHint inner assembler).under
          trail := by
  cases plans with
  | nil =>
    unfold completeFields
    rw [Run.under_pure, Assembler.work_under, Assembler.object_under]
  | cons plan plans =>
    unfold completeFields
    split
    · rw [Trail.append_field, completeField_under plan object mode _ trail _]
      refine (Run.under_bind fun value work ↦ ?_).symm
      dsimp only
      rw [Assembler.insert_under]
      exact (completeFields_under plans _ object mode typeHint trail inner _).symm
    · exact completeFields_under plans _ object mode typeHint trail inner assembler

end

theorem completeObject_movesAlong (fields : List FieldPlan) :
    MovesAlong (execution.completeObject fields) :=
  fun object mode typeHint trail inner ↦
    completeFields_under fields 0 object mode typeHint trail inner .empty

/-- The first item of a list is completed as at the root, and moved to its index. -/
theorem completeItems_cons {expand : Expand World} (h : MovesAlong expand) (id : Nat)
    (mode : ReadMode) (typeHint : Option String) (position : Nat) (item : Json)
    (items : List Json) :
    execution.completeItems id expand mode typeHint {} position (item :: items)
      = (execution.completeValue id expand mode typeHint {} item).under
            (({} : Trail).index position) >>= fun first =>
          execution.completeItems id expand mode typeHint {} (position + 1) items >>= fun others =>
            pure (first.1 :: others.1, first.2 ++ others.2) := by
  rw [completeItems, ← completeValue_under h, Trail.append_root]

section Fields

variable {plan : FieldPlan} {object : Object}

/-- A field that counts is completed as at the root, and moved to its place in the object. -/
theorem completeFields_cons_of_selected
    (h : plan.field.isSelected execution.variableValues (typename? object) = true)
    (plans : List FieldPlan) (position : Nat) (mode : ReadMode) (typeHint : Option String)
    (assembler : Assembler World) :
    execution.completeFields (plan :: plans) position object mode typeHint {} assembler
      = (execution.completeField plan object mode (knownType plan.field object typeHint) {}).under
            (({} : Trail).field position plan.field.responseKey) >>= fun completed =>
          execution.completeFields plans (position + 1) object mode typeHint {}
            (assembler.insert plan.field.responseKey completed.1 completed.2).1 := by
  rw [completeFields, if_pos h, ← completeField_under, Trail.append_root]

/-- A field that does not count is left out. -/
theorem completeFields_cons_of_not_selected
    (h : ¬ plan.field.isSelected execution.variableValues (typename? object) = true)
    (plans : List FieldPlan) (position : Nat) (mode : ReadMode) (typeHint : Option String)
    (assembler : Assembler World) :
    execution.completeFields (plan :: plans) position object mode typeHint {} assembler
      = execution.completeFields plans (position + 1) object mode typeHint {} assembler := by
  rw [completeFields, if_neg h]

end Fields

/-- Completing the result of a resolver yields the same at every position. -/
theorem completeResolved_under (plan : FieldPlan) (value : Json) (trail inner : Trail) :
    execution.completeResolved plan value (trail ++ inner)
      = (execution.completeResolved plan value inner).under trail := by
  cases plan with
  | leaf field => rfl
  | nested field id fields =>
    exact completeValue_under (completeObject_movesAlong fields) id _ _ trail inner value

variable (execution) in
/-- Completes what the task of a deferred field came to, as if the field stood at the root. -/
def completeFinished (deferred : Deferred World) : ResolverResult → Run World (Completed World Json)
  | .ok value => execution.completeResolved deferred.plan value {}
  | .error reason => failed {} (resolverFailure deferred.plan deferred.typeName reason)

/-- A deferred field is finished at its position as it would be at the root. -/
theorem settle_eq_under (deferred : Deferred World) :
    execution.settle deferred
      = (Run.act deferred.task.finish >>= execution.completeFinished deferred).under
          deferred.trail := by
  refine (Run.under_act_bind _ fun result ↦ ?_).symm
  cases result with
  | ok value => rw [completeFinished, ← completeResolved_under, Trail.append_root]
  | error reason => rw [completeFinished, ← failed_under, Trail.append_root]

end Execution

end GraphCache
