import GraphCache.Proofs.ErrorPaths
import GraphCache.Proofs.RemoteParts

/-!
# Local fields cannot influence remote data

The remote part of a response is what remains of the data when the values of local fields are left
out, and the errors outside these values. It is determined by the plan, the cache and the variables
alone: whatever the resolvers answer, whenever they do so and whatever they depend on, the remote
part is that of the evaluation without any resolvers.

Entities are remembered while local fields are completed as well. What is remembered about an entity
mixes both kinds of fields, but its remote part is right.

## Main definitions

* `Execution.remoteEvaluator`: direct evaluation without any resolvers.
* `Execution.Reflects`: a completion with the right remote part.
* `Response.remotePart`: the remote part of a response.

## Main results

* `Execution.completeField_mirrors`, `Execution.completeFields_mirrors`: completions of fields and
  of objects.
* `Execution.Mirroring.settle`: finishing a deferred field does not change the remote part.
* `Executor.local_fields_cannot_influence_remote_data`: the remote parts of all responses are the
  same.
-/

namespace GraphCache

variable {World : Type} {plan : QueryPlan} {hidden : Path → Bool}

/-! ### Completions -/

/-- What is remembered about entities has the remote part that evaluation gives for them. -/
def Memo.Mirrored (evaluator : Evaluator) (plan : QueryPlan) : Memo → Prop :=
  Memo.Describes evaluator.store plan fun fields record object =>
    Mirrors plan (evaluator.hides (.object fields ⟨record, .record, none⟩))
      (.object object, (Work.none : Work Unit))
      (evaluator.read (.object fields ⟨record, .record, none⟩))

/-- Without deferred fields it does not matter which world resolvers act on. -/
theorem Mirrors.ofNone {World' : Type} {value : Json} {evaluated : Evaluated Json}
    (h : Mirrors plan hidden (value, (Work.none : Work World)) evaluated) :
    Mirrors plan hidden (value, (Work.none : Work World')) evaluated :=
  ⟨h.data, h.work.faults, by simp, by simp⟩

namespace Execution

variable (execution : Execution World) (plan : QueryPlan)

/-- The direct evaluation without any resolvers. -/
def remoteEvaluator : Evaluator where
  rootType := execution.rootType
  store := execution.store
  variableValues := execution.variableValues
  resolve? := fun _ _ => none

/-- A completion succeeds with the remote part of what evaluation gives for what is read. -/
def Reflects (run : Run World (Completed World Json)) (reading : Reading) : Prop :=
  run.Achieves (Memo.Mirrored execution.remoteEvaluator plan) fun completed =>
    Mirrors plan (execution.remoteEvaluator.hides reading) completed
      (execution.remoteEvaluator.read reading)

/-- Completing objects succeeds with the remote part of the evaluated objects. -/
def ReflectsObjects (expand : Expand World) (fields : List FieldPlan) : Prop :=
  ∀ source : Source,
    (expand source.object source.mode source.typeHint {}).Achieves
      (Memo.Mirrored execution.remoteEvaluator plan) fun completed =>
        Mirrors plan (execution.remoteEvaluator.hides (.object fields source))
          (.object completed.1, completed.2)
          (execution.remoteEvaluator.read (.object fields source))

/-- A completion succeeds and defers only fields of the plan. -/
def DefersPlanned (run : Run World (Completed World Json)) : Prop :=
  run.Achieves (Memo.Mirrored execution.remoteEvaluator plan) fun completed =>
    ∀ d ∈ completed.2.deferred, plan.Has d.plan

variable {execution plan}

theorem DefersPlanned.value (value : Json) :
    execution.DefersPlanned plan (pure (value, .none)) :=
  .pure (by simp)

theorem DefersPlanned.failed (error : FieldError) :
    execution.DefersPlanned plan (failed {} error) :=
  .pure (by simp)

theorem ReflectsObjects.object {expand : Expand World} {fields : List FieldPlan}
    (h : execution.ReflectsObjects plan expand fields) (source : Source) :
    execution.Reflects plan
      (expand source.object source.mode source.typeHint {} >>= fun completed =>
        pure (.object completed.1, completed.2)) (.object fields source) :=
  (h source).bind fun _ hmirrors ↦ .pure hmirrors

/-- An entity that is reused has the right remote part, and so has one that is remembered. -/
theorem completeEntity_mirrors (hplan : plan.Planned) {id : Nat} {fields : List FieldPlan}
    (hfields : ⟨id, fields⟩ ∈ plan.selection.selections) {expand : Expand World}
    (hexpand : execution.ReflectsObjects plan expand fields) {key : String} {record : Object}
    (hrecord : Dict.get? execution.store key = some record) :
    execution.Reflects plan (completeEntity id expand key record {})
      (.object fields ⟨record, .record, none⟩) := by
  intro state hsound
  cases hknown : state.reusable? (key, id) with
  | some object =>
    have hfind : state.memo.find? (key, id) = some (some object) :=
      RunState.reusable?_eq_some_iff.1 hknown
    have hmirrors := hsound key id object hfind fields hfields record hrecord
    exact ⟨_, state, completeEntity_of_known hknown expand record {}, hsound,
      hmirrors.ofNone⟩
  | none =>
    obtain ⟨⟨object, work⟩, state', hrun, hsound', hmirrors⟩ :=
      hexpand ⟨record, .record, none⟩ state hsound
    have hstep := completeEntity_of_unknown hknown expand record {}
    rw [hrun] at hstep
    refine ⟨_, _, hstep, ?_, hmirrors⟩
    split
    · next hclean =>
      -- An object is kept only if no local field in it failed or is still deferred.
      have hwork : work = .none := (Work.isClean_iff work).1 hclean
      subst hwork
      refine Memo.Describes.cons hplan hsound' hfields hrecord fun kept hkept ↦ ?_
      split at hkept
      · rw [← Option.some.inj hkept]
        exact hmirrors.ofNone
      · cases hkept
    · exact hsound'

section Values

variable (hpolicy : execution.missingEntities = .nullify)

include hpolicy

theorem missingEntity_mirrors (key : String) :
    (execution.missingEntity key {}).Achieves (Memo.Mirrored execution.remoteEvaluator plan)
      fun completed => Mirrors plan hidden completed
        (Evaluator.failing (.missingEntity key)) := by
  rw [missingEntity, hpolicy]
  exact .pure (.failed _)

variable (hplan : plan.Planned) {id : Nat} {fields : List FieldPlan}
  (hfields : ⟨id, fields⟩ ∈ plan.selection.selections) {expand : Expand World}
  (hmoves : MovesAlong expand) (hexpand : execution.ReflectsObjects plan expand fields)

include hplan hfields hmoves hexpand

omit hmoves in
/-- A value that is an object has the right remote part, also if it is a reference. -/
theorem completeValue_object_mirrors (mode : ReadMode) (typeHint : Option String)
    (object : Object) :
    execution.Reflects plan (execution.completeValue id expand mode typeHint {} (.object object))
      (.value fields mode typeHint (.object object)) := by
  have hreads {source : Source} (hsource : execution.remoteEvaluator.source?
      (.value fields mode typeHint (.object object)) = some source)
      {run : Run World (Completed World Json)}
      (h : execution.Reflects plan run (.object fields source)) :
      execution.Reflects plan run (.value fields mode typeHint (.object object)) := by
    rw [Reflects, Evaluator.hides_of_source? hsource, Evaluator.read_of_source? hsource]
    exact h
  rw [completeValue]
  cases hresolve : execution.store.resolve (.object object) with
  | notReference =>
    have hsource : execution.remoteEvaluator.source?
        (.value fields mode typeHint (.object object)) = some ⟨object, mode, typeHint⟩ := by
      have hstore : execution.remoteEvaluator.store = execution.store := rfl
      rw [Evaluator.source?, hstore, hresolve]
    exact hreads hsource (hexpand.object ⟨object, mode, typeHint⟩)
  | entity key record =>
    have hsource : execution.remoteEvaluator.source?
        (.value fields mode typeHint (.object object)) = some ⟨record, .record, none⟩ := by
      have hstore : execution.remoteEvaluator.store = execution.store := rfl
      rw [Evaluator.source?, hstore, hresolve]
    exact hreads hsource
      (completeEntity_mirrors hplan hfields hexpand (Snapshot.get?_of_resolve hresolve))
  | missing key =>
    have hread : execution.remoteEvaluator.read (.value fields mode typeHint (.object object))
        = Evaluator.failing (.missingEntity key) := by
      have hstore : execution.remoteEvaluator.store = execution.store := rfl
      simp only [Evaluator.read, Evaluator.value, hstore, hresolve]
    rw [Reflects, hread]
    exact missingEntity_mirrors hpolicy key

-- Each theorem of the block needs the assumptions of the others.
set_option linter.unusedSectionVars false in
mutual

/-- A value that is completed has the right remote part. -/
theorem completeValue_mirrors (mode : ReadMode) (typeHint : Option String) (json : Json) :
    execution.Reflects plan (execution.completeValue id expand mode typeHint {} json)
      (.value fields mode typeHint json) := by
  cases json with
  | null => exact .pure (.value _)
  | bool _ => exact .pure (.failed _)
  | number _ => exact .pure (.failed _)
  | string _ => exact .pure (.failed _)
  | array items =>
    have hitems := completeItems_mirrors mode typeHint 0 items
      (execution.remoteEvaluator.hides (.value fields mode typeHint (.array items)))
      fun index path ↦ by
        rw [Nat.zero_add]
        rfl
    rw [completeValue]
    exact hitems.bind fun completed hmirrors ↦ .pure hmirrors.array
  | object object =>
    exact completeValue_object_mirrors hpolicy hplan hfields hexpand mode typeHint object

theorem completeItems_mirrors (mode : ReadMode) (typeHint : Option String) (position : Nat)
    (items : List Json) (hidden : Path → Bool)
    (hhidden : ∀ index path, hidden (.index (position + index) :: path)
      = (items[index]?.map (Reading.value fields mode typeHint)).any
          (execution.remoteEvaluator.hides · path)) :
    (execution.completeItems id expand mode typeHint {} position items).Achieves
      (Memo.Mirrored execution.remoteEvaluator plan) fun completed =>
        MirrorsItems plan hidden position completed (execution.remoteEvaluator.items
          (execution.remoteEvaluator.fields fields 0) mode typeHint position items) := by
  cases items with
  | nil => exact .pure (.nil position)
  | cons item rest =>
    have hitem : (fun path ↦ hidden (.index position :: path))
        = execution.remoteEvaluator.hides (.value fields mode typeHint item) := by
      funext path
      exact hhidden 0 path
    have hrest := completeItems_mirrors mode typeHint (position + 1) rest hidden
      fun index path ↦ by
        have hindex : position + 1 + index = position + (index + 1) := by omega
        rw [hindex, hhidden, List.getElem?_cons_succ]
    rw [completeItems_cons hmoves]
    refine ((completeValue_mirrors mode typeHint item).under _).bind fun ⟨value, _⟩ hvalue ↦ ?_
    obtain ⟨work, rfl, hmirrors⟩ := hvalue
    rw [← hitem] at hmirrors
    exact hrest.bind fun completed hmore ↦ .pure (.cons hmirrors hmore)

end

end Values

theorem completeLeaf_mirrors (value : Json) :
    (completeLeaf value {}).Achieves (Memo.Mirrored execution.remoteEvaluator plan)
      fun completed : Completed World Json =>
        Mirrors plan hidden completed (Evaluator.leafValue value) := by
  rw [completeLeaf, Evaluator.leafValue]
  split
  · exact .pure (.failed _)
  · exact .pure (.value value)

/-- A remote field has the right remote part if the value that is found for it has. -/
theorem completeRemote_mirrors {complete : Json → Trail → Run World (Completed World Json)}
    {evaluate : Json → Evaluated Json} {planned : PlannedField} {object : Object}
    {mode : ReadMode}
    (h : ∀ value, execution.remoteEvaluator.found? planned object mode = some value →
      (complete value {}).Achieves (Memo.Mirrored execution.remoteEvaluator plan)
        fun completed => Mirrors plan hidden completed (evaluate value))
    (known : Option String) :
    (execution.completeRemote complete planned object mode known {}).Achieves
      (Memo.Mirrored execution.remoteEvaluator plan) fun completed => Mirrors plan hidden completed
        (execution.remoteEvaluator.remoteField evaluate planned object mode known) := by
  have hfound : execution.remoteEvaluator.found? planned object mode
      = execution.remoteValue? planned object mode := by cases mode <;> rfl
  unfold completeRemote Evaluator.remoteField
  rw [hfound] at h ⊢
  cases hvalue : execution.remoteValue? planned object mode with
  | some value => exact h value hvalue
  | none =>
    cases planned.isTypename with
    | false => exact .pure (.failed _)
    | true =>
      cases known with
      | none => exact .pure (.failed _)
      | some typeName => exact .pure (.value _)

/-- Whatever the resolver of a local field answers, the completion succeeds and defers only fields
of the plan. -/
theorem completeLocal_defers {complete : Json → Trail → Run World (Completed World Json)}
    {fieldPlan : FieldPlan} (hplanned : plan.Has fieldPlan)
    (h : ∀ value, execution.DefersPlanned plan (complete value {})) (object : Object)
    (known : Option String) :
    execution.DefersPlanned plan
      (execution.completeLocal complete fieldPlan object known {}) := by
  cases hlookup : execution.registry.lookup (known.getD execution.rootType)
      fieldPlan.field.name with
  | none =>
    rw [completeLocal_of_lookup_none execution hlookup]
    exact .failed _
  | some resolver =>
    rw [completeLocal_of_lookup execution hlookup]
    have hact : (Run.act (resolver object
        (fieldPlan.field.boundArguments execution.variableValues)
        ⟨execution.variableValues, execution.store⟩)).Achieves
          (Memo.Mirrored execution.remoteEvaluator plan) fun _ => True := .act fun _ ↦ trivial
    -- Nothing is known about the answer, so both kinds of answers have to be served.
    refine hact.bind fun answer _ ↦ ?_
    cases answer with
    | pending task =>
      intro state hsound
      refine ⟨_, _, defer_apply fieldPlan _ task {} state, hsound, fun d hd ↦ ?_⟩
      rw [List.mem_singleton.1 hd]
      exact hplanned
    | ready result =>
      cases result with
      | ok value => exact h value
      | error reason => exact DefersPlanned.failed _

section Fields

variable (hpolicy : execution.missingEntities = .nullify) (hplan : plan.Planned)

include hpolicy hplan

-- Each theorem of the block needs the assumptions of the others.
set_option linter.unusedSectionVars false in
mutual

/-- The value of a remote field has the right remote part; that of a local field defers only fields
of the plan. -/
theorem completeField_mirrors (fieldPlan : FieldPlan) (hplanned : plan.Has fieldPlan)
    (source : Source) :
    (execution.completeField fieldPlan source.object source.mode
        (knownType fieldPlan.field source.object source.typeHint) {}).Achieves
      (Memo.Mirrored execution.remoteEvaluator plan)
      (MirrorsField plan execution.remoteEvaluator source fieldPlan) := by
  cases fieldPlan with
  | leaf planned =>
    rw [completeField]
    split
    · next hlocal =>
      exact (completeLocal_defers hplanned DefersPlanned.value _ _).mono
        fun completed hdefers ↦ .of_local hlocal hdefers
    · next hremote =>
      have hmember : execution.remoteEvaluator.member source.object source.mode source.typeHint
            (.leaf planned)
          = execution.remoteEvaluator.remoteField Evaluator.leafValue planned source.object
              source.mode (knownType planned source.object source.typeHint) := by
        rw [Evaluator.member, Evaluator.field, if_neg hremote]
        rfl
      refine Run.Achieves.mono ?_ fun completed hmirrors ↦ .of_mirrors hmirrors
      rw [hmember]
      exact completeRemote_mirrors (fun value _ ↦ completeLeaf_mirrors value) _
  | nested planned id fields =>
    have hfields : ⟨id, fields⟩ ∈ plan.selection.selections := hplanned.mem_selections
    have hexpand : execution.ReflectsObjects plan (execution.completeObject fields) fields :=
      fun source ↦ completeFields_mirrors fields
        (fun _ hinner ↦ QueryPlan.has_of_mem hfields hinner) 0 source .empty .empty fun _ _ h ↦ h
    have hvalue := completeValue_mirrors hpolicy hplan hfields
      (completeObject_movesAlong fields) hexpand
    unfold completeField
    dsimp only
    split
    · next hlocal =>
      have hdefers (value : Json) : execution.DefersPlanned plan
          (execution.completeValue id (execution.completeObject fields) .payload none {} value) :=
        (hvalue .payload none value).mono fun _ hmirrors ↦ hmirrors.work.planned
      exact (completeLocal_defers hplanned hdefers _ _).mono
        fun completed hdefers ↦ .of_local hlocal hdefers
    · next hremote =>
      have hmember : execution.remoteEvaluator.member source.object source.mode source.typeHint
            (.nested planned id fields)
          = execution.remoteEvaluator.remoteField (execution.remoteEvaluator.value
              (execution.remoteEvaluator.fields fields 0) source.mode none) planned source.object
              source.mode (knownType planned source.object source.typeHint) := by
        rw [Evaluator.member, Evaluator.field]
        exact if_neg hremote
      refine Run.Achieves.mono ?_ fun completed hmirrors ↦ .of_mirrors hmirrors
      rw [hmember]
      refine completeRemote_mirrors (fun value hfound ↦ ?_) _
      have hbelow : execution.remoteEvaluator.below? source (.nested planned id fields)
          = some (.value fields source.mode none value) := by
        rw [Evaluator.below?, if_neg hremote, hfound, Option.map_some]
      rw [hbelow]
      exact hvalue source.mode none value

/-- An object that is completed for the fields that remain has the right remote part, if what was
completed for the fields before has. -/
theorem completeFields_mirrors (plans : List FieldPlan)
    (hplans : ∀ fieldPlan ∈ plans, plan.Has fieldPlan) (position : Nat) (source : Source)
    (assembler : Assembler World) {fields : List FieldPlan}
    (hbuilt : assembler.Built execution.variableValues (typename? source.object) fields
      (fun found completed =>
        MirrorsField plan execution.remoteEvaluator source found.2 completed) position plans)
    (hlater : ∀ key found,
      FieldPlan.prevailing? execution.variableValues (typename? source.object) key position plans
          = some found →
        FieldPlan.prevailing? execution.variableValues (typename? source.object) key 0 fields
          = some found) :
    (execution.completeFields plans position source.object source.mode source.typeHint {}
        assembler).Achieves (Memo.Mirrored execution.remoteEvaluator plan) fun completed =>
      Mirrors plan (execution.remoteEvaluator.hides (.object fields source))
        (.object completed.1, completed.2)
        (execution.remoteEvaluator.read (.object fields source)) := by
  cases plans with
  | nil =>
    rw [completeFields]
    exact .pure (Assembler.Built.mirrors hbuilt)
  | cons fieldPlan rest =>
    have hrest := fun inner hinner ↦ hplans inner (List.mem_cons_of_mem _ hinner)
    have hnext := fun key found hfound ↦
      hlater key found (FieldPlan.prevailing?_cons_of_some hfound)
    by_cases hselected : fieldPlan.field.isSelected execution.variableValues
        (typename? source.object) = true
    · have hfield := completeField_mirrors fieldPlan (hplans _ List.mem_cons_self) source
      rw [completeFields_cons_of_selected hselected]
      refine (hfield.under _).bind fun ⟨value, _⟩ hcompleted ↦ ?_
      obtain ⟨work, rfl, hmirrors⟩ := hcompleted
      exact completeFields_mirrors rest hrest (position + 1) source _
        (hbuilt.insert hlater hselected hmirrors) hnext
    · rw [completeFields_cons_of_not_selected hselected]
      exact completeFields_mirrors rest hrest (position + 1) source assembler
        (hbuilt.skip hselected) hnext

end

/-- An object that is completed for a selection set has the right remote part. -/
theorem completeObject_mirrors {id : Nat} {fields : List FieldPlan}
    (hfields : ⟨id, fields⟩ ∈ plan.selection.selections) :
    execution.ReflectsObjects plan (execution.completeObject fields) fields :=
  fun source ↦ completeFields_mirrors hpolicy hplan fields
    (fun _ hinner ↦ QueryPlan.has_of_mem hfields hinner) 0 source .empty .empty fun _ _ h ↦ h

/-- Completing the result of a resolver succeeds and defers only fields of the plan. -/
theorem completeResolved_defers {fieldPlan : FieldPlan} (hplanned : plan.Has fieldPlan)
    (value : Json) :
    execution.DefersPlanned plan (execution.completeResolved fieldPlan value {}) := by
  cases fieldPlan with
  | leaf planned => exact .value value
  | nested planned id fields =>
    have hfields : ⟨id, fields⟩ ∈ plan.selection.selections := hplanned.mem_selections
    exact (completeValue_mirrors hpolicy hplan hfields (completeObject_movesAlong fields)
      (completeObject_mirrors hpolicy hplan hfields) .payload none value).mono
      fun _ hmirrors ↦ hmirrors.work.planned

/-- Finishing a deferred field succeeds, and all that it leaves behind is in the value of the
field. -/
theorem settle_defers {deferred : Deferred World} (hplanned : plan.Has deferred.plan) :
    (execution.settle deferred).Achieves (Memo.Mirrored execution.remoteEvaluator plan)
      fun completed : Completed World Json => ∃ work : Work World,
        completed.2 = work.under deferred.trail ∧ ∀ d ∈ work.deferred, plan.Has d.plan := by
  have hact : (Run.act deferred.task.finish).Achieves
      (Memo.Mirrored execution.remoteEvaluator plan) fun _ => True := .act fun _ ↦ trivial
  have hdefers : execution.DefersPlanned plan
      (Run.act deferred.task.finish >>= execution.completeFinished deferred) := by
    refine hact.bind fun result _ ↦ ?_
    cases result with
    | ok value => exact completeResolved_defers hpolicy hplan hplanned value
    | error reason => exact DefersPlanned.failed _
  rw [settle_eq_under]
  exact hdefers.under _

end Fields

/-! ### Executions -/

/-- Whether a path into the response to a plan leads to the value of a local field, going through
remote fields only. -/
def rootHides (execution : Execution World) (plan : QueryPlan) (root : Root) (path : Path) : Bool :=
  (execution.remoteEvaluator.rootReading? plan root).any
    (execution.remoteEvaluator.hides · path)

/-- The whole response is not the value of a local field. -/
theorem rootHides_root (root : Root) : execution.rootHides plan root [] = false := by
  rw [rootHides]
  cases execution.remoteEvaluator.rootReading? plan root with
  | none => rfl
  | some reading => rfl

theorem rootHides_append_index (root : Root) (outer : Path) (position : Nat) :
    execution.rootHides plan root (outer ++ [.index position]) = false := by
  rw [rootHides]
  cases execution.remoteEvaluator.rootReading? plan root with
  | none => rfl
  | some reading => exact Evaluator.hides_append_index reading outer position

/-- The data and the faults so far have the right remote part, and only fields in hidden values wait
to be finished. -/
structure Mirroring (execution : Execution World) (plan : QueryPlan) (root : Root)
    (waiting : List (Deferred World)) (progress : Progress) (state : RunState World) : Prop where
  /-- The remote part is right. -/
  mirrors : Mirrors plan (execution.rootHides plan root)
    (progress.data, ({ faults := progress.faults, deferred := waiting } : Work World))
    (execution.remoteEvaluator.root plan root)
  /-- What is remembered about entities has the right remote part. -/
  sound : Memo.Mirrored execution.remoteEvaluator plan state.memo

namespace Mirroring

variable {root : Root} {waiting others : List (Deferred World)} {next : Deferred World}
  {progress : Progress} {state : RunState World}

theorem perm (h : execution.Mirroring plan root waiting progress state)
    (hperm : waiting.Perm others) : execution.Mirroring plan root others progress state where
  mirrors := ⟨h.mirrors.data, h.mirrors.work.faults,
    fun d hd ↦ h.mirrors.work.deferred d (hperm.mem_iff.2 hd),
    fun d hd ↦ h.mirrors.work.planned d (hperm.mem_iff.2 hd)⟩
  sound := h.sound

/-- Writing a value to a hidden slot changes nothing in the remote part. -/
theorem write (h : execution.Mirroring plan root (next :: others) progress state)
    {value : Json} {work : Work World} (hwork : ∀ d ∈ work.deferred, plan.Has d.plan)
    {state' : RunState World} (hsound : Memo.Mirrored execution.remoteEvaluator plan state'.memo) :
    execution.Mirroring plan root (others ++ (work.under next.trail).deferred)
      (progress.write next.trail value (work.under next.trail).faults) state' := by
  have hpasses : next.trail.path.passes (execution.rootHides plan root) = true :=
    h.mirrors.work.deferred next List.mem_cons_self
  -- Whatever the completion leaves behind is in the slot, and so it is hidden as well.
  refine ⟨⟨?data, ?faults, ?deferred, ?planned⟩, hsound⟩
  case data =>
    rw [Progress.write]
    cases hreplace : progress.data.replaceAt? next.trail.path value with
    | none => exact h.mirrors.data
    | some data =>
      exact (Json.prune_replaceAt? (rootHides_root root) (rootHides_append_index root) hpasses
        hreplace).trans h.mirrors.data
  case faults =>
    intro fault hfault
    have hother : fault ∉ (work.under next.trail).faults := by
      intro hmem
      obtain ⟨inner, _, rfl⟩ := List.mem_map.1 hmem
      have hinner := Path.passes_append hpasses inner.trail.path
      exact Bool.false_ne_true (hfault.symm.trans hinner)
    rw [← h.mirrors.work.faults fault hfault]
    exact List.mem_append.trans (or_iff_left hother)
  case deferred =>
    intro d hd
    rcases List.mem_append.1 hd with hd | hd
    · exact h.mirrors.work.deferred d (List.mem_cons_of_mem _ hd)
    · obtain ⟨inner, _, rfl⟩ := List.mem_map.1 hd
      exact Path.passes_append hpasses inner.trail.path
  case planned =>
    intro d hd
    rcases List.mem_append.1 hd with hd | hd
    · exact h.mirrors.work.planned d (List.mem_cons_of_mem _ hd)
    · obtain ⟨inner, hinner, rfl⟩ := List.mem_map.1 hd
      exact hwork inner hinner

/-- Finishing one of the waiting fields changes nothing in the remote part. -/
theorem settle (hpolicy : execution.missingEntities = .nullify) (hplan : plan.Planned)
    (h : execution.Mirroring plan root (next :: others) progress state) :
    ∃ value work state', execution.settle next state = (.ok (value, work), state') ∧
      execution.Mirroring plan root (others ++ work.deferred)
        (progress.write next.trail value work.faults) state' := by
  have hplanned : plan.Has next.plan := h.mirrors.work.planned next List.mem_cons_self
  obtain ⟨⟨value, _⟩, state', hsettle, hsound, work, rfl, hwork⟩ :=
    settle_defers hpolicy hplan hplanned state h.sound
  exact ⟨value, _, state', hsettle, h.write hwork hsound⟩

end Mirroring

end Execution

/-- The remote part of a response, given the paths to the values of local fields: the data without
these values, and the errors outside them. -/
def Response.remotePart (hidden : Path → Bool) (response : Response) :
    Option Json × List GraphQLError :=
  (response.data.map (Json.prune hidden), response.errors.filter (·.isOutside hidden))

namespace Executor

variable {executor : Executor World}

/-- Whether a path into the response leads to the value of a local field, going through remote
fields only: at each object on the way, the last field that has the key of the path and counts at
the object is remote, and at the last one it is local. The resolvers are of no importance. -/
def hides (executor : Executor World) (root : Root) : Path → Bool :=
  executor.execution.rootHides executor.plan root

/-- The same execution with other resolvers, which may act on another world. -/
def serve {World' : Type} (executor : Executor World) (registry : Registry World') :
    Executor World' where
  plan := executor.plan
  registry := registry
  store := executor.store
  variableValues := executor.variableValues
  missingEntities := executor.missingEntities

/-- The first pass over a plan succeeds with the right remote part. -/
theorem start_mirrors (hplan : executor.plan.Planned)
    (hpolicy : executor.missingEntities = .nullify) (root : Root) :
    (executor.start root).Achieves (Memo.Mirrored executor.execution.remoteEvaluator executor.plan)
      fun completed => Mirrors executor.plan (executor.hides root) completed
        (executor.execution.remoteEvaluator.root executor.plan root) := by
  have hselection := executor.plan.selection.self_mem_selections
  have hexpand : executor.execution.ReflectsObjects executor.plan
      (executor.execution.completeObject executor.plan.selection.fields)
      executor.plan.selection.fields :=
    Execution.completeObject_mirrors hpolicy hplan hselection
  have hreflects {run : Run World (Completed World Json)} {reading : Reading}
      (hreading : executor.execution.remoteEvaluator.rootReading? executor.plan root
        = some reading) (h : executor.execution.Reflects executor.plan run reading) :
      run.Achieves (Memo.Mirrored executor.execution.remoteEvaluator executor.plan)
        fun completed => Mirrors executor.plan (executor.hides root) completed
          (executor.execution.remoteEvaluator.root executor.plan root) := by
    have hhides : executor.hides root = executor.execution.remoteEvaluator.hides reading := by
      funext path
      rw [hides, Execution.rootHides, hreading, Option.any_some]
    rw [hhides, Evaluator.root_of_rootReading? hreading]
    exact h
  unfold start
  cases root with
  | entity key =>
    have hstore : executor.execution.remoteEvaluator.store = executor.store := rfl
    dsimp only
    cases hrecord : Dict.get? executor.store key with
    | some record =>
      have hreading : executor.execution.remoteEvaluator.rootReading? executor.plan (.entity key)
          = some (.object executor.plan.selection.fields
              ⟨record, .record, some executor.plan.rootType⟩) := by
        rw [Evaluator.rootReading?, hstore, hrecord]
      exact hreflects hreading (hexpand.object ⟨record, .record, some executor.plan.rootType⟩)
    | none =>
      dsimp only
      split
      · next hkey =>
        have hreading : executor.execution.remoteEvaluator.rootReading? executor.plan (.entity key)
            = some (.object executor.plan.selection.fields
                ⟨[], .record, some executor.plan.rootType⟩) := by
          rw [Evaluator.rootReading?, hstore, hrecord]
          exact if_pos hkey
        exact hreflects hreading (hexpand.object ⟨[], .record, some executor.plan.rootType⟩)
      · next hkey =>
        have hreading : executor.execution.remoteEvaluator.rootReading? executor.plan (.entity key)
            = none := by
          rw [Evaluator.rootReading?, hstore, hrecord]
          exact if_neg hkey
        obtain ⟨_, hmissing, hroot⟩ := Evaluator.root_of_rootReading?_eq_none hreading
        cases hmissing
        rw [hroot]
        exact Execution.missingEntity_mirrors hpolicy key
  | value payload =>
    exact hreflects rfl (Execution.completeValue_mirrors hpolicy hplan hselection
      (Execution.completeObject_movesAlong _) hexpand .payload (some executor.plan.rootType)
      payload)

/-- In whatever order deferred fields finish, the remote part of the response is that of direct
evaluation without any resolvers. -/
theorem remotePart_executeIn (hplan : executor.plan.Planned)
    (hpolicy : executor.missingEntities = .nullify)
    (hvalid : executor.registry.validate executor.plan = .ok ()) (order : FinishingOrder)
    (root : Root) (world : World) :
    (executor.executeIn order root world).1.map (Response.remotePart (executor.hides root))
      = .ok ((executor.execution.remoteEvaluator.response executor.plan root).remotePart
          (executor.hides root)) := by
  obtain ⟨⟨data, work⟩, state, hstart, hsound, hmirrors⟩ :=
    start_mirrors hplan hpolicy root { world } .nil
  have hmirroring : executor.execution.Mirroring executor.plan root work.deferred
      ⟨data, work.faults⟩ state :=
    ⟨⟨hmirrors.data, ⟨hmirrors.work.faults, hmirrors.work.deferred, hmirrors.work.planned⟩⟩, hsound⟩
  have hrun : ∃ finished state', executor.execution.driveIn order ⟨work.deferred⟩
      ⟨data, work.faults⟩ state = (.ok finished, state') ∧
        executor.execution.Mirroring executor.plan root [] finished state' :=
    Execution.driveIn_of_step (fun _ _ _ _ hperm h ↦ h.perm hperm)
      (fun _ _ _ _ h ↦ h.settle hpolicy hplan) order _ _ _ hmirroring
  obtain ⟨finished, state', hdrive, hfinal⟩ := hrun
  have hdata : finished.data.prune (executor.hides root)
      = (executor.execution.remoteEvaluator.root executor.plan root).1.prune
          (executor.hides root) := hfinal.mirrors.data
  -- No two faults have the same position, so those outside hidden values come in one order only.
  obtain ⟨last, hlast, hempty, rfl⟩ :=
    LoopHead.Reached.exists_last_of_driveIn (.start hvalid hstart) order hdrive
  have hfaults := Fault.filter_isOutside_eq hlast.accounted.fits.inOrder_sorted
    (Evaluator.root_sorted executor.execution.remoteEvaluator executor.plan root)
    fun fault hpasses ↦ ((Fault.inOrder_perm _).mem_iff).trans
      (hfinal.mirrors.work.faults fault hpasses)
  simp only [executeIn, hvalid, hstart, hdrive]
  refine congrArg Except.ok (Prod.ext ?_ hfaults)
  exact congrArg some hdata

/-- An execution that resumes the tasks of deferred fields in turn gives the same remote part. -/
theorem remotePart_execute (hplan : executor.plan.Planned)
    (hpolicy : executor.missingEntities = .nullify)
    (hvalid : executor.registry.validate executor.plan = .ok ()) (root : Root) (world : World) :
    (executor.execute root world).1.map (Response.remotePart (executor.hides root))
      = .ok ((executor.execution.remoteEvaluator.response executor.plan root).remotePart
          (executor.hides root)) := by
  obtain ⟨order, horder⟩ := executor.exists_order root world
  rw [← horder]
  exact remotePart_executeIn hplan hpolicy hvalid order root world

/-- Local fields cannot influence remote data. Whatever the resolvers are, whatever world they act
on and in whatever order deferred fields finish: without the values of local fields and the errors
in them, all responses are the same. -/
theorem local_fields_cannot_influence_remote_data {World' : Type}
    (hplan : executor.plan.Planned) (hpolicy : executor.missingEntities = .nullify)
    (hvalid : executor.registry.validate executor.plan = .ok ()) {registry : Registry World'}
    (hvalid' : registry.validate executor.plan = .ok ()) (root : Root) :
    ∃ part,
      (∀ order world,
        (executor.executeIn order root world).1.map (Response.remotePart (executor.hides root))
            = .ok part ∧
          (executor.execute root world).1.map (Response.remotePart (executor.hides root))
            = .ok part) ∧
      ∀ order world,
        ((executor.serve registry).executeIn order root world).1.map
            (Response.remotePart (executor.hides root)) = .ok part ∧
          ((executor.serve registry).execute root world).1.map
            (Response.remotePart (executor.hides root)) = .ok part := by
  have hplan' : (executor.serve registry).plan.Planned := hplan
  have hpolicy' : (executor.serve registry).missingEntities = .nullify := hpolicy
  have hserved : (executor.serve registry).registry.validate (executor.serve registry).plan
      = .ok () := hvalid'
  exact ⟨_,
    fun order world ↦ ⟨remotePart_executeIn hplan hpolicy hvalid order root world,
      remotePart_execute hplan hpolicy hvalid root world⟩,
    fun order world ↦ ⟨remotePart_executeIn hplan' hpolicy' hserved order root world,
      remotePart_execute hplan' hpolicy' hserved root world⟩⟩

section Sample

/-- A resolver that gives up at once, in a world of its own. -/
def silentRegistry : Registry Unit :=
  [⟨"Query", "greeting", fun _ _ _ => pure (.ready (.error "silence"))⟩]

/-- The greeting is left out; the people remain, in whatever way the greeting fails. -/
theorem peopleExecutor_local_fields_cannot_influence_remote_data :
    ∃ part, part = (some (.object
        [("people", .array (List.replicate 3 (.object [("name", .string "Ada")])))]), []) ∧
      (∀ order world,
        (peopleExecutor.executeIn order .query world).1.map
            (Response.remotePart (peopleExecutor.hides .query)) = .ok part ∧
          (peopleExecutor.execute .query world).1.map
            (Response.remotePart (peopleExecutor.hides .query)) = .ok part) ∧
      ∀ order world,
        ((peopleExecutor.serve silentRegistry).executeIn order .query world).1.map
            (Response.remotePart (peopleExecutor.hides .query)) = .ok part ∧
          ((peopleExecutor.serve silentRegistry).execute .query world).1.map
            (Response.remotePart (peopleExecutor.hides .query)) = .ok part := by
  have hvalid : peopleExecutor.registry.validate peopleExecutor.plan = .ok () := rfl
  have hvalid' : silentRegistry.validate peopleExecutor.plan = .ok () := rfl
  obtain ⟨part, hown, hother⟩ :=
    local_fields_cannot_influence_remote_data peoplePlan_planned rfl hvalid hvalid' .query
  have hpart := remotePart_execute peoplePlan_planned rfl hvalid .query 0
  refine ⟨part, ?_, hown, hother⟩
  exact (Except.ok.inj ((hown (fun _ ↦ 0) 0).2.symm.trans hpart)).trans rfl

end Sample

end Executor

end GraphCache
