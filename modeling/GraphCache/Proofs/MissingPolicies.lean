import GraphCache.Proofs.FinishingOrder
import GraphCache.Proofs.Prospects
import GraphCache.Proofs.ServedRecords

/-!
# The two policies for missing entities

What an execution does when a reference leads to no record is up to a policy: the field becomes
`null` and a fault is recorded, or the execution ends. Until the first such reference both policies
do the same. So an execution ends if, and only if, a missing entity is recorded under the other
policy, be it for a field of the response or for one that is replaced later on.

## Main definitions

* `Execution.under`, `Executor.under`: the execution under a policy.
* `Work.recorded`, `Execution.recordedIn`, `Executor.recordedIn`: all faults that are recorded,
  those of replaced fields included.
* `Run.Follows`: a computation that fails as soon as the other one records a missing entity.

## Main results

* `Execution.completeFields_follows`: completing an object under both policies.
* `Execution.driveIn_follows`: so is finishing all deferred fields.
-/

namespace GraphCache

variable {World α β : Type}

/-! ### Recorded faults -/

/-- One of the faults is that an entity is missing. -/
def MissesEntity (faults : List Fault) : Prop :=
  ∃ fault ∈ faults, ∃ key, fault.error = .missingEntity key

theorem missesEntity_append {a b : List Fault} :
    MissesEntity (a ++ b) ↔ MissesEntity a ∨ MissesEntity b := by
  simp only [MissesEntity, List.mem_append, or_and_right, exists_or]

theorem not_missesEntity_nil : ¬ MissesEntity [] :=
  nofun

namespace Work

/-- All faults, those of replaced fields included. -/
def recorded (work : Work World) : List Fault :=
  work.faults ++ work.droppedFaults

/-- A missing entity is recorded. -/
def MissesEntity (work : Work World) : Prop :=
  GraphCache.MissesEntity work.recorded

theorem not_missesEntity_none : ¬ (Work.none : Work World).MissesEntity :=
  not_missesEntity_nil

theorem missesEntity_append {a b : Work World} :
    (a ++ b).MissesEntity ↔ a.MissesEntity ∨ b.MissesEntity := by
  have hrecorded : (a ++ b).recorded
      = (a.faults ++ b.faults) ++ (a.droppedFaults ++ b.droppedFaults) := rfl
  rw [MissesEntity, MissesEntity, MissesEntity, hrecorded, recorded, recorded]
  simp only [GraphCache.missesEntity_append]
  exact or_or_or_comm

theorem missesEntity_giveUp {work : Work World} :
    work.giveUp.MissesEntity ↔ work.MissesEntity := by
  simp only [MissesEntity, recorded, giveUp, GraphCache.missesEntity_append,
    not_missesEntity_nil, false_or]
  exact Or.comm

theorem missesEntity_foldl {works : List (Work World)} {start : Work World} :
    (works.foldl (· ++ ·) start).MissesEntity ↔
      start.MissesEntity ∨ ∃ work ∈ works, work.MissesEntity := by
  induction works generalizing start with
  | nil => simp
  | cons work works ih => simp [ih, missesEntity_append, or_assoc]

theorem not_missesEntity_of_isClean {work : Work World} (h : work.isClean = true) :
    ¬ work.MissesEntity := by
  rw [(isClean_iff work).1 h]
  exact not_missesEntity_none

end Work

namespace Assembler

variable {assembler : Assembler World}

theorem missesEntity_work :
    assembler.work.MissesEntity ↔ (∃ entry ∈ assembler.pending, entry.2.MissesEntity) ∨
      ∃ work ∈ assembler.replaced, work.MissesEntity := by
  rw [work, Work.missesEntity_append, Work.missesEntity_foldl, Work.missesEntity_foldl]
  simp only [Work.not_missesEntity_none, false_or, List.mem_map, exists_exists_and_eq_and,
    Work.missesEntity_giveUp]

/-- A field that is set adds what is recorded for it. What was recorded for the field that it
replaces is dropped, but not lost. -/
theorem missesEntity_insert (hkeys : (assembler.pending.map Prod.fst).Nodup) (key : String)
    (value : Json) (work : Work World) :
    (assembler.insert key value work).1.work.MissesEntity ↔
      assembler.work.MissesEntity ∨ work.MissesEntity := by
  have hpending : (∃ entry ∈ (assembler.insert key value work).1.pending, entry.2.MissesEntity) ↔
      (∃ entry ∈ assembler.pending.filter (·.1 != key), entry.2.MissesEntity) ∨
        work.MissesEntity := by
    simp only [insert]
    split
    · next hclean => simp [Work.not_missesEntity_of_isClean hclean]
    · simp [or_and_right, exists_or]
  have hbefore : (∃ entry ∈ assembler.pending, entry.2.MissesEntity) ↔
      (∃ entry ∈ assembler.pending.filter (·.1 != key), entry.2.MissesEntity) ∨
        ∃ old ∈ (assembler.workOf? key).toList, old.MissesEntity := by
    have hmem : ∀ entry, entry ∈ assembler.pending ↔
        entry ∈ assembler.pending.filter (·.1 != key) ++
          (assembler.workOf? key).toList.map (key, ·) :=
      fun entry ↦ (Dict.perm_filter_ne hkeys key).mem_iff
    simp only [hmem, List.mem_append, or_and_right, exists_or, List.mem_map]
    simp
  have hreplaced : (assembler.insert key value work).1.replaced
      = assembler.replaced ++ (assembler.workOf? key).toList := rfl
  rw [missesEntity_work, missesEntity_work, hpending, hbefore, hreplaced]
  simp only [List.mem_append, or_and_right, exists_or]
  grind

end Assembler

/-! ### Computations under both policies -/

namespace Run

/-- The second computation always succeeds. The first one does the same, unless the second one
records a missing entity: then it fails because of a missing entity. -/
def Follows (strict lenient : Run World (Completed World α)) : Prop :=
  ∀ s, ∃ completed s', lenient s = (.ok completed, s') ∧
    ((completed.2.MissesEntity ∧ ∃ key path s'',
        strict s = (.error (.missingEntity key path), s'')) ∨
      (¬ completed.2.MissesEntity ∧ strict s = (.ok completed, s')))

/-- The computation succeeds and records a missing entity. -/
def Misses (run : Run World (Completed World α)) : Prop :=
  run.Achieves (fun _ => True) fun completed => completed.2.MissesEntity

namespace Follows

variable {strict lenient : Run World (Completed World α)}

theorem succeeds (h : Follows strict lenient) :
    lenient.Achieves (fun _ => True) fun _ => True := by
  intro s _
  obtain ⟨completed, s', hlenient, -⟩ := h s
  exact ⟨completed, s', hlenient, trivial, trivial⟩

/-- A computation that records no missing entity follows itself. -/
theorem pure {completed : Completed World α} (h : ¬ completed.2.MissesEntity) :
    Follows (Pure.pure completed) (Pure.pure completed) :=
  fun s ↦ ⟨completed, s, rfl, .inr ⟨h, rfl⟩⟩

/-- Computations that go on may assume that no entity was missing so far. If one was, the second
computation goes on nevertheless, and it must not forget this. -/
theorem bind (h : Follows strict lenient) {f g : Completed World α → Run World (Completed World β)}
    (hnext : ∀ completed, ¬ completed.2.MissesEntity → Follows (f completed) (g completed))
    (hmissed : ∀ completed, completed.2.MissesEntity → (g completed).Misses) :
    Follows (strict >>= f) (lenient >>= g) := by
  intro s
  obtain ⟨completed, s', hlenient, ⟨hmisses, key, path, s'', hstrict⟩ | ⟨hfinds, hstrict⟩⟩ := h s
  · obtain ⟨last, t, hlast, -, hlastMisses⟩ := hmissed completed hmisses s' trivial
    rw [bind_ok hlenient, bind_error hstrict]
    exact ⟨last, t, hlast, .inl ⟨hlastMisses, key, path, s'', rfl⟩⟩
  · rw [bind_ok hlenient, bind_ok hstrict]
    exact hnext completed hfinds s'

/-- What is made of a completed value keeps the work. -/
theorem map (h : Follows strict lenient) (f : α → β) :
    Follows (strict >>= fun completed => Pure.pure (f completed.1, completed.2))
      (lenient >>= fun completed => Pure.pure (f completed.1, completed.2)) :=
  h.bind (fun _ hfinds ↦ .pure hfinds) fun _ hmisses ↦ .pure hmisses

/-- Resolvers act in the same way on the same world. -/
theorem act {γ : Type} (action : StateM World γ) {f g : γ → Run World (Completed World α)}
    (hnext : ∀ answer, Follows (f answer) (g answer)) :
    Follows (Run.act action >>= f) (Run.act action >>= g) := by
  intro s
  rw [bind_ok (act_apply action s), bind_ok (act_apply action s)]
  exact hnext _ _

end Follows

end Run

namespace Execution

/-- The execution under a policy for missing entities. -/
def under (execution : Execution World) (policy : MissingEntityPolicy) : Execution World :=
  { execution with missingEntities := policy }

variable {execution : Execution World}

theorem failed_follows (trail : Trail) {error : FieldError}
    (h : ∀ key, error ≠ .missingEntity key) :
    Run.Follows (failed trail error : Run World (Completed World Json)) (failed trail error) := by
  refine .pure ?_
  rintro ⟨fault, hfault, key, hkey⟩
  rw [List.mem_singleton.1 hfault] at hkey
  exact h key hkey

variable (execution) in
/-- A missing entity is recorded under one policy and ends the execution under the other. -/
theorem missingEntity_follows (key : String) (trail : Trail) :
    Run.Follows ((execution.under .abort).missingEntity key trail)
      ((execution.under .nullify).missingEntity key trail) := fun s ↦
  ⟨_, s, rfl, .inl ⟨⟨⟨trail, .missingEntity key⟩, List.mem_singleton_self _, key, rfl⟩, key,
    trail.path, s, rfl⟩⟩

/-- An entity is followed if expanding its record is. Both policies know the same entities. -/
theorem completeEntity_follows (id : Nat) {expand expand' : Expand World} (key : String)
    {record : Object} {trail : Trail}
    (h : Run.Follows (expand record .record none trail) (expand' record .record none trail)) :
    Run.Follows (completeEntity id expand key record trail)
      (completeEntity id expand' key record trail) := by
  intro s
  cases hknown : s.reusable? (key, id) with
  | some object =>
    exact ⟨_, s, completeEntity_of_known hknown expand' record trail,
      .inr ⟨Work.not_missesEntity_none, completeEntity_of_known hknown expand record trail⟩⟩
  | none =>
    have hlenient := completeEntity_of_unknown hknown expand' record trail
    have hstrict := completeEntity_of_unknown hknown expand record trail
    obtain ⟨⟨object, work⟩, s', hexpand', ⟨hmisses, missing, path, s'', hexpand⟩ |
      ⟨hfinds, hexpand⟩⟩ := h s
    · rw [hexpand'] at hlenient
      rw [hexpand] at hstrict
      exact ⟨_, _, hlenient, .inl ⟨hmisses, missing, path, s'', hstrict⟩⟩
    · rw [hexpand'] at hlenient
      rw [hexpand] at hstrict
      exact ⟨_, _, hlenient, .inr ⟨hfinds, hstrict⟩⟩

section Values

variable (execution) (id : Nat) {expand expand' : Expand World}
  (hexpand : ∀ object mode typeHint trail,
    Run.Follows (expand object mode typeHint trail) (expand' object mode typeHint trail))

include hexpand

-- Each theorem of the block needs the assumptions of the others.
set_option linter.unusedSectionVars false in
mutual

theorem completeValue_follows (mode : ReadMode) (typeHint : Option String) (trail : Trail)
    (value : Json) :
    Run.Follows ((execution.under .abort).completeValue id expand mode typeHint trail value)
      ((execution.under .nullify).completeValue id expand' mode typeHint trail value) := by
  cases value with
  | null => exact .pure Work.not_missesEntity_none
  | bool _ | number _ | string _ => exact failed_follows trail nofun
  | array items =>
    rw [completeValue]
    exact (completeItems_follows mode typeHint trail 0 items).map Json.array
  | object object =>
    have hstore : (execution.under .abort).store = (execution.under .nullify).store := rfl
    unfold completeValue
    rw [hstore]
    cases (execution.under .nullify).store.resolve (.object object) with
    | notReference => exact (hexpand object mode typeHint trail).map Json.object
    | entity key record => exact completeEntity_follows id key (hexpand record .record none trail)
    | missing key => exact missingEntity_follows execution key trail

theorem completeItems_follows (mode : ReadMode) (typeHint : Option String) (trail : Trail)
    (position : Nat) (items : List Json) :
    Run.Follows
      ((execution.under .abort).completeItems id expand mode typeHint trail position items)
      ((execution.under .nullify).completeItems id expand' mode typeHint trail position items) := by
  cases items with
  | nil => exact .pure Work.not_missesEntity_none
  | cons item rest =>
    have hrest := completeItems_follows mode typeHint trail (position + 1) rest
    rw [completeItems]
    refine (completeValue_follows mode typeHint (trail.index position) item).bind
      (fun first hfinds ↦ ?_) fun first hmisses ↦ ?_
    · refine hrest.bind (fun others hothers ↦ .pure ?_) fun others hothers ↦ .pure ?_
      · exact fun hmisses ↦ (Work.missesEntity_append.1 hmisses).elim hfinds hothers
      · exact Work.missesEntity_append.2 (.inr hothers)
    · exact hrest.succeeds.bind fun others _ ↦ .pure (Work.missesEntity_append.2 (.inl hmisses))

end

end Values

theorem completeLeaf_follows (value : Json) (trail : Trail) :
    Run.Follows (completeLeaf value trail : Run World (Completed World Json))
      (completeLeaf value trail) := by
  rw [completeLeaf]
  split
  · exact failed_follows trail (by simp)
  · exact .pure Work.not_missesEntity_none

theorem completeRemote_follows
    {complete complete' : Json → Trail → Run World (Completed World Json)}
    (h : ∀ value trail, Run.Follows (complete value trail) (complete' value trail))
    (field : PlannedField) (object : Object) (mode : ReadMode) (known : Option String)
    (trail : Trail) :
    Run.Follows ((execution.under .abort).completeRemote complete field object mode known trail)
      ((execution.under .nullify).completeRemote complete' field object mode known trail) := by
  have hfound : (execution.under .abort).remoteValue? field object mode
      = (execution.under .nullify).remoteValue? field object mode := rfl
  unfold completeRemote
  rw [hfound]
  cases (execution.under .nullify).remoteValue? field object mode with
  | some value => exact h value trail
  | none =>
    dsimp only
    split
    · exact .pure Work.not_missesEntity_none
    · exact failed_follows trail (by simp)

theorem completeLocal_follows {complete complete' : Json → Trail → Run World (Completed World Json)}
    (h : ∀ value trail, Run.Follows (complete value trail) (complete' value trail))
    (plan : FieldPlan) (object : Object) (known : Option String) (trail : Trail) :
    Run.Follows ((execution.under .abort).completeLocal complete plan object known trail)
      ((execution.under .nullify).completeLocal complete' plan object known trail) := by
  cases hlookup : execution.registry.lookup (known.getD execution.rootType) plan.field.name with
  | none =>
    rw [completeLocal_of_lookup_none (execution.under .abort) hlookup,
      completeLocal_of_lookup_none (execution.under .nullify) hlookup]
    exact failed_follows trail nofun
  | some resolver =>
    rw [completeLocal_of_lookup (execution.under .abort) hlookup,
      completeLocal_of_lookup (execution.under .nullify) hlookup]
    refine Run.Follows.act _ fun answer ↦ ?_
    match answer with
    | .ready (.ok value) => exact h value trail
    | .ready (.error reason) => exact failed_follows trail nofun
    | .pending task =>
      intro s
      exact ⟨_, _, defer_apply plan _ task trail s,
        .inr ⟨not_missesEntity_nil, defer_apply plan _ task trail s⟩⟩

mutual

theorem completeField_follows (plan : FieldPlan) (object : Object) (mode : ReadMode)
    (known : Option String) (trail : Trail) :
    Run.Follows ((execution.under .abort).completeField plan object mode known trail)
      ((execution.under .nullify).completeField plan object mode known trail) := by
  cases plan with
  | leaf field =>
    unfold completeField
    split
    · exact completeLocal_follows (fun _ _ ↦ .pure Work.not_missesEntity_none) _ object known trail
    · exact completeRemote_follows completeLeaf_follows field object mode known trail
  | nested field id fields =>
    have hexpand : ∀ object mode typeHint trail, Run.Follows
        ((execution.under .abort).completeFields fields 0 object mode typeHint trail .empty)
        ((execution.under .nullify).completeFields fields 0 object mode typeHint trail .empty) :=
      fun object mode typeHint trail ↦ (completeFields_follows fields 0 object mode typeHint trail
        .empty .nil).1 Work.not_missesEntity_none
    unfold completeField
    dsimp only
    split
    · exact completeLocal_follows (fun value trail ↦
        completeValue_follows execution id hexpand .payload none trail value) _ object known trail
    · exact completeRemote_follows (fun value trail ↦
        completeValue_follows execution id hexpand mode none trail value) field object mode known
          trail

/-- An object is followed as long as no entity was missing for the fields that have been assembled
already. If one was, this is not forgotten. -/
theorem completeFields_follows (plans : List FieldPlan) (position : Nat) (object : Object)
    (mode : ReadMode) (typeHint : Option String) (trail : Trail) (assembler : Assembler World)
    (hkeys : (assembler.pending.map Prod.fst).Nodup) :
    (¬ assembler.work.MissesEntity → Run.Follows
        ((execution.under .abort).completeFields plans position object mode typeHint trail
          assembler)
        ((execution.under .nullify).completeFields plans position object mode typeHint trail
          assembler)) ∧
      (assembler.work.MissesEntity →
        ((execution.under .nullify).completeFields plans position object mode typeHint trail
          assembler).Misses) := by
  cases plans with
  | nil =>
    rw [completeFields]
    exact ⟨fun hfinds ↦ .pure hfinds, fun hmisses ↦ .pure hmisses⟩
  | cons plan rest =>
    have hfield := completeField_follows plan object mode (knownType plan.field object typeHint)
      (trail.field position plan.field.responseKey)
    have hrest : ∀ completed : Completed World Json, _ :=
      fun completed ↦ completeFields_follows rest (position + 1) object mode typeHint trail
        (assembler.insert plan.field.responseKey completed.1 completed.2).1
        (Assembler.nodup_pending_insert hkeys)
    have hinsert : ∀ completed : Completed World Json,
        (assembler.insert plan.field.responseKey completed.1 completed.2).1.work.MissesEntity ↔
          assembler.work.MissesEntity ∨ completed.2.MissesEntity :=
      fun completed ↦ Assembler.missesEntity_insert hkeys _ completed.1 completed.2
    have hvalues : (execution.under .abort).variableValues
        = (execution.under .nullify).variableValues := rfl
    unfold completeFields
    rw [hvalues]
    split
    · refine ⟨fun hfinds ↦ hfield.bind (fun completed hcompleted ↦ ?_)
        fun completed hmisses ↦ ?_, fun hmisses ↦ hfield.succeeds.bind fun completed _ ↦ ?_⟩
      · exact (hrest completed).1 fun hmisses ↦ ((hinsert completed).1 hmisses).elim hfinds
          hcompleted
      · exact (hrest completed).2 ((hinsert completed).2 (.inr hmisses))
      · exact (hrest completed).2 ((hinsert completed).2 (.inl hmisses))
    · exact completeFields_follows rest (position + 1) object mode typeHint trail assembler hkeys

end

variable (execution) in
/-- An object is followed. -/
theorem completeObject_follows (fields : List FieldPlan) (object : Object) (mode : ReadMode)
    (typeHint : Option String) (trail : Trail) :
    Run.Follows ((execution.under .abort).completeObject fields object mode typeHint trail)
      ((execution.under .nullify).completeObject fields object mode typeHint trail) :=
  (completeFields_follows fields 0 object mode typeHint trail .empty .nil).1
    Work.not_missesEntity_none

variable (execution) in
/-- So is what becomes of a deferred field. -/
theorem settle_follows (deferred : Deferred World) :
    Run.Follows ((execution.under .abort).settle deferred)
      ((execution.under .nullify).settle deferred) := by
  refine Run.Follows.act _ fun result ↦ ?_
  cases result with
  | error reason => exact failed_follows deferred.trail nofun
  | ok value =>
    cases deferred.plan with
    | leaf field => exact .pure Work.not_missesEntity_none
    | nested field id fields =>
      exact completeValue_follows execution id (completeObject_follows execution fields) .payload
        none deferred.trail value

variable (execution) in
/-- All faults that are recorded while the waiting fields finish in an order. -/
def recordedIn (order : FinishingOrder) (queue : Queue World) (state : RunState World) :
    List Fault :=
  match _hqueue : queue.waiting with
  | [] => []
  | first :: rest =>
    have hindex : order 0 % (first :: rest).length < (first :: rest).length :=
      Nat.mod_lt _ (by simp)
    match _hsettle : execution.settle (first :: rest)[order 0 % (first :: rest).length] state with
    | (.error _, _) => []
    | (.ok (_, work), state) =>
      work.recorded ++ recordedIn order.tail
        ⟨(first :: rest).eraseIdx (order 0 % (first :: rest).length) ++ work.deferred⟩ state
termination_by queue
decreasing_by
  exact ⟨_, (first :: rest).eraseIdx (order 0 % (first :: rest).length), work.deferred,
    execution.settle_rank_lt _ _ _ _ _hsettle,
    by rw [_hqueue]; exact (List.getElem_cons_eraseIdx_perm hindex).symm, .refl _⟩

theorem recordedIn_nil (order : FinishingOrder) (state : RunState World) :
    execution.recordedIn order ⟨[]⟩ state = [] := by
  rw [recordedIn]

theorem recordedIn_cons (order : FinishingOrder) {waiting : List (Deferred World)} {index : Nat}
    (hindex : index < waiting.length) (horder : order 0 % waiting.length = index)
    (state : RunState World) :
    execution.recordedIn order ⟨waiting⟩ state =
      match execution.settle waiting[index] state with
      | (.error _, _) => []
      | (.ok (_, work), state) => work.recorded ++
        execution.recordedIn order.tail ⟨waiting.eraseIdx index ++ work.deferred⟩ state := by
  subst horder
  cases waiting with
  | nil => simp at hindex
  | cons first rest =>
    rw [recordedIn]
    dsimp only
    split
    · next hsettle => rw [hsettle]
    · next hsettle => rw [hsettle]

variable (execution) in
/-- Finishing deferred fields under both policies. -/
theorem driveIn_follows (order : FinishingOrder) (waiting : List (Deferred World))
    (progress : Progress) (s : RunState World) :
    ∃ final s', (execution.under .nullify).driveIn order ⟨waiting⟩ progress s = (.ok final, s') ∧
      (∀ fault ∈ final.faults, fault ∈ progress.faults ∨
        fault ∈ (execution.under .nullify).recordedIn order ⟨waiting⟩ s) ∧
      ((MissesEntity ((execution.under .nullify).recordedIn order ⟨waiting⟩ s) ∧
          ∃ key path s'', (execution.under .abort).driveIn order ⟨waiting⟩ progress s
            = (.error (.missingEntity key path), s'')) ∨
        (¬ MissesEntity ((execution.under .nullify).recordedIn order ⟨waiting⟩ s) ∧
          (execution.under .abort).driveIn order ⟨waiting⟩ progress s = (.ok final, s'))) := by
  by_cases hempty : waiting = []
  · subst hempty
    rw [driveIn_nil, driveIn_nil, recordedIn_nil]
    exact ⟨progress, s, rfl, fun _ hfault ↦ .inl hfault, .inr ⟨not_missesEntity_nil, rfl⟩⟩
  · have hindex : order 0 % waiting.length < waiting.length :=
      Nat.mod_lt _ (List.length_pos_iff.2 hempty)
    rw [driveIn_cons order hindex rfl, driveIn_cons order hindex rfl,
      recordedIn_cons order hindex rfl]
    obtain ⟨⟨value, work⟩, s', hsettle, hends⟩ := settle_follows execution
      waiting[order 0 % waiting.length] s
    obtain ⟨final, t, hdrive, hfaults, hlater⟩ := driveIn_follows order.tail
      (waiting.eraseIdx (order 0 % waiting.length) ++ work.deferred)
      (progress.write waiting[order 0 % waiting.length].trail value work.faults) s'
    rw [hsettle]
    refine ⟨final, t, hdrive, fun fault hfault ↦ ?_, ?_⟩
    · rcases hfaults fault hfault with hfault | hfault
      · rcases List.mem_append.1 hfault with hfault | hfault
        · exact .inl hfault
        · exact .inr (List.mem_append_left _ (List.mem_append_left _ hfault))
      · exact .inr (List.mem_append_right _ hfault)
    · rcases hends with ⟨hmisses, key, path, s'', habort⟩ | ⟨hfinds, habort⟩
      · rw [habort]
        exact .inl ⟨missesEntity_append.2 (.inl hmisses), key, path, s'', rfl⟩
      · rw [habort]
        rcases hlater with ⟨hmisses, hlater⟩ | ⟨hfindsLater, hlater⟩
        · exact .inl ⟨missesEntity_append.2 (.inr hmisses), hlater⟩
        · exact .inr ⟨fun hmisses ↦ (missesEntity_append.1 hmisses).elim hfinds hfindsLater,
            hlater⟩
termination_by (⟨waiting⟩ : Queue World)
decreasing_by
  exact ⟨_, _, work.deferred, (execution.under .nullify).settle_rank_lt _ _ _ _ hsettle,
    (List.getElem_cons_eraseIdx_perm hindex).symm, .refl _⟩

end Execution

namespace Executor

variable (executor : Executor World)

/-- The same executor with a policy for missing entities. -/
def under (policy : MissingEntityPolicy) : Executor World :=
  { executor with missingEntities := policy }

/-- All faults that an execution records in which the deferred fields finish in an order. -/
def recordedIn (order : FinishingOrder) (root : Root) (world : World) : List Fault :=
  match executor.registry.validate executor.plan with
  | .error _ => []
  | .ok () =>
    match executor.start root { world } with
    | (.error _, _) => []
    | (.ok (_, work), state) =>
      work.recorded ++ executor.execution.recordedIn order ⟨work.deferred⟩ state

/-- The first pass under both policies. -/
theorem start_follows (root : Root) :
    Run.Follows ((executor.under .abort).start root) ((executor.under .nullify).start root) := by
  have hexpand := executor.execution.completeObject_follows executor.plan.selection.fields
  unfold start
  cases root with
  | entity key =>
    have hstore : (executor.under .abort).store = (executor.under .nullify).store := rfl
    have hplan : (executor.under .abort).plan = (executor.under .nullify).plan := rfl
    dsimp only
    rw [hstore, hplan]
    cases Dict.get? (executor.under .nullify).store key with
    | some record => exact (hexpand record .record _ _).map Json.object
    | none =>
      dsimp only
      split
      · exact (hexpand [] .record _ _).map Json.object
      · exact executor.execution.missingEntity_follows key _
  | value payload =>
    exact executor.execution.completeValue_follows _ hexpand .payload _ _ payload

end Executor

end GraphCache
