import GraphCache.Proofs.Evaluation
import GraphCache.Proofs.ReadBack
import Mathlib.Data.List.Flatten

/-!
# Plans that read alike

Two plans without local fields give the same response if their fields read alike, one after the
other: under the same response key and from the same place. Fields that the variables exclude may be
missing in the second plan, so the fields of two such plans need not have the same positions, and
their selection sets need not have the same numbers. Positions only serve to bring the faults into
an order, and without deferred fields the faults come in this order anyway.

## Main definitions

* `Work.Orderly`: nothing is deferred, and the faults come in the order of their positions.
* `Work.unordered`: work without the numbers that order its faults.
* `FieldPlan.ReadsAs`, `FieldPlan.ListReadsAs`, `QueryPlan.ReadsAs`: plans that read alike.

## Main results

* `Execution.completeFields_orderly`: completing remote fields leaves orderly work.
* `Execution.completeFields_reports`: completing fields that read alike is in lock-step.
* `Executor.execute_eq_of_readsAs`: plans that read alike give the same response.
-/

namespace GraphCache

variable {World α β : Type}

/-! ### Orderly work -/

/-- Nothing is deferred, and the faults come in the order of their positions. -/
structure Work.Orderly (work : Work World) : Prop where
  /-- Nothing is left for later. -/
  deferred : work.deferred = []
  /-- The faults are in order. -/
  sorted : work.faults.Pairwise Fault.Before

namespace Work.Orderly

theorem none : (Work.none : Work World).Orderly :=
  ⟨rfl, .nil⟩

theorem ofFault (trail : Trail) (error : FieldError) :
    (Work.ofFault trail error : Work World).Orderly :=
  ⟨rfl, List.pairwise_singleton _ _⟩

end Work.Orderly

/-- The fields of an object before a position have been completed, and their work is orderly. -/
structure Assembler.Orderly (position : Nat) (assembler : Assembler World) : Prop where
  /-- Nothing is left for later. -/
  deferred : ∀ entry ∈ assembler.pending, entry.2.deferred = []
  /-- The faults are in order. -/
  sorted : (assembler.pending.flatMap (·.2.faults)).Pairwise Fault.Before
  /-- The faults are those of fields before the position. -/
  before : ∀ entry ∈ assembler.pending, ∀ fault ∈ entry.2.faults,
    ∃ i is, fault.trail.order = i :: is ∧ i < position

namespace Assembler.Orderly

variable {assembler : Assembler World} {position : Nat}

theorem empty (position : Nat) : (Assembler.empty : Assembler World).Orderly position :=
  ⟨List.forall_mem_nil _, .nil, List.forall_mem_nil _⟩

theorem succ (h : assembler.Orderly position) : assembler.Orderly (position + 1) where
  deferred := h.deferred
  sorted := h.sorted
  before entry hentry fault hfault := by
    obtain ⟨i, is, horder, hi⟩ := h.before entry hentry fault hfault
    exact ⟨i, is, horder, by omega⟩

theorem work (h : assembler.Orderly position) : assembler.work.Orderly where
  deferred := by
    rw [work_deferred]
    exact List.flatMap_eq_nil_iff.2 h.deferred
  sorted := by
    rw [work_faults]
    exact h.sorted

/-- Setting the field at the position: its faults come after those of the fields before it. -/
theorem insert (h : assembler.Orderly position) (key : String) (value : Json) {inner : Work World}
    (hinner : inner.Orderly) :
    (assembler.insert key value (inner.under (({} : Trail).field position key))).1.Orderly
      (position + 1) where
  deferred entry hentry := by
    rcases Assembler.mem_pending_insert hentry with ⟨hentry, -⟩ | rfl
    · exact h.deferred entry hentry
    · simp [hinner.deferred]
  sorted := by
    have hothers : ((assembler.pending.filter (·.1 != key)).flatMap (·.2.faults)).Pairwise
        Fault.Before := h.sorted.sublist (List.filter_sublist.flatMap _)
    simp only [Assembler.insert]
    split
    · exact hothers
    · rw [List.flatMap_append, List.pairwise_append]
      refine ⟨hothers, ?_, ?_⟩
      · rw [List.flatMap_singleton, Work.faults_under]
        exact List.pairwise_map.2 (hinner.sorted.imp fun hbefore ↦ hbefore.under _)
      · intro a ha b hb
        obtain ⟨entry, hentry, ha⟩ := List.mem_flatMap.1 ha
        obtain ⟨i, is, horder, hi⟩ := h.before entry (List.mem_of_mem_filter hentry) a ha
        rw [List.flatMap_singleton, Work.faults_under] at hb
        obtain ⟨fault, -, rfl⟩ := List.mem_map.1 hb
        simp only [Fault.Before, Fault.under, Trail.order_append, Trail.field, horder,
          List.nil_append, List.cons_append, Trail.positionsLE, Bool.or_eq_false_iff,
          decide_eq_false_iff_not, Bool.and_eq_false_iff, beq_eq_false_iff_ne]
        exact ⟨by omega, .inl (by omega)⟩
  before entry hentry fault hfault := by
    rcases Assembler.mem_pending_insert hentry with ⟨hentry, -⟩ | rfl
    · exact h.succ.before entry hentry fault hfault
    · obtain ⟨inner, -, rfl⟩ := List.mem_map.1 hfault
      exact ⟨position, inner.trail.order, rfl, Nat.lt_succ_self position⟩

end Assembler.Orderly

namespace Run

/-- A completion that leaves orderly work, if it does not fail. -/
def Orderly (run : Run World (Completed World α)) : Prop :=
  run.Ensures fun completed => completed.2.Orderly

/-- A computation that is moved to a position ensures what it ensures at the root, moved. -/
theorem Ensures.under {run : Run World (Completed World α)} {post : Completed World α → Prop}
    (h : run.Ensures post) (trail : Trail) :
    (run.under trail).Ensures fun completed =>
      ∃ work, completed.2 = work.under trail ∧ post (completed.1, work) := by
  intro state completed state' hrun
  obtain ⟨inner, hinner, hwork⟩ := under_eq_ok_iff.1 hrun
  exact ⟨inner, hwork, h _ _ _ hinner⟩

theorem Orderly.map {run : Run World (Completed World α)} (h : run.Orderly) (f : α → β) :
    (run >>= fun completed => Pure.pure (f completed.1, completed.2)).Orderly :=
  Ensures.bind h fun _ horderly ↦ .pure horderly

end Run

namespace Execution

variable {execution : Execution World}

theorem failed_orderly (trail : Trail) (error : FieldError) :
    (failed trail error : Run World (Completed World Json)).Orderly :=
  .pure (.ofFault trail error)

section Values

variable (execution) (id : Nat) {expand : Expand World} (hmoves : MovesAlong expand)
  (hexpand : ∀ object mode typeHint, (expand object mode typeHint {}).Orderly)

include hmoves hexpand

-- Each theorem of the block needs the assumptions of the others.
set_option linter.unusedSectionVars false in
mutual

theorem completeValue_orderly (mode : ReadMode) (typeHint : Option String) (value : Json) :
    (execution.completeValue id expand mode typeHint {} value).Orderly := by
  cases value with
  | null => exact .pure .none
  | bool _ | number _ | string _ => exact failed_orderly _ _
  | array items =>
    rw [completeValue]
    refine Run.Ensures.bind (completeItems_orderly mode typeHint 0 items) fun _ hitems ↦ ?_
    exact .pure ⟨hitems.1, hitems.2.1⟩
  | object object =>
    unfold completeValue
    cases execution.store.resolve (.object object) with
    | entity key record =>
      exact completeEntity_ensures .none (hexpand record .record none)
    | missing key =>
      dsimp only
      unfold missingEntity
      split
      · exact .throw _
      · exact failed_orderly _ _
    | notReference => exact (hexpand object mode typeHint).map Json.object

theorem completeItems_orderly (mode : ReadMode) (typeHint : Option String) (position : Nat)
    (items : List Json) :
    (execution.completeItems id expand mode typeHint {} position items).Ensures
      fun completed => completed.2.deferred = [] ∧
        Fault.SortedFrom position completed.2.faults := by
  cases items with
  | nil => exact .pure ⟨rfl, .nil position⟩
  | cons item rest =>
    rw [completeItems_cons hmoves]
    refine Run.Ensures.bind ((completeValue_orderly mode typeHint item).under _)
      fun first hfirst ↦ ?_
    refine Run.Ensures.bind (completeItems_orderly mode typeHint (position + 1) rest)
      fun others hothers ↦ .pure ?_
    obtain ⟨work, hwork, horderly⟩ := hfirst
    refine ⟨?_, ?_⟩
    · rw [Work.deferred_append, hwork, Work.deferred_under, horderly.deferred, hothers.1]
      rfl
    · rw [Work.faults_append, hwork, Work.faults_under]
      exact .cons horderly.sorted hothers.2 rfl

end

end Values

theorem completeLeaf_orderly (value : Json) (trail : Trail) :
    (completeLeaf value trail : Run World (Completed World Json)).Orderly := by
  rw [completeLeaf]
  split
  · exact failed_orderly _ _
  · exact .pure .none

theorem completeRemote_orderly {complete : Json → Trail → Run World (Completed World Json)}
    {trail : Trail} (h : ∀ value, (complete value trail).Orderly) (field : PlannedField)
    (object : Object) (mode : ReadMode) (known : Option String) :
    (execution.completeRemote complete field object mode known trail).Orderly := by
  unfold completeRemote
  split
  · exact h _
  · split
    · exact .pure .none
    · exact failed_orderly _ _

mutual

/-- Completing a remote field leaves orderly work. -/
theorem completeField_orderly (plan : FieldPlan) (hremote : plan.hasLocalField = false)
    (object : Object) (mode : ReadMode) (known : Option String) :
    (execution.completeField plan object mode known {}).Orderly := by
  cases plan with
  | leaf field =>
    have hfield : field.isLocal = false := hremote
    simp only [completeField, hfield]
    exact completeRemote_orderly (completeLeaf_orderly · {}) field object mode known
  | nested field id fields =>
    obtain ⟨hfield, hfields⟩ := Bool.or_eq_false_iff.1 hremote
    simp only [completeField, hfield, Bool.false_eq_true, if_false]
    refine completeRemote_orderly (fun value ↦ ?_) field object mode known
    exact completeValue_orderly execution id (completeObject_movesAlong fields)
      (fun inner mode typeHint ↦
        completeFields_orderly fields hfields 0 inner mode typeHint .empty (.empty 0))
      mode none value

/-- Completing remote fields leaves orderly work. -/
theorem completeFields_orderly (plans : List FieldPlan)
    (hremote : FieldPlan.anyLocalField plans = false) (position : Nat) (object : Object)
    (mode : ReadMode) (typeHint : Option String) (assembler : Assembler World)
    (h : assembler.Orderly position) :
    (execution.completeFields plans position object mode typeHint {}
      assembler).Orderly := by
  cases plans with
  | nil =>
    rw [completeFields]
    exact .pure h.work
  | cons plan rest =>
    obtain ⟨hfirst, hrest⟩ := Bool.or_eq_false_iff.1 hremote
    by_cases hselected : plan.field.isSelected execution.variableValues
        (typename? object) = true
    · rw [completeFields_cons_of_selected hselected]
      refine Run.Ensures.bind ((completeField_orderly plan hfirst object mode _).under _)
        fun completed hcompleted ↦ ?_
      obtain ⟨work, hwork, horderly⟩ := hcompleted
      rw [hwork]
      exact completeFields_orderly rest hrest (position + 1) object mode typeHint _
        (h.insert _ _ horderly)
    · rw [completeFields_cons_of_not_selected hselected]
      exact completeFields_orderly rest hrest (position + 1) object mode typeHint _ h.succ

end

end Execution

/-! ### Work without positions -/

/-- The position without the numbers that order it. -/
def Trail.unordered (trail : Trail) : Trail :=
  { trail with order := [] }

/-- The fault without the numbers that order it. -/
def Fault.unordered (fault : Fault) : Fault :=
  { fault with trail := fault.trail.unordered }

theorem Fault.toGraphQLError_unordered (fault : Fault) :
    fault.unordered.toGraphQLError = fault.toGraphQLError := rfl

namespace Work

/-- The work without the numbers that order its faults. -/
def unordered (work : Work World) : Work World :=
  { work with
    faults := work.faults.map Fault.unordered
    droppedFaults := work.droppedFaults.map Fault.unordered }

theorem unordered_append (a b : Work World) :
    (a ++ b).unordered = a.unordered ++ b.unordered := by
  show unordered (append a b) = append a.unordered b.unordered
  simp [unordered, append]

theorem unordered_giveUp (work : Work World) :
    work.giveUp.unordered = work.unordered.giveUp := by
  simp [unordered, giveUp]

theorem isClean_unordered (work : Work World) : work.unordered.isClean = work.isClean := by
  simp [unordered, isClean, List.isEmpty_map]

theorem unordered_foldl (works : List (Work World)) (start : Work World) :
    (works.foldl (· ++ ·) start).unordered
      = (works.map unordered).foldl (· ++ ·) start.unordered := by
  induction works generalizing start with
  | nil => rfl
  | cons work works ih =>
    rw [List.foldl_cons, ih, unordered_append, List.map_cons, List.foldl_cons]

end Work

namespace Assembler

/-- The object under construction without the numbers that order faults. -/
def unordered (assembler : Assembler World) : Assembler World :=
  { assembler with
    pending := assembler.pending.map fun entry => (entry.1, entry.2.unordered)
    replaced := assembler.replaced.map Work.unordered }

theorem workOf?_unordered (assembler : Assembler World) (key : String) :
    assembler.unordered.workOf? key = (assembler.workOf? key).map Work.unordered := by
  unfold workOf? unordered
  dsimp only
  induction assembler.pending with
  | nil => rfl
  | cons entry rest ih =>
    rw [List.map_cons, Dict.get?_cons, Dict.get?_cons, ih]
    split
    · rfl
    · rfl

theorem unordered_insert (assembler : Assembler World) (key : String) (value : Json)
    (work : Work World) :
    (assembler.insert key value work).1.unordered
      = (assembler.unordered.insert key value work.unordered).1 := by
  simp only [insert, workOf?_unordered, Work.isClean_unordered]
  simp only [unordered, List.filter_map, Function.comp_def, List.map_append, mk.injEq, true_and]
  constructor
  · split
    · rfl
    · simp
  · cases assembler.workOf? key <;> rfl

theorem unordered_work (assembler : Assembler World) :
    assembler.work.unordered = assembler.unordered.work := by
  unfold work
  rw [Work.unordered_append, Work.unordered_foldl, Work.unordered_foldl]
  simp only [unordered, List.map_map, Function.comp_def, Work.unordered_giveUp]
  rfl

end Assembler

/-! ### Fields that read alike -/

/-- The fields read from the same place for these variables, and go to the same response key. -/
structure PlannedField.ReadsAs (vars : Object) (a b : PlannedField) : Prop where
  /-- The names are the same. -/
  name : a.name = b.name
  /-- The keys in the response are the same. -/
  responseKey : a.responseKey = b.responseKey
  /-- The names in records are the same. -/
  storageName : a.storageNameFor vars = b.storageNameFor vars
  /-- Both fields are local or both are remote. -/
  isLocal : a.isLocal = b.isLocal
  /-- The types that the query tells are the same. -/
  parentType : a.parentType = b.parentType
  /-- The types to which the fragments apply are the same. -/
  typeConditions : a.typeConditions = b.typeConditions
  /-- The variables exclude both fields or none. -/
  isSkipped : a.isSkipped vars = b.isSkipped vars

theorem PlannedField.ReadsAs.isSelected {vars : Object} {a b : PlannedField} (h : a.ReadsAs vars b)
    (typename : Option String) : a.isSelected vars typename = b.isSelected vars typename := by
  rw [PlannedField.isSelected, PlannedField.isSelected, h.isSkipped]
  cases typename with
  | none => rfl
  | some typename => rw [PlannedField.appliesTo, PlannedField.appliesTo, h.typeConditions]

theorem PlannedField.not_isSelected_of_isSkipped {vars : Object} {field : PlannedField}
    (h : field.isSkipped vars = true) (typename : Option String) :
    ¬ field.isSelected vars typename = true := by
  simp [PlannedField.isSelected, h]

namespace FieldPlan

mutual

/-- The fields read alike, and so do the fields below them. -/
inductive ReadsAs (vars : Object) : FieldPlan → FieldPlan → Prop where
  | leaf {a b : PlannedField} (h : a.ReadsAs vars b) : ReadsAs vars (leaf a) (leaf b)
  | nested {a b : PlannedField} {id id' : Nat} {as bs : List FieldPlan} (h : a.ReadsAs vars b)
      (hfields : ListReadsAs vars as bs) : ReadsAs vars (nested a id as) (nested b id' bs)

/-- The listed fields read alike, one after the other. Fields that the variables exclude may be left
out of the second list. -/
inductive ListReadsAs (vars : Object) : List FieldPlan → List FieldPlan → Prop where
  | nil : ListReadsAs vars [] []
  | cons {a b : FieldPlan} {as bs : List FieldPlan} (h : ReadsAs vars a b)
      (hrest : ListReadsAs vars as bs) : ListReadsAs vars (a :: as) (b :: bs)
  | skipped {a : FieldPlan} {as bs : List FieldPlan} (h : a.field.isSkipped vars = true)
      (hrest : ListReadsAs vars as bs) : ListReadsAs vars (a :: as) bs

end

mutual

theorem ReadsAs.hasLocalField_eq_false {vars : Object} {a b : FieldPlan} (h : a.ReadsAs vars b)
    (hlocal : a.hasLocalField = false) : b.hasLocalField = false := by
  cases h with
  | leaf h => exact h.isLocal.symm.trans hlocal
  | nested h hfields =>
    obtain ⟨hfield, hinner⟩ := Bool.or_eq_false_iff.1 hlocal
    exact Bool.or_eq_false_iff.2
      ⟨h.isLocal.symm.trans hfield, hfields.anyLocalField_eq_false hinner⟩

/-- Where no field is local, no field that reads alike is. -/
theorem ListReadsAs.anyLocalField_eq_false {vars : Object} {as bs : List FieldPlan}
    (h : ListReadsAs vars as bs) (hlocal : anyLocalField as = false) :
    anyLocalField bs = false := by
  cases h with
  | nil => rfl
  | cons hfirst hrest =>
    obtain ⟨ha, has⟩ := Bool.or_eq_false_iff.1 hlocal
    exact Bool.or_eq_false_iff.2
      ⟨hfirst.hasLocalField_eq_false ha, hrest.anyLocalField_eq_false has⟩
  | skipped _ hrest =>
    exact hrest.anyLocalField_eq_false (Bool.or_eq_false_iff.1 hlocal).2

end

theorem ReadsAs.field {vars : Object} {a b : FieldPlan} (h : a.ReadsAs vars b) :
    a.field.ReadsAs vars b.field := by
  cases h with
  | leaf h => exact h
  | nested h => exact h

end FieldPlan

/-- The plans start at the same place and read alike, given the variables of a request. -/
structure QueryPlan.ReadsAs (provided : Object) (a b : QueryPlan) : Prop where
  /-- The kinds of the operations are the same. -/
  kind : a.kind = b.kind
  /-- The types from which the operations select are the same. -/
  rootType : a.rootType = b.rootType
  /-- The variables have the same default values. -/
  variableDefaults : a.variableDefaults = b.variableDefaults
  /-- The fields of the root selection sets read alike. -/
  fields : FieldPlan.ListReadsAs (a.variableValues provided) a.selection.fields b.selection.fields

/-! ### Completing fields that read alike -/

/-- The same value, and the same work apart from the numbers that order faults. -/
def Completed.Reports (a b : Completed World α) : Prop :=
  a.1 = b.1 ∧ a.2.unordered = b.2.unordered

/-- The computations fail with the same error, or yield the same value and the same work apart from
the numbers that order faults. -/
def Run.Reports (a b : Run World (Completed World α)) : Prop :=
  Run.Alike (fun _ => True) Completed.Reports a b

namespace Execution

variable {execution : Execution World}

theorem failed_reports {trail trail' : Trail} (htrail : trail.path = trail'.path)
    (error : FieldError) :
    Run.Reports (failed trail error : Run World (Completed World Json)) (failed trail' error) := by
  refine .pure ⟨rfl, ?_⟩
  simp [Work.unordered, Work.ofFault, Fault.unordered, Trail.unordered, htrail]

theorem Reports.object {a b : Run World (Completed World Object)} (h : Run.Reports a b) :
    Run.Reports (a >>= fun completed => pure (Json.object completed.1, completed.2))
      (b >>= fun completed => pure (Json.object completed.1, completed.2)) :=
  Run.Alike.bind h fun _ _ hreports ↦ .pure ⟨congrArg Json.object hreports.1, hreports.2⟩

theorem completeLeaf_reports (value : Json) {trail trail' : Trail}
    (htrail : trail.path = trail'.path) :
    Run.Reports (completeLeaf value trail : Run World (Completed World Json))
      (completeLeaf value trail') := by
  rw [completeLeaf, completeLeaf]
  split
  · exact failed_reports htrail _
  · exact .pure ⟨rfl, rfl⟩

theorem completeRemote_reports
    {complete complete' : Json → Trail → Run World (Completed World Json)}
    {trail trail' : Trail} (htrail : trail.path = trail'.path)
    (h : ∀ value, Run.Reports (complete value trail) (complete' value trail'))
    {a b : PlannedField} (hfield : a.ReadsAs execution.variableValues b) (object : Object)
    (mode : ReadMode) (known : Option String) :
    Run.Reports (execution.completeRemote complete a object mode known trail)
      (execution.completeRemote complete' b object mode known trail') := by
  have hfound : execution.remoteValue? a object mode
      = execution.remoteValue? b object mode := by
    cases mode with
    | record => exact congrArg _ hfield.storageName
    | payload => rw [remoteValue?, remoteValue?, hfield.responseKey]
  have htypename : a.isTypename = b.isTypename := by
    rw [PlannedField.isTypename, PlannedField.isTypename, hfield.name]
  unfold completeRemote
  rw [hfound, htypename, hfield.name]
  cases execution.remoteValue? b object mode with
  | some value => exact h value
  | none =>
    dsimp only
    split
    · exact .pure ⟨rfl, rfl⟩
    · exact failed_reports htrail _

end Execution

namespace ForgetfulExecution

variable {execution : ForgetfulExecution World}

section Values

variable (execution) {expand expand' : Expand World}
  (hexpand : ∀ object mode typeHint trail trail', trail.path = trail'.path →
    Run.Reports (expand object mode typeHint trail) (expand' object mode typeHint trail'))

include hexpand

-- Each theorem of the block needs the assumptions of the others.
set_option linter.unusedSectionVars false in
mutual

theorem completeValue_reports (mode : ReadMode) (typeHint : Option String) {trail trail' : Trail}
    (htrail : trail.path = trail'.path) (value : Json) :
    Run.Reports (execution.completeValue expand mode typeHint trail value)
      (execution.completeValue expand' mode typeHint trail' value) := by
  cases value with
  | null => exact .pure ⟨rfl, rfl⟩
  | bool _ | number _ | string _ => exact Execution.failed_reports htrail _
  | array items =>
    rw [completeValue, completeValue]
    exact Run.Alike.bind (completeItems_reports mode typeHint htrail 0 items) fun _ _ hreports ↦
      .pure ⟨congrArg Json.array hreports.1, hreports.2⟩
  | object object =>
    unfold completeValue
    cases execution.store.resolve (.object object) with
    | entity key record =>
      exact Execution.Reports.object (hexpand record .record none _ _ htrail)
    | missing key =>
      dsimp only
      unfold Execution.missingEntity
      rw [htrail]
      split
      · exact .throw _
      · exact Execution.failed_reports htrail _
    | notReference => exact Execution.Reports.object (hexpand object mode typeHint _ _ htrail)

theorem completeItems_reports (mode : ReadMode) (typeHint : Option String) {trail trail' : Trail}
    (htrail : trail.path = trail'.path) (position : Nat) (items : List Json) :
    Run.Reports (execution.completeItems expand mode typeHint trail position items)
      (execution.completeItems expand' mode typeHint trail' position items) := by
  cases items with
  | nil => exact .pure ⟨rfl, rfl⟩
  | cons item rest =>
    have hindex : (trail.index position).path = (trail'.index position).path := by
      rw [Trail.index, Trail.index, htrail]
    rw [completeItems, completeItems]
    refine Run.Alike.bind (completeValue_reports mode typeHint hindex item) fun _ _ hitem ↦ ?_
    refine Run.Alike.bind (completeItems_reports mode typeHint htrail (position + 1) rest)
      fun _ _ hrest ↦ .pure ⟨congrArg₂ List.cons hitem.1 hrest.1, ?_⟩
    rw [Work.unordered_append, Work.unordered_append, hitem.2, hrest.2]

end

end Values

mutual

/-- Completing remote fields that read alike is in lock-step. -/
theorem completeField_reports {a b : FieldPlan} (h : a.ReadsAs execution.variableValues b)
    (ha : a.hasLocalField = false) (object : Object)
    (mode : ReadMode) (known : Option String) {trail trail' : Trail}
    (htrail : trail.path = trail'.path) :
    Run.Reports (execution.completeField a object mode known trail)
      (execution.completeField b object mode known trail') := by
  cases h with
  | @leaf a b hfield =>
    have ha : a.isLocal = false := ha
    have hb : b.isLocal = false := hfield.isLocal.symm.trans ha
    simp only [completeField, ha, hb]
    exact Execution.completeRemote_reports htrail
      (fun value ↦ Execution.completeLeaf_reports value htrail) hfield object mode known
  | @nested a b id id' as bs hfield hfields =>
    obtain ⟨ha, has⟩ := Bool.or_eq_false_iff.1 ha
    have hb : b.isLocal = false := hfield.isLocal.symm.trans ha
    simp only [completeField, ha, hb, Bool.false_eq_true, if_false]
    refine Execution.completeRemote_reports htrail (fun value ↦ ?_) hfield object mode known
    exact completeValue_reports execution (fun inner mode typeHint _ _ htrail ↦
      completeFields_reports hfields has 0 0 inner mode typeHint htrail rfl) mode none htrail
      value

/-- Completing lists of remote fields that read alike is in lock-step. -/
theorem completeFields_reports {as bs : List FieldPlan}
    (h : FieldPlan.ListReadsAs execution.variableValues as bs)
    (has : FieldPlan.anyLocalField as = false)
    (position position' : Nat) (object : Object) (mode : ReadMode) (typeHint : Option String)
    {trail trail' : Trail} (htrail : trail.path = trail'.path)
    {assembler assembler' : Assembler World}
    (hassembler : assembler.unordered = assembler'.unordered) :
    Run.Reports
      (execution.completeFields as position object mode typeHint trail assembler)
      (execution.completeFields bs position' object mode typeHint trail' assembler') := by
  cases h with
  | nil =>
    rw [completeFields, completeFields]
    have hobject : assembler.unordered.object = assembler'.unordered.object := by rw [hassembler]
    refine .pure ⟨hobject, ?_⟩
    rw [Assembler.unordered_work, Assembler.unordered_work, hassembler]
  | @cons a b as bs hfirst hrest =>
    obtain ⟨ha, has⟩ := Bool.or_eq_false_iff.1 has
    have hknown : Execution.knownType a.field object typeHint
        = Execution.knownType b.field object typeHint := by
      rw [Execution.knownType, Execution.knownType, hfirst.field.parentType]
    have hpath : (trail.field position a.field.responseKey).path
        = (trail'.field position' b.field.responseKey).path := by
      rw [Trail.field, Trail.field, htrail, hfirst.field.responseKey]
    have hselected : a.field.isSelected execution.variableValues (typename? object)
        = b.field.isSelected execution.variableValues (typename? object) :=
      hfirst.field.isSelected (typename? object)
    rw [completeFields, completeFields, hselected]
    split
    · rw [hknown]
      refine Run.Alike.bind (completeField_reports hfirst ha object mode _ hpath)
        fun completed completed' hcompleted ↦ ?_
      refine completeFields_reports hrest has _ _ object mode typeHint htrail ?_
      show (assembler.insert a.field.responseKey completed.1 completed.2).1.unordered
        = (assembler'.insert b.field.responseKey completed'.1 completed'.2).1.unordered
      rw [Assembler.unordered_insert, Assembler.unordered_insert, hassembler, hcompleted.1,
        hcompleted.2, hfirst.field.responseKey]
    · exact completeFields_reports hrest has _ _ object mode typeHint htrail hassembler
  | @skipped a as bs hskipped hrest =>
    obtain ⟨-, has⟩ := Bool.or_eq_false_iff.1 has
    have hnot : ¬ a.field.isSelected execution.variableValues (typename? object) = true :=
      PlannedField.not_isSelected_of_isSkipped hskipped _
    rw [completeFields, if_neg hnot]
    exact completeFields_reports hrest has _ _ object mode typeHint htrail hassembler

end

end ForgetfulExecution

/-! ### Responses to plans that read alike -/

namespace Executor

/-- The first pass over a plan without local fields leaves orderly work. -/
theorem start_orderly (executor : Executor World) (hlocal : executor.plan.hasLocalField = false)
    (root : Root) : (executor.start root).Orderly := by
  have hexpand : ∀ object mode typeHint, (executor.execution.completeObject
      executor.plan.selection.fields object mode typeHint {}).Orderly :=
    fun object mode typeHint ↦ Execution.completeFields_orderly _ hlocal 0 object mode typeHint
      .empty (.empty 0)
  unfold start
  cases root with
  | entity key =>
    dsimp only
    split
    · exact (hexpand _ .record _).map Json.object
    · split
      · exact (hexpand [] .record _).map Json.object
      · unfold Execution.missingEntity
        split
        · exact .throw _
        · exact Execution.failed_orderly _ _
  | value payload =>
    exact Execution.completeValue_orderly executor.execution _
      (Execution.completeObject_movesAlong _) hexpand .payload _ payload

/-- Without local fields no resolver is asked. -/
theorem answersAlike_of_remote {executor : Executor World}
    (hlocal : executor.plan.hasLocalField = false) :
    executor.execution.AnswersAlike executor.plan := by
  intro fieldPlan hhas hlocalField
  rw [QueryPlan.isLocal_of_hasLocalField hlocal hhas] at hlocalField
  cases hlocalField

/-- What a first pass leaves is orderly also when it reuses nothing. -/
theorem start_forgetful_orderly (executor : Executor World) (hplan : executor.plan.Planned)
    (hlocal : executor.plan.hasLocalField = false) (root : Root) :
    (executor.forgetful.start root).Orderly := by
  intro state completed state' hforgetful
  obtain ⟨other, _, hstart, -, hwork⟩ :=
    (start_alike hplan (answersAlike_of_remote hlocal) root).of_ok_right hforgetful
      (s := { world := state.world }) .nil
  have horderly := start_orderly executor hlocal root _ _ _ hstart
  exact ⟨List.forall₂_nil_left_iff.1 (horderly.deferred ▸ hwork.deferred),
    hwork.faults ▸ horderly.sorted⟩

/-- An execution of a plan without local fields is decided by the first pass, and entities need not
be reused in it. -/
theorem execute_of_remote (executor : Executor World) (hplan : executor.plan.Planned)
    (hlocal : executor.plan.hasLocalField = false) (root : Root) (world : World) :
    (executor.execute root world).1 = (executor.forgetful.start root { world }).1.map
      fun completed => respond ⟨completed.1, completed.2.faults⟩ := by
  have hanswers := answersAlike_of_remote hlocal
  have hvalid := executor.registry.validate_of_remote hlocal
  rcases start_alike hplan hanswers root { world } { world } .nil with
    ⟨⟨data, work⟩, ⟨data', work'⟩, s, t, hstart, hforgetful, -, hdata, hwork⟩ |
    ⟨error, s, t, hstart, hforgetful⟩
  · have hdeferred := (start_orderly executor hlocal root _ _ _ hstart).deferred
    obtain rfl : data = data' := hdata
    have hfaults : work.faults = work'.faults := hwork.faults
    rw [execute_of_start hvalid hstart hdeferred, hforgetful, hfaults]
    rfl
  · simp only [execute, hvalid, hstart, hforgetful]
    rfl

/-- The executor with another plan. -/
def withPlan (executor : Executor World) (plan : QueryPlan) : Executor World :=
  { executor with plan }

variable {executor : Executor World} {plan : QueryPlan}
  (hreads : executor.plan.ReadsAs executor.variableValues plan)
  (hlocal : executor.plan.hasLocalField = false)

include hreads

theorem execution_withPlan : (executor.withPlan plan).execution = executor.execution := by
  rw [execution, execution, withPlan, QueryPlan.variableValues, QueryPlan.variableValues,
    hreads.rootType, hreads.variableDefaults]

include hlocal

/-- The first passes over plans that read alike are in lock-step. -/
theorem start_reports (root : Root) :
    Run.Reports (executor.forgetful.start root)
      ((executor.withPlan plan).forgetful.start root) := by
  have hexecution : (executor.withPlan plan).forgetful.execution = executor.execution.forgetful :=
    congrArg Execution.forgetful (execution_withPlan hreads)
  have hrootType : executor.forgetful.plan.rootType = plan.rootType := hreads.rootType
  have hrootKey : executor.forgetful.plan.rootKey = plan.rootKey :=
    congrArg OperationKind.rootKey hreads.kind
  have hexpand : ∀ object mode typeHint (trail trail' : Trail), trail.path = trail'.path →
      Run.Reports
        (executor.execution.forgetful.completeObject executor.plan.selection.fields object mode
          typeHint trail)
        (executor.execution.forgetful.completeObject plan.selection.fields object mode typeHint
          trail') :=
    fun object mode typeHint trail trail' htrail ↦
      ForgetfulExecution.completeFields_reports hreads.fields hlocal 0 0 object mode typeHint
        htrail rfl
  unfold ForgetfulExecutor.start
  rw [hexecution]
  cases root with
  | entity key =>
    dsimp only
    rw [show (executor.withPlan plan).forgetful.store = executor.forgetful.store from rfl,
      show (executor.withPlan plan).forgetful.plan = plan from rfl, hrootType, hrootKey]
    split
    · exact Execution.Reports.object (hexpand _ .record _ _ _ rfl)
    · split
      · exact Execution.Reports.object (hexpand [] .record _ _ _ rfl)
      · rw [execution_forgetful]
        unfold Execution.missingEntity
        split
        · exact .throw _
        · exact Execution.failed_reports rfl _
  | value payload =>
    dsimp only
    rw [show (executor.withPlan plan).forgetful.plan = plan from rfl, hrootType,
      execution_forgetful]
    exact ForgetfulExecution.completeValue_reports _ hexpand .payload _ rfl payload

/-- Plans without local fields that read alike give the same response, or fail in the same way. -/
theorem execute_eq_of_readsAs (hplan : executor.plan.Planned) (hplan' : plan.Planned) (root : Root)
    (world : World) :
    ((executor.withPlan plan).execute root world).1 = (executor.execute root world).1 := by
  have hlocal' : plan.hasLocalField = false := hreads.fields.anyLocalField_eq_false hlocal
  have hfirst := execute_of_remote executor hplan hlocal root world
  have hsecond := execute_of_remote (executor.withPlan plan) hplan' hlocal' root world
  rcases start_reports hreads hlocal root { world } { world } trivial with
    ⟨⟨data, work⟩, ⟨data', work'⟩, s, t, hstart, hstart', -, hdata, hwork⟩ |
    ⟨error, s, t, hstart, hstart'⟩
  · obtain rfl : data = data' := hdata
    have hsorted := (start_forgetful_orderly executor hplan hlocal root _ _ _ hstart).sorted
    have hsorted' :=
      (start_forgetful_orderly (executor.withPlan plan) hplan' hlocal' root _ _ _ hstart').sorted
    have herrors :
        work.faults.map Fault.toGraphQLError = work'.faults.map Fault.toGraphQLError := by
      have hfaults : work.faults.map Fault.unordered = work'.faults.map Fault.unordered :=
        congrArg Work.faults hwork
      have herased := congrArg (List.map Fault.toGraphQLError) hfaults
      simpa only [List.map_map, Function.comp_def, Fault.toGraphQLError_unordered] using herased
    have hordered : Fault.inOrder work.faults = work.faults :=
      Fault.inOrder_eq_of_perm hsorted (.refl _)
    have hordered' : Fault.inOrder work'.faults = work'.faults :=
      Fault.inOrder_eq_of_perm hsorted' (.refl _)
    rw [hfirst, hsecond, hstart, hstart']
    simp only [Except.map, respond, hordered, hordered', herrors]
  · rw [hfirst, hsecond, hstart, hstart']

end Executor

end GraphCache
