import GraphCache.Proofs.Prospects
import GraphCache.Proofs.Reuse
import GraphCache.Proofs.WritePass

/-!
# Reading what was written

A record in the cache is read by storage names and through references, a payload by response keys.
Where a record leads to a payload, both are completed to the same values with the same faults, as
long as no local field takes part and nothing in the payload looks like a reference.

## Main definitions

* `Json.FreeOf`: no object in a value has a certain field.
* `Run.Finishes`: a completion that succeeds and defers nothing.

## Main results

* `Execution.completeFields_reads`: a record is completed like the payload that it leads to.
* `Execution.completeFields_finishes`: completing a payload succeeds and defers nothing.
* `Executor.execute_eq_of_storedAs`: a plan gives the same response for the root record and for the
  payload.
-/

namespace GraphCache

namespace Json

mutual

/-- No object in the value, at any depth, has a field with the name. -/
def FreeOf (name : String) : Json → Prop
  | .array items => FreeOfItems name items
  | .object fields => FreeOfFields name fields
  | _ => True

/-- No object in the items has a field with the name. -/
def FreeOfItems (name : String) : List Json → Prop
  | [] => True
  | item :: items => FreeOf name item ∧ FreeOfItems name items

/-- No field has the name, and neither has one of the objects in them. -/
def FreeOfFields (name : String) : List (String × Json) → Prop
  | [] => True
  | (key, value) :: fields => key ≠ name ∧ FreeOf name value ∧ FreeOfFields name fields

end

variable {name : String} {fields : Object}

theorem FreeOfFields.get?_eq_none (h : FreeOfFields name fields) :
    Dict.get? fields name = none := by
  induction fields with
  | nil => rfl
  | cons field fields ih =>
    obtain ⟨hkey, _, hrest⟩ := h
    rw [Dict.get?_cons, if_neg hkey, ih hrest]

theorem FreeOfFields.of_get? (h : FreeOfFields name fields) {key : String} {value : Json}
    (hvalue : Dict.get? fields key = some value) : value.FreeOf name := by
  induction fields with
  | nil => cases hvalue
  | cons field fields ih =>
    obtain ⟨_, hfirst, hrest⟩ := h
    rw [Dict.get?_cons] at hvalue
    split at hvalue
    · rw [← Option.some.inj hvalue]
      exact hfirst
    · exact ih hrest hvalue

end Json

namespace Snapshot

theorem resolve_reference {snapshot : Snapshot} {key : String} {record : Object}
    (h : Dict.get? snapshot key = some record) :
    snapshot.resolve (Json.reference key) = .entity key record := by
  simp [resolve, h]

theorem resolve_of_reference?_eq_none {value : Json} (h : value.reference? = none)
    (snapshot : Snapshot) : snapshot.resolve value = .notReference := by
  rw [resolve, h]

theorem resolve_of_freeOf {fields : Object} (h : Json.FreeOfFields Json.referenceField fields)
    (snapshot : Snapshot) : snapshot.resolve (.object fields) = .notReference :=
  resolve_of_reference?_eq_none (Json.reference?_of_get?_eq_none h.get?_eq_none) snapshot

end Snapshot

variable {World α : Type} {plan : QueryPlan}

/-- The completion succeeds in every state and defers nothing. -/
def Run.Finishes (run : Run World (Completed World α)) : Prop :=
  run.Achieves (fun _ => True) fun completed => completed.2.deferred = []

/-- A remote field for which a value is found is completed like this value. -/
theorem Execution.completeRemote_of_value {execution : Execution World} {field : PlannedField}
    {object : Object} {mode : ReadMode} {value : Json}
    (h : execution.remoteValue? field object mode = some value)
    (complete : Json → Trail → Run World (Completed World Json)) (known : Option String)
    (trail : Trail) :
    execution.completeRemote complete field object mode known trail = complete value trail := by
  unfold completeRemote
  rw [h]

namespace ForgetfulExecution

variable {execution : ForgetfulExecution World}

section Values

variable {fields : List FieldPlan}
  (hexpand : ∀ record object, typename? record = typename? object →
    FieldPlan.listStoredAs execution.store execution.variableValues fields record object →
    Json.FreeOfFields Json.referenceField object → ∀ trail,
      execution.completeObject fields record .record none trail
        = execution.completeObject fields object .payload none trail)

include hexpand

/-- What is stored for an object is completed like the object. -/
theorem completeObject_reads {stored : Json} {record object : Object}
    (hopens : execution.store.Opens stored record) (htypename : typename? record = typename? object)
    (hstored : FieldPlan.listStoredAs execution.store execution.variableValues fields record object)
    (hfree : Json.FreeOfFields Json.referenceField object) (trail : Trail) :
    execution.completeValue (execution.completeObject fields) .record none trail stored
      = execution.completeValue (execution.completeObject fields) .payload none trail
          (.object object) := by
  have hsame := hexpand record object htypename hstored hfree trail
  have hpayload : execution.completeValue (execution.completeObject fields) .payload none trail
        (.object object)
      = execution.completeObject fields object .payload none trail >>=
          fun completed => pure (.object completed.1, completed.2) := by
    have hresolve : execution.store.resolve (.object object) = .notReference :=
      Snapshot.resolve_of_freeOf hfree _
    rw [completeValue, hresolve]
  rw [hpayload, ← hsame]
  rcases hopens with ⟨key, rfl, hrecord⟩ | ⟨rfl, hreference⟩
  · have hresolve : execution.store.resolve (Json.reference key) = .entity key record :=
      Snapshot.resolve_reference hrecord
    rw [Json.reference] at hresolve ⊢
    rw [completeValue, hresolve]
  · have hresolve : execution.store.resolve (.object record) = .notReference :=
      Snapshot.resolve_of_reference?_eq_none hreference _
    rw [completeValue, hresolve]

-- Each theorem of the block needs the assumptions of the others.
set_option linter.unusedSectionVars false in
mutual

/-- What is stored for a value is completed like the value. -/
theorem completeValue_reads (value stored : Json)
    (hreads : execution.store.Reads
      (FieldPlan.listStoredAs execution.store execution.variableValues fields) stored value)
    (hfree : value.FreeOf Json.referenceField) (trail : Trail) :
    execution.completeValue (execution.completeObject fields) .record none trail stored
      = execution.completeValue (execution.completeObject fields) .payload none trail value := by
  cases value with
  | array items =>
    obtain ⟨list, rfl, hitems⟩ := hreads
    unfold completeValue
    rw [completeItems_reads items list hitems hfree trail 0]
  | object object =>
    obtain ⟨record, hopens, htypename, hstored⟩ := hreads
    exact completeObject_reads hexpand hopens htypename hstored hfree trail
  | null =>
    obtain rfl : stored = .null := hreads
    rfl
  | bool value =>
    obtain rfl : stored = .bool value := hreads
    rfl
  | number value =>
    obtain rfl : stored = .number value := hreads
    rfl
  | string value =>
    obtain rfl : stored = .string value := hreads
    rfl

theorem completeItems_reads (items list : List Json)
    (hreads : execution.store.ReadsItems
      (FieldPlan.listStoredAs execution.store execution.variableValues fields) list items)
    (hfree : Json.FreeOfItems Json.referenceField items) (trail : Trail) (position : Nat) :
    execution.completeItems (execution.completeObject fields) .record none trail position list
      = execution.completeItems (execution.completeObject fields) .payload none trail position
          items := by
  cases items with
  | nil =>
    obtain rfl : list = [] := hreads
    rfl
  | cons item rest =>
    obtain ⟨stored, others, rfl, hfirst, hrest⟩ := hreads
    unfold completeItems
    rw [completeValue_reads item stored hfirst hfree.1,
      completeItems_reads rest others hrest hfree.2]

end

end Values

section Fields

variable (hremote : ∀ fieldPlan, plan.Has fieldPlan → fieldPlan.field.isLocal = false)

include hremote

-- Each theorem of the block needs the assumptions of the others.
set_option linter.unusedSectionVars false in
mutual

/-- What is stored for a field is completed like the value of the field. -/
theorem completeField_reads (fieldPlan : FieldPlan) (hhas : plan.Has fieldPlan)
    {record object : Object} {stored value : Json}
    (hrecord : Dict.get? record (fieldPlan.field.storageNameFor execution.variableValues)
      = some stored)
    (hvalue : Dict.get? object fieldPlan.field.responseKey = some value)
    (hstored : fieldPlan.StoredAs execution.store execution.variableValues stored value)
    (hfree : value.FreeOf Json.referenceField) (known known' : Option String) (trail : Trail) :
    execution.completeField fieldPlan record .record known trail
      = execution.completeField fieldPlan object .payload known' trail := by
  have hlocal := hremote fieldPlan hhas
  have hfound : execution.remoteValue? fieldPlan.field record .record = some stored := hrecord
  have hfound' : execution.remoteValue? fieldPlan.field object .payload = some value := hvalue
  cases fieldPlan with
  | leaf field =>
    have hfield : ¬ field.isLocal = true := Bool.eq_false_iff.1 hlocal
    obtain rfl : stored = value := hstored
    rw [completeField, completeField, if_neg hfield, if_neg hfield]
    exact (Execution.completeRemote_of_value hfound _ _ _).trans
      (Execution.completeRemote_of_value hfound' _ _ _).symm
  | nested field id fields =>
    have hfield : ¬ field.isLocal = true := Bool.eq_false_iff.1 hlocal
    have hexpand : ∀ record object, typename? record = typename? object →
        FieldPlan.listStoredAs execution.store execution.variableValues fields record object →
        Json.FreeOfFields Json.referenceField object → ∀ trail,
          execution.completeObject fields record .record none trail
            = execution.completeObject fields object .payload none trail :=
      fun record object htypename hstored hfree trail ↦ completeFields_reads fields
        (fun _ hmem ↦ hhas.inner hmem) htypename hstored hfree 0 none trail .empty
    calc execution.completeField (.nested field id fields) record .record known trail
      _ = execution.completeValue (execution.completeObject fields) .record none trail stored := by
        rw [completeField, if_neg hfield]
        exact Execution.completeRemote_of_value hfound _ _ _
      _ = execution.completeValue (execution.completeObject fields) .payload none trail value :=
        completeValue_reads hexpand value stored hstored hfree trail
      _ = execution.completeField (.nested field id fields) object .payload known' trail := by
        rw [completeField, if_neg hfield]
        symm
        exact Execution.completeRemote_of_value hfound' _ _ _

/-- A record is completed like the payload that it leads to. -/
theorem completeFields_reads (plans : List FieldPlan)
    (hplans : ∀ fieldPlan ∈ plans, plan.Has fieldPlan) {record object : Object}
    (htypename : typename? record = typename? object)
    (hstored : FieldPlan.listStoredAs execution.store execution.variableValues plans record object)
    (hfree : Json.FreeOfFields Json.referenceField object) (position : Nat)
    (typeHint : Option String) (trail : Trail) (assembler : Assembler World) :
    execution.completeFields plans position record .record typeHint trail assembler
      = execution.completeFields plans position object .payload typeHint trail assembler := by
  cases plans with
  | nil => rfl
  | cons fieldPlan rest =>
    obtain ⟨hhas, hrest⟩ := List.forall_mem_cons.1 hplans
    have hlater := completeFields_reads rest hrest htypename hstored.2 hfree (position + 1) typeHint
      trail
    unfold completeFields
    rw [htypename]
    by_cases hselected : fieldPlan.field.isSelected execution.variableValues
        (typename? object) = true
    · obtain ⟨stored, value, hrecord, hvalue, hfield⟩ := hstored.1 hselected
      have hsame := completeField_reads fieldPlan hhas hrecord hvalue hfield (hfree.of_get? hvalue)
        (Execution.knownType fieldPlan.field record typeHint)
        (Execution.knownType fieldPlan.field object typeHint)
        (trail.field position fieldPlan.field.responseKey)
      rw [if_pos hselected, if_pos hselected, hsame]
      congr 1
      funext completed
      exact hlater _
    · rw [if_neg hselected, if_neg hselected]
      exact hlater assembler

end

end Fields

end ForgetfulExecution

namespace Execution

variable {execution : Execution World}

/-! ### Completing a payload -/

theorem value_finishes (value : α) :
    (pure (value, .none) : Run World (Completed World α)).Finishes :=
  .pure rfl

theorem failed_finishes (trail : Trail) (error : FieldError) :
    (failed trail error : Run World (Completed World Json)).Finishes :=
  .pure rfl

theorem completeLeaf_finishes (value : Json) (trail : Trail) :
    (completeLeaf value trail : Run World (Completed World Json)).Finishes := by
  rw [completeLeaf]
  split
  · exact failed_finishes _ _
  · exact value_finishes _

section Values

variable {id : Nat} {expand : Expand World}
  (hexpand : ∀ object, Json.FreeOfFields Json.referenceField object → ∀ typeHint trail,
    (expand object .payload typeHint trail).Finishes)

include hexpand

-- Each theorem of the block needs the assumptions of the others.
set_option linter.unusedSectionVars false in
mutual

/-- Completing a value without references succeeds and defers nothing. -/
theorem completeValue_finishes (typeHint : Option String) (trail : Trail) (value : Json)
    (hfree : value.FreeOf Json.referenceField) :
    (execution.completeValue id expand .payload typeHint trail value).Finishes := by
  cases value with
  | null => exact value_finishes _
  | bool _ => exact failed_finishes _ _
  | number _ => exact failed_finishes _ _
  | string _ => exact failed_finishes _ _
  | array items =>
    rw [completeValue]
    exact Run.Achieves.bind (completeItems_finishes typeHint trail 0 items hfree) fun _ h ↦ .pure h
  | object object =>
    have hresolve := Snapshot.resolve_of_freeOf hfree execution.store
    rw [completeValue, hresolve]
    exact Run.Achieves.bind (hexpand object hfree typeHint trail) fun _ h ↦ .pure h

theorem completeItems_finishes (typeHint : Option String) (trail : Trail) (position : Nat)
    (items : List Json) (hfree : Json.FreeOfItems Json.referenceField items) :
    (execution.completeItems id expand .payload typeHint trail position items).Finishes := by
  cases items with
  | nil => exact value_finishes _
  | cons item rest =>
    rw [completeItems]
    refine Run.Achieves.bind (completeValue_finishes typeHint _ item hfree.1) fun _ hitem ↦ ?_
    refine Run.Achieves.bind (completeItems_finishes typeHint trail _ rest hfree.2) fun _ hrest ↦ ?_
    exact .pure (by rw [Work.deferred_append, hitem, hrest, List.append_nil])

end

end Values

section Fields

variable (hremote : ∀ fieldPlan, plan.Has fieldPlan → fieldPlan.field.isLocal = false)

include hremote

-- Each theorem of the block needs the assumptions of the others.
set_option linter.unusedSectionVars false in
mutual

/-- Completing a remote field of a payload succeeds and defers nothing. -/
theorem completeField_finishes (fieldPlan : FieldPlan) (hhas : plan.Has fieldPlan)
    (object : Object) (hfree : Json.FreeOfFields Json.referenceField object)
    (known : Option String) (trail : Trail) :
    (execution.completeField fieldPlan object .payload known trail).Finishes := by
  have hremoteField := hremote fieldPlan hhas
  cases hvalue : Dict.get? object fieldPlan.field.responseKey with
  | none =>
    have hmissing : execution.remoteValue? fieldPlan.field object .payload = none := hvalue
    rw [completeField_of_missing _ hremoteField hmissing]
    split
    · exact value_finishes _
    · exact failed_finishes _ _
  | some value =>
    have hfound : execution.remoteValue? fieldPlan.field object .payload = some value := hvalue
    rw [completeField_of_value _ hremoteField hfound]
    cases fieldPlan with
    | leaf field => exact completeLeaf_finishes value trail
    | nested field id fields =>
      exact completeValue_finishes (fun inner hinner typeHint trail ↦ completeFields_finishes fields
        (fun _ hmem ↦ hhas.inner hmem) inner hinner 0 typeHint trail .empty rfl) none trail value
        (hfree.of_get? hvalue)

/-- Completing an object of a payload succeeds and defers nothing. -/
theorem completeFields_finishes (plans : List FieldPlan)
    (hplans : ∀ fieldPlan ∈ plans, plan.Has fieldPlan) (object : Object)
    (hfree : Json.FreeOfFields Json.referenceField object) (position : Nat)
    (typeHint : Option String) (trail : Trail) (assembler : Assembler World)
    (hassembler : assembler.pending.flatMap (·.2.deferred) = []) :
    (execution.completeFields plans position object .payload typeHint trail
      assembler).Finishes := by
  cases plans with
  | nil =>
    rw [completeFields]
    exact .pure ((Assembler.work_deferred assembler).trans hassembler)
  | cons fieldPlan rest =>
    obtain ⟨hhas, hrest⟩ := List.forall_mem_cons.1 hplans
    rw [completeFields]
    split
    · refine Run.Achieves.bind (completeField_finishes fieldPlan hhas object hfree _ _)
        fun ⟨value, work⟩ hwork ↦ ?_
      have hothers : (assembler.pending.filter (·.1 != fieldPlan.field.responseKey)).flatMap
          (·.2.deferred) = [] := by
        rw [List.flatMap_eq_nil_iff] at hassembler ⊢
        exact fun entry hentry ↦ hassembler entry (List.mem_filter.1 hentry).1
      have hinserted : (assembler.insert fieldPlan.field.responseKey value work).1.pending.flatMap
          (·.2.deferred) = [] := by
        rw [Assembler.deferred_insert, hothers]
        exact hwork
      exact completeFields_finishes rest hrest object hfree _ typeHint trail _ hinserted
    · exact completeFields_finishes rest hrest object hfree _ typeHint trail assembler hassembler

end

end Fields

end Execution

namespace Registry

mutual

theorem validatePlan_of_remote (registry : Registry World) (plan : FieldPlan)
    (h : plan.hasLocalField = false) : registry.validatePlan plan = .ok () := by
  cases plan with
  | leaf field =>
    have hremote : field.isLocal = false := h
    simp [validatePlan, validateField, hremote]
  | nested field id fields =>
    rw [FieldPlan.hasLocalField, Bool.or_eq_false_iff] at h
    rw [validatePlan, validatePlans_of_remote registry fields h.2]
    simp [validateField, h.1]
    rfl

theorem validatePlans_of_remote (registry : Registry World) (plans : List FieldPlan)
    (h : FieldPlan.anyLocalField plans = false) : registry.validatePlans plans = .ok () := by
  cases plans with
  | nil => rfl
  | cons plan plans =>
    rw [FieldPlan.anyLocalField, Bool.or_eq_false_iff] at h
    rw [validatePlans, validatePlan_of_remote registry plan h.1,
      validatePlans_of_remote registry plans h.2]
    rfl

end

/-- A plan without local fields needs no resolver. -/
theorem validate_of_remote (registry : Registry World) {plan : QueryPlan}
    (h : plan.hasLocalField = false) : registry.validate plan = .ok () :=
  validatePlans_of_remote registry _ h

end Registry

namespace Executor

variable {executor : Executor World}

/-- An execution that defers nothing is finished after the first pass. -/
theorem execute_of_start {root : Root} {world : World} {data : Json} {work : Work World}
    {state : RunState World} (hvalid : executor.registry.validate executor.plan = .ok ())
    (hstart : executor.start root { world } = (.ok (data, work), state))
    (hdeferred : work.deferred = []) :
    (executor.execute root world).1 = .ok (respond ⟨data, work.faults⟩) := by
  simp only [execute, hvalid, hstart, hdeferred, Execution.drive_nil]
  rfl

/-- Where the root record leads to a payload, the first pass is the same for both. -/
theorem start_reads (hremote : ∀ fieldPlan, executor.plan.Has fieldPlan →
      fieldPlan.field.isLocal = false) {root data : Object}
    (hroot : Dict.get? executor.store executor.plan.rootKey = some root)
    (htypename : typename? root = typename? data)
    (hstored : FieldPlan.listStoredAs executor.store executor.execution.variableValues
      executor.plan.selection.fields root data)
    (hfree : Json.FreeOfFields Json.referenceField data) :
    executor.forgetful.start (.entity executor.plan.rootKey)
      = executor.forgetful.start (.value (.object data)) := by
  have hsame : executor.execution.forgetful.completeFields executor.plan.selection.fields 0 root
        .record (some executor.plan.rootType) {} .empty
      = executor.execution.forgetful.completeFields executor.plan.selection.fields 0 data
        .payload (some executor.plan.rootType) {} .empty :=
    ForgetfulExecution.completeFields_reads hremote _ (fun _ hmem ↦ QueryPlan.has_root hmem)
      htypename hstored hfree 0 _ {} .empty
  have hroot' : Dict.get? executor.forgetful.store executor.plan.rootKey = some root := hroot
  have hresolve : executor.forgetful.execution.store.resolve (.object data) = .notReference :=
    Snapshot.resolve_of_freeOf hfree _
  unfold ForgetfulExecutor.start ForgetfulExecution.completeValue
  dsimp only
  rw [hroot', hresolve]
  exact congrArg (· >>= fun completed => pure (Json.object completed.1, completed.2)) hsame

/-- Where the root record leads to a payload, a plan without local fields gives the same response
for both. -/
theorem execute_eq_of_storedAs (hplan : executor.plan.Planned)
    (hlocal : executor.plan.hasLocalField = false) {root data : Object}
    (hroot : Dict.get? executor.store executor.plan.rootKey = some root)
    (htypename : typename? root = typename? data)
    (hstored : FieldPlan.listStoredAs executor.store executor.execution.variableValues
      executor.plan.selection.fields root data)
    (hfree : Json.FreeOfFields Json.referenceField data) (world world' : World) :
    ∃ response, (executor.execute (.entity executor.plan.rootKey) world).1 = .ok response ∧
      (executor.execute (.value (.object data)) world').1 = .ok response := by
  have hremote : ∀ fieldPlan, executor.plan.Has fieldPlan → fieldPlan.field.isLocal = false :=
    fun _ hhas ↦ QueryPlan.isLocal_of_hasLocalField hlocal hhas
  have hanswers : executor.execution.AnswersAlike executor.plan := by
    intro fieldPlan hhas hlocalField
    rw [hremote fieldPlan hhas] at hlocalField
    cases hlocalField
  have hvalid := executor.registry.validate_of_remote hlocal
  have hfinishes : (executor.start (.value (.object data))).Finishes :=
    Execution.completeValue_finishes (fun object hobject typeHint trail ↦
      Execution.completeFields_finishes hremote _ (fun _ hmem ↦ QueryPlan.has_root hmem) object
        hobject 0 typeHint trail .empty rfl) _ _ _ hfree
  obtain ⟨⟨value, work⟩, _, hpayload, -, hnone⟩ := hfinishes { world := world' } trivial
  have hnothing : Memo.Transparent executor.execution executor.plan [] := .nil
  have hpayloadAlike := start_alike hplan hanswers (.value (.object data))
  have hrecordAlike := start_alike hplan hanswers (.entity executor.plan.rootKey)
  -- From the payload to the payload without reuse, to the record without reuse, to the record.
  obtain ⟨⟨_, again⟩, _, hforgetful, rfl, hagain⟩ :=
    hpayloadAlike.of_ok hnothing hpayload { world }
  rw [← start_reads hremote hroot htypename hstored hfree] at hforgetful
  obtain ⟨⟨_, found⟩, _, hrecord, rfl, hfound⟩ :=
    hrecordAlike.of_ok_right hforgetful (s := { world }) hnothing
  have hfaults : work.faults = found.faults := hagain.faults.trans hfound.faults.symm
  have hnone' : found.deferred = [] := by
    have hempty : again.deferred = [] :=
      List.forall₂_nil_left_iff.1 (hnone ▸ hagain.deferred)
    exact List.forall₂_nil_right_iff.1 (hempty ▸ hfound.deferred)
  refine ⟨_, execute_of_start hvalid hrecord hnone', ?_⟩
  rw [execute_of_start hvalid hpayload hnone, hfaults]

end Executor

end GraphCache
