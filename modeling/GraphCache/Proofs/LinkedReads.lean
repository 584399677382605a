import GraphCache.Proofs.ServedRecords
import GraphCache.Proofs.StoredParts

/-!
# Reading from linked records

When a plan without local fields is read from records in which every reference leads to a record of
the cache, no entity is missing. Whatever the values that leaves are read from have in common is
found in the response, provided that it passes from the members of lists and objects to these.

## Main definitions

* `QueryPlan.Delivers`: a property of response data that passes from the leaves of a plan upwards.
* `Work.Confined`: a work that leaves nothing for later and reports no other errors than those that
  are allowed.

## Main results

* `Execution.completeFields_delivers`: completing a linked record succeeds and finds all entities.
* `Executor.execute_delivers`: so does an execution, and its data have the property.
-/

namespace GraphCache

variable {World : Type}

/-- A property that the data of responses to a plan have, if references in the cache are open under
the names that are shown: leaves have it, and it passes from members to lists and objects. -/
structure QueryPlan.Delivers (plan : QueryPlan) (vars : Object) (shown : String → Prop)
    (yields : Json → Prop) : Prop where
  /-- A field without a value has the property. -/
  null : yields .null
  /-- The name of a type has the property. -/
  string : ∀ text, yields (.string text)
  /-- What passes for a leaf has the property. -/
  leaf : ∀ field, plan.Has (.leaf field) → ∀ stored : Json,
    (shown (field.storageNameFor vars) → stored.RefersOpenly) →
      stored.containsReference = false → yields stored
  /-- The property passes from the items to the list. -/
  array : ∀ items, (∀ item ∈ items, yields item) → yields (.array items)
  /-- The property passes from the values of fields to the object. -/
  object : ∀ object : Object, (∀ entry ∈ object, yields entry.2 ∧
      ∃ fieldPlan, plan.Has fieldPlan ∧ fieldPlan.field.responseKey = entry.1) →
    yields (.object object)

/-- The work of a completion that defers nothing and reports only errors that are allowed. -/
structure Work.Confined (allowed : FieldError → Prop) (work : Work World) : Prop where
  /-- Nothing is left for later. -/
  deferred : work.deferred = []
  /-- All errors are allowed. -/
  allowed : ∀ fault ∈ work.faults, allowed fault.error

namespace Work.Confined

variable {allowed : FieldError → Prop}

theorem none : (Work.none : Work World).Confined allowed :=
  ⟨rfl, List.forall_mem_nil _⟩

theorem ofFault (trail : Trail) {error : FieldError} (h : allowed error) :
    (Work.ofFault trail error : Work World).Confined allowed :=
  ⟨rfl, List.forall_mem_singleton.2 h⟩

theorem append {a b : Work World} (ha : a.Confined allowed) (hb : b.Confined allowed) :
    (a ++ b).Confined allowed :=
  ⟨by rw [deferred_append, ha.deferred, hb.deferred, List.append_nil],
    List.forall_mem_append.2 ⟨ha.allowed, hb.allowed⟩⟩

end Work.Confined

/-- No entity is missing. -/
def FieldError.FindsEntity (error : FieldError) : Prop :=
  ∀ key, error ≠ .missingEntity key

/-- A reference that leads to no record refers to a key without one. -/
theorem Snapshot.reference?_of_resolve_missing {snapshot : Snapshot} {value : Json} {key : String}
    (h : snapshot.resolve value = .missing key) :
    value.reference? = some key ∧ Dict.get? snapshot key = none := by
  unfold resolve at h
  split at h
  · cases h
  · next hreference =>
    split at h
    · cases h
    · next habsent =>
      obtain rfl := Resolved.missing.inj h
      exact ⟨hreference, habsent⟩

/-- All objects that are kept for reuse have the property. -/
def Memo.Yields (yields : Json → Prop) (memo : Memo) : Prop :=
  ∀ key object, memo.find? key = some (some object) → yields (.object object)

theorem Memo.Yields.nil {yields : Json → Prop} : Memo.Yields yields [] := by
  simp [Memo.Yields, Memo.find?]

theorem Memo.Yields.cons {yields : Json → Prop} {memo : Memo} (h : memo.Yields yields)
    (known : String × Nat) {entry : Option Object}
    (hentry : ∀ object, entry = some object → yields (.object object)) :
    Memo.Yields yields ((known, entry) :: memo) := by
  intro key object hfind
  rw [find?_cons] at hfind
  split at hfind
  · exact hentry object (Option.some.inj hfind)
  · exact h key object hfind

/-- An object under construction for fields of a plan has values with the property so far, and all
of its work is confined. -/
structure Assembler.Yields (plan : QueryPlan) (yields : Json → Prop) (assembler : Assembler World) :
    Prop where
  /-- The fields have the property, under response keys of the plan. -/
  object : ∀ entry ∈ assembler.object, yields entry.2 ∧
    ∃ fieldPlan, plan.Has fieldPlan ∧ fieldPlan.field.responseKey = entry.1
  /-- No entity is missing. -/
  pending : ∀ entry ∈ assembler.pending, entry.2.Confined FieldError.FindsEntity

namespace Assembler.Yields

variable {plan : QueryPlan} {yields : Json → Prop} {assembler : Assembler World}

theorem empty : (Assembler.empty : Assembler World).Yields plan yields :=
  ⟨List.forall_mem_nil _, List.forall_mem_nil _⟩

theorem insert (h : assembler.Yields plan yields) {fieldPlan : FieldPlan}
    (hhas : plan.Has fieldPlan) {value : Json} (hvalue : yields value) {work : Work World}
    (hwork : work.Confined FieldError.FindsEntity) :
    (assembler.insert fieldPlan.field.responseKey value work).1.Yields plan yields := by
  constructor
  · intro entry hentry
    rcases Dict.eq_or_mem_of_mem_insert hentry with rfl | hentry
    · exact ⟨hvalue, fieldPlan, hhas, rfl⟩
    · exact h.object entry hentry
  · intro entry hentry
    rcases Assembler.mem_pending_insert hentry with ⟨hentry, -⟩ | rfl
    · exact h.pending entry hentry
    · exact hwork

theorem work (h : assembler.Yields plan yields) :
    assembler.work.Confined FieldError.FindsEntity := by
  constructor
  · rw [work_deferred]
    exact List.flatMap_eq_nil_iff.2 fun entry hentry ↦ (h.pending entry hentry).deferred
  · intro fault hfault
    rw [work_faults] at hfault
    obtain ⟨entry, hentry, hfault⟩ := List.mem_flatMap.1 hfault
    exact (h.pending entry hentry).allowed fault hfault

end Assembler.Yields

/-- A completion succeeds with a value that has a property, defers nothing and finds all entities,
provided that the objects that are kept for reuse have a property. -/
def Run.Delivers {α : Type} (run : Run World (Completed World α)) (yields : Json → Prop)
    (property : α → Prop) : Prop :=
  run.Achieves (Memo.Yields yields) fun completed =>
    property completed.1 ∧ completed.2.Confined FieldError.FindsEntity

namespace Execution

variable {execution : Execution World} {plan : QueryPlan} {shown : String → Prop}
  {yields : Json → Prop}

theorem failed_delivers (hnull : yields .null) (trail : Trail) {error : FieldError}
    (herror : error.FindsEntity) :
    (failed trail error : Run World (Completed World Json)).Delivers yields yields :=
  .pure ⟨hnull, .ofFault trail herror⟩

/-- An entity delivers if expanding its record does; an object that is kept has the property. -/
theorem completeEntity_delivers {id : Nat} {expand : Expand World} {key : String} {record : Object}
    {trail : Trail}
    (hexpand : (expand record .record none trail).Delivers yields fun object =>
      yields (.object object)) :
    (completeEntity id expand key record trail).Delivers yields yields := by
  intro state hmemo
  cases hknown : state.reusable? (key, id) with
  | some object =>
    exact ⟨_, _, completeEntity_of_known hknown expand record trail, hmemo,
      hmemo _ _ (RunState.reusable?_eq_some_iff.1 hknown), .none⟩
  | none =>
    obtain ⟨⟨object, work⟩, state', hrun, hmemo', hobject, hwork⟩ := hexpand state hmemo
    rw [completeEntity_of_unknown hknown, hrun]
    refine ⟨_, _, rfl, ?_, hobject, hwork⟩
    split
    · refine hmemo'.cons _ fun kept hkept ↦ ?_
      split at hkept
      · exact Option.some.inj hkept ▸ hobject
      · cases hkept
    · exact hmemo'

section Values

variable {id : Nat} {expand : Expand World}
  (hdelivers : plan.Delivers execution.variableValues shown yields)
  (hstore : execution.store.Linked execution.store.HasKey shown)
  (hexpand : ∀ record : Object,
    (Json.object record).Everywhere (Json.Linked execution.store.HasKey shown) →
      ∀ trail, (expand record .record none trail).Delivers yields fun object =>
        yields (.object object))

include hdelivers hstore hexpand

-- Each theorem of the block needs the assumptions of the others.
set_option linter.unusedSectionVars false in
mutual

/-- A linked value of a field with nested selections delivers. -/
theorem completeValue_delivers (trail : Trail) (stored : Json)
    (h : stored.Everywhere (Json.Linked execution.store.HasKey shown)) :
    (execution.completeValue id expand .record none trail stored).Delivers yields yields := by
  cases stored with
  | null => exact .pure ⟨hdelivers.null, .none⟩
  | bool _ | number _ | string _ => exact failed_delivers hdelivers.null trail nofun
  | array items =>
    rw [completeValue]
    refine Run.Achieves.bind
      (completeItems_delivers trail 0 items (Json.everywhere_array_iff.1 h).2) fun _ hitems ↦ ?_
    exact .pure ⟨hdelivers.array _ hitems.1, hitems.2⟩
  | object object =>
    rw [completeValue]
    cases hresolve : execution.store.resolve (.object object) with
    | entity key record =>
      refine completeEntity_delivers (hexpand record ?_ trail)
      exact (hstore.of_get? (Snapshot.get?_of_resolve hresolve)).everywhere
    | missing key =>
      obtain ⟨hreference, habsent⟩ := Snapshot.reference?_of_resolve_missing hresolve
      have hpresent := h.self.refers key hreference
      simp [Snapshot.HasKey, habsent] at hpresent
    | notReference => exact Run.Achieves.bind (hexpand object h trail) fun _ hobject ↦ .pure hobject

theorem completeItems_delivers (trail : Trail) (position : Nat) (items : List Json)
    (h : ∀ item ∈ items, item.Everywhere (Json.Linked execution.store.HasKey shown)) :
    (execution.completeItems id expand .record none trail position items).Delivers yields
      fun values => ∀ value ∈ values, yields value := by
  cases items with
  | nil => exact .pure ⟨List.forall_mem_nil _, .none⟩
  | cons item rest =>
    obtain ⟨hitem, hrest⟩ := List.forall_mem_cons.1 h
    rw [completeItems]
    refine Run.Achieves.bind (completeValue_delivers _ item hitem) fun _ hfirst ↦ ?_
    refine Run.Achieves.bind (completeItems_delivers trail _ rest hrest) fun _ hothers ↦ ?_
    exact .pure ⟨List.forall_mem_cons.2 ⟨hfirst.1, hothers.1⟩, hfirst.2.append hothers.2⟩

end

end Values

section Fields

variable (hdelivers : plan.Delivers execution.variableValues shown yields)
  (hstore : execution.store.Linked execution.store.HasKey shown)
  (hremote : ∀ fieldPlan, plan.Has fieldPlan → fieldPlan.field.isLocal = false)

include hdelivers hstore hremote

-- Each theorem of the block needs the assumptions of the others.
set_option linter.unusedSectionVars false in
mutual

/-- A field of a linked record delivers. -/
theorem completeField_delivers (fieldPlan : FieldPlan) (hhas : plan.Has fieldPlan)
    {record : Object}
    (h : (Json.object record).Everywhere (Json.Linked execution.store.HasKey shown))
    (known : Option String) (trail : Trail) :
    (execution.completeField fieldPlan record .record known trail).Delivers yields yields := by
  cases hfound : execution.remoteValue? fieldPlan.field record .record with
  | none =>
    rw [completeField_of_missing _ (hremote fieldPlan hhas) hfound]
    split
    · exact .pure ⟨hdelivers.string _, .none⟩
    · exact failed_delivers hdelivers.null trail nofun
  | some stored =>
    have hentry := Dict.mem_of_get? hfound
    rw [completeField_of_value _ (hremote fieldPlan hhas) hfound]
    cases fieldPlan with
    | leaf field =>
      rw [completeFound, completeLeaf]
      split
      · exact failed_delivers hdelivers.null trail nofun
      · next hcontains =>
        refine .pure ⟨hdelivers.leaf field hhas stored (fun hshown ↦ ?_) ?_, .none⟩
        · exact h.self.shows record rfl _ hentry hshown
        · simpa using hcontains
    | nested field id fields =>
      refine completeValue_delivers hdelivers hstore (fun inner hinner trail ↦ ?_) trail stored
        ((Json.everywhere_object_iff.1 h).2 _ hentry)
      exact completeFields_delivers fields (fun _ hmem ↦ hhas.inner hmem) hinner 0 none trail
        .empty .empty

/-- The fields of a linked record deliver. -/
theorem completeFields_delivers (plans : List FieldPlan)
    (hplans : ∀ fieldPlan ∈ plans, plan.Has fieldPlan) {record : Object}
    (h : (Json.object record).Everywhere (Json.Linked execution.store.HasKey shown))
    (position : Nat) (typeHint : Option String) (trail : Trail) (assembler : Assembler World)
    (hassembler : assembler.Yields plan yields) :
    (execution.completeFields plans position record .record typeHint trail assembler).Delivers
      yields fun object => yields (.object object) := by
  cases plans with
  | nil =>
    rw [completeFields]
    exact .pure ⟨hdelivers.object _ hassembler.object, hassembler.work⟩
  | cons fieldPlan rest =>
    obtain ⟨hhas, hrest⟩ := List.forall_mem_cons.1 hplans
    rw [completeFields]
    split
    · refine Run.Achieves.bind (completeField_delivers fieldPlan hhas h _ _)
        fun ⟨value, work⟩ hfield ↦ ?_
      exact completeFields_delivers rest hrest h _ typeHint trail _
        (hassembler.insert hhas hfield.1 hfield.2)
    · exact completeFields_delivers rest hrest h _ typeHint trail _ hassembler

end

end Fields

end Execution

namespace Executor

variable {executor : Executor World} {shown : String → Prop} {yields : Json → Prop}

/-- A plan without local fields that is read from its root record in a linked cache gets a response
whose data have the property, and finds all entities. -/
theorem execute_delivers (hlocal : executor.plan.hasLocalField = false)
    (hdelivers : executor.plan.Delivers executor.execution.variableValues shown yields)
    (hstore : executor.store.Linked executor.store.HasKey shown)
    (world : World) :
    ∃ data errors, (executor.execute (.entity executor.plan.rootKey) world).1
        = .ok ⟨some data, errors⟩ ∧ yields data ∧
      ∀ error ∈ errors, error.code? ≠ some "MISSING_ENTITY" := by
  have hremote : ∀ fieldPlan, executor.plan.Has fieldPlan → fieldPlan.field.isLocal = false :=
    fun _ hhas ↦ QueryPlan.isLocal_of_hasLocalField hlocal hhas
  have hcomplete : ∀ record : Object,
      Object.Linked executor.store.HasKey shown record →
        (executor.execution.completeObject executor.plan.selection.fields record .record
          (some executor.plan.rootType) {}).Delivers yields fun object => yields (.object object) :=
    fun record hrecord ↦ Execution.completeFields_delivers hdelivers hstore hremote _
      (fun _ hmem ↦ QueryPlan.has_root hmem) hrecord.everywhere 0 _ {} .empty .empty
  have hstart : (executor.start (.entity executor.plan.rootKey)).Delivers yields yields := by
    rw [start]
    cases hroot : Dict.get? executor.store executor.plan.rootKey with
    | some record =>
      exact Run.Achieves.bind (hcomplete record (hstore.of_get? hroot)) fun _ h ↦ .pure h
    | none =>
      simp only [if_true]
      exact Run.Achieves.bind (hcomplete [] (List.forall_mem_nil _)) fun _ h ↦ .pure h
  obtain ⟨⟨data, work⟩, state, hrun, -, hdata, hwork⟩ := hstart { world } .nil
  refine ⟨data, _, execute_of_start (executor.registry.validate_of_remote hlocal) hrun
    hwork.deferred, hdata, fun error herror ↦ ?_⟩
  obtain ⟨fault, hfault, rfl⟩ := List.mem_map.1 herror
  rw [Fault.toGraphQLError, FieldError.code?_toGraphQLError, ne_eq, Option.some.injEq,
    FieldError.code_eq_missingEntity_iff]
  rintro ⟨key, hkey⟩
  exact hwork.allowed fault ((List.mergeSort_perm _ _).subset hfault) key hkey

end Executor

end GraphCache
