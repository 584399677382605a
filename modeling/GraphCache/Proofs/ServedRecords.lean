import GraphCache.Proofs.ReadBack

/-!
# Records from which nothing is missing

A record serves a selection if each field that is selected from it is stored, and what is stored
serves the nested selections in turn, through lists and through references into the cache. Reading
from such a record misses no field.

## Main definitions

* `Snapshot.Finds`: what a stored object refers to has a property.
* `FieldPlan.Serves`, `FieldPlan.listServes`: a stored value serves a field, a record the listed
  fields.
* `Work.Settled`: a work that reports no missing field and leaves nothing for later.

## Main results

* `Execution.completeFields_settles`: completing a record that serves the fields settles them.
* `Executor.execute_settled`: the response that is read from a record that serves the plan reports
  no missing field.
-/

namespace GraphCache

namespace Json

mutual

theorem EveryObject.mono {p q : Object → Prop} (himp : ∀ object, p object → q object)
    (value : Json) (h : value.EveryObject p) : value.EveryObject q := by
  cases value with
  | array items => exact EveryObjectIn.mono himp items h
  | object fields => exact himp fields h
  | null => trivial
  | bool _ => trivial
  | number _ => trivial
  | string _ => trivial

theorem EveryObjectIn.mono {p q : Object → Prop} (himp : ∀ object, p object → q object)
    (items : List Json) (h : EveryObjectIn p items) : EveryObjectIn q items := by
  cases items with
  | nil => trivial
  | cons item rest =>
    exact ⟨EveryObject.mono himp item h.1, EveryObjectIn.mono himp rest h.2⟩

end

end Json

/-- What is found where a stored object is read has a property: the record that it refers to, or the
object itself. -/
def Snapshot.Finds (snapshot : Snapshot) (p : Object → Prop) (stored : Object) : Prop :=
  match snapshot.resolve (.object stored) with
  | .entity _ record => p record
  | .notReference => p stored
  | .missing _ => False

namespace FieldPlan

variable (snapshot : Snapshot) (vars : Object)

mutual

/-- What is stored for a field serves the nested selections. -/
def Serves : FieldPlan → Json → Prop
  | .leaf _, _ => True
  | .nested _ _ fields, stored => stored.EveryObject fun object => snapshot.Finds
      (listServes fields) object

/-- In a record the selected ones of the listed fields are stored, and what is stored serves. -/
def listServes : List FieldPlan → Object → Prop
  | [], _ => True
  | plan :: plans, record =>
    (plan.field.isSelected vars (typename? record) = true →
        ∃ stored, Dict.get? record (plan.field.storageNameFor vars) = some stored ∧
          Serves plan stored) ∧
      listServes plans record

end

variable {snapshot vars}

theorem listServes_iff {plans : List FieldPlan} {record : Object} :
    listServes snapshot vars plans record ↔
      ∀ plan ∈ plans, plan.field.isSelected vars (typename? record) = true →
        ∃ stored, Dict.get? record (plan.field.storageNameFor vars) = some stored ∧
          plan.Serves snapshot vars stored := by
  induction plans with
  | nil => simp [listServes]
  | cons plan plans ih => simp [listServes, ih]

end FieldPlan

variable {World : Type}

/-- The work of a completion that defers nothing and misses no field. -/
structure Work.Settled (work : Work World) : Prop where
  /-- Nothing is left for later. -/
  deferred : work.deferred = []
  /-- No field is missing. -/
  present : ∀ fault ∈ work.faults, ∀ name, fault.error ≠ .missingField name

namespace Work.Settled

theorem none : (Work.none : Work World).Settled :=
  ⟨rfl, List.forall_mem_nil _⟩

theorem ofFault (trail : Trail) {error : FieldError} (h : ∀ name, error ≠ .missingField name) :
    (Work.ofFault trail error : Work World).Settled :=
  ⟨rfl, List.forall_mem_singleton.2 h⟩

theorem append {a b : Work World} (ha : a.Settled) (hb : b.Settled) : (a ++ b).Settled :=
  ⟨by rw [deferred_append, ha.deferred, hb.deferred, List.append_nil],
    List.forall_mem_append.2 ⟨ha.present, hb.present⟩⟩

end Work.Settled

namespace Assembler

/-- The fields of an object under construction have been settled. -/
def Settled (assembler : Assembler World) : Prop :=
  ∀ entry ∈ assembler.pending, entry.2.Settled

theorem Settled.insert {assembler : Assembler World} (h : assembler.Settled) (key : String)
    (value : Json) {work : Work World} (hwork : work.Settled) :
    (assembler.insert key value work).1.Settled := by
  intro entry hentry
  simp only [Assembler.insert] at hentry
  split at hentry
  · exact h entry (List.mem_of_mem_filter hentry)
  · rcases List.mem_append.1 hentry with hentry | hentry
    · exact h entry (List.mem_of_mem_filter hentry)
    · rw [List.mem_singleton.1 hentry]
      exact hwork

theorem Settled.work {assembler : Assembler World} (h : assembler.Settled) :
    assembler.work.Settled := by
  constructor
  · rw [work_deferred]
    exact List.flatMap_eq_nil_iff.2 fun entry hentry ↦ (h entry hentry).deferred
  · intro fault hfault
    rw [work_faults] at hfault
    obtain ⟨entry, hentry, hfault⟩ := List.mem_flatMap.1 hfault
    exact (h entry hentry).present fault hfault

end Assembler

/-- A completion succeeds, defers nothing and misses no field. -/
def Run.Settles {α : Type} (run : Run World (Completed World α)) : Prop :=
  run.Achieves (fun _ => True) fun completed => completed.2.Settled

namespace Execution

variable {execution : Execution World}

theorem completeLeaf_settles (value : Json) (trail : Trail) :
    (completeLeaf value trail : Run World (Completed World Json)).Settles := by
  rw [completeLeaf]
  split
  · exact .pure (.ofFault _ fun _ ↦ FieldError.noConfusion)
  · exact .pure .none

/-- An entity is settled if expanding its record is; an object that is known leaves no work. -/
theorem completeEntity_settles {id : Nat} {expand : Expand World} {key : String} {record : Object}
    {trail : Trail} (hexpand : (expand record .record none trail).Settles) :
    (completeEntity id expand key record trail).Settles := by
  intro state _
  cases hknown : state.reusable? (key, id) with
  | some object =>
    exact ⟨_, _, completeEntity_of_known hknown expand record trail, trivial, .none⟩
  | none =>
    obtain ⟨⟨object, work⟩, state', hrun, -, hwork⟩ := hexpand state trivial
    rw [completeEntity_of_unknown hknown, hrun]
    exact ⟨_, _, rfl, trivial, hwork⟩

section Values

variable {id : Nat} {expand : Expand World} {p : Object → Prop}
  (hexpand : ∀ record, p record → ∀ trail, (expand record .record none trail).Settles)

include hexpand

-- Each theorem of the block needs the assumptions of the others.
set_option linter.unusedSectionVars false in
mutual

theorem completeValue_settles (trail : Trail) (stored : Json)
    (h : stored.EveryObject (execution.store.Finds p)) :
    (execution.completeValue id expand .record none trail stored).Settles := by
  cases stored with
  | null => exact .pure .none
  | bool _ => exact .pure (.ofFault _ nofun)
  | number _ => exact .pure (.ofFault _ nofun)
  | string _ => exact .pure (.ofFault _ nofun)
  | array items =>
    rw [completeValue]
    exact Run.Achieves.bind (completeItems_settles trail 0 items h) fun _ hwork ↦ .pure hwork
  | object object =>
    have hfinds : execution.store.Finds p object := h
    rw [completeValue]
    rw [Snapshot.Finds] at hfinds
    split at hfinds
    · next key record hresolve =>
      rw [hresolve]
      exact completeEntity_settles (hexpand record hfinds trail)
    · next hresolve =>
      rw [hresolve]
      exact Run.Achieves.bind (hexpand object hfinds trail) fun _ hwork ↦ .pure hwork
    · exact hfinds.elim

theorem completeItems_settles (trail : Trail) (position : Nat) (items : List Json)
    (h : Json.EveryObjectIn (execution.store.Finds p) items) :
    (execution.completeItems id expand .record none trail position items).Settles := by
  cases items with
  | nil => exact .pure .none
  | cons item rest =>
    rw [completeItems]
    refine Run.Achieves.bind (completeValue_settles _ item h.1) fun _ hitem ↦ ?_
    refine Run.Achieves.bind (completeItems_settles trail _ rest h.2) fun _ hrest ↦ ?_
    exact .pure (hitem.append hrest)

end

end Values

section Fields

variable {plan : QueryPlan}
  (hremote : ∀ fieldPlan, plan.Has fieldPlan → fieldPlan.field.isLocal = false)

include hremote

-- Each theorem of the block needs the assumptions of the others.
set_option linter.unusedSectionVars false in
mutual

/-- What is stored for a field and serves it is settled. -/
theorem completeField_settles (fieldPlan : FieldPlan) (hhas : plan.Has fieldPlan)
    {record : Object} {stored : Json}
    (hstored : Dict.get? record (fieldPlan.field.storageNameFor execution.variableValues)
      = some stored)
    (hserves : fieldPlan.Serves execution.store execution.variableValues stored)
    (known : Option String) (trail : Trail) :
    (execution.completeField fieldPlan record .record known trail).Settles := by
  have hfound : execution.remoteValue? fieldPlan.field record .record = some stored := hstored
  rw [completeField_of_value _ (hremote fieldPlan hhas) hfound]
  cases fieldPlan with
  | leaf field => exact completeLeaf_settles stored trail
  | nested field id fields =>
    exact completeValue_settles (fun record hrecord trail ↦ completeFields_settles fields
      (fun _ hmem ↦ hhas.inner hmem) hrecord 0 none trail .empty (List.forall_mem_nil _)) trail
      stored hserves

/-- The fields of a record that serves them are settled. -/
theorem completeFields_settles (plans : List FieldPlan)
    (hplans : ∀ fieldPlan ∈ plans, plan.Has fieldPlan) {record : Object}
    (hserves : FieldPlan.listServes execution.store execution.variableValues plans record)
    (position : Nat) (typeHint : Option String) (trail : Trail) (assembler : Assembler World)
    (hassembler : assembler.Settled) :
    (execution.completeFields plans position record .record typeHint trail assembler).Settles := by
  cases plans with
  | nil =>
    rw [completeFields]
    exact .pure hassembler.work
  | cons fieldPlan rest =>
    obtain ⟨hhas, hrest⟩ := List.forall_mem_cons.1 hplans
    rw [completeFields]
    split
    · next hselected =>
      obtain ⟨stored, hstored, hfield⟩ := hserves.1 hselected
      refine Run.Achieves.bind (completeField_settles fieldPlan hhas hstored hfield _ _)
        fun ⟨value, work⟩ hwork ↦ ?_
      exact completeFields_settles rest hrest hserves.2 _ typeHint trail _
        (hassembler.insert _ value hwork)
    · exact completeFields_settles rest hrest hserves.2 _ typeHint trail _ hassembler

end

end Fields

end Execution

/-- The code of an error that is reported is that of its cause. -/
theorem FieldError.code?_toGraphQLError (error : FieldError) (path : Path) :
    (error.toGraphQLError path).code? = some error.code := by
  cases error <;>
    simp [toGraphQLError, GraphQLError.withCode, GraphQLError.code?, details, Dict.contains,
      Dict.get?, Dict.insert, GraphQLError.codeKey, Json.string?]

/-- Only missing entities have their code. -/
theorem FieldError.code_eq_missingEntity_iff (error : FieldError) :
    error.code = "MISSING_ENTITY" ↔ ∃ key, error = .missingEntity key := by
  cases error <;> simp [code]

/-- Only missing fields have their code. -/
theorem FieldError.code_ne_of_ne_missingField {error : FieldError}
    (h : ∀ name, error ≠ .missingField name) : error.code ≠ "MISSING_FIELD" := by
  cases error with
  | missingField name => exact absurd rfl (h name)
  | _ => simp [code]

namespace Executor

variable {executor : Executor World}

/-- A plan without local fields that is read from a record that serves it succeeds, and no field is
reported as missing. -/
theorem execute_settled (hlocal : executor.plan.hasLocalField = false) {root : Object}
    (hroot : Dict.get? executor.store executor.plan.rootKey = some root)
    (hserves : FieldPlan.listServes executor.store executor.execution.variableValues
      executor.plan.selection.fields root) (world : World) :
    ∃ response, (executor.execute (.entity executor.plan.rootKey) world).1 = .ok response ∧
      ∀ error ∈ response.errors, error.code? ≠ some "MISSING_FIELD" := by
  have hremote : ∀ fieldPlan, executor.plan.Has fieldPlan → fieldPlan.field.isLocal = false :=
    fun _ hhas ↦ QueryPlan.isLocal_of_hasLocalField hlocal hhas
  have hsettles : (executor.start (.entity executor.plan.rootKey)).Settles := by
    simp only [start, hroot]
    refine Run.Achieves.bind ?_ fun _ hwork ↦ .pure hwork
    exact Execution.completeFields_settles hremote _ (fun _ hmem ↦ QueryPlan.has_root hmem) hserves
      0 _ {} .empty (List.forall_mem_nil _)
  obtain ⟨⟨data, work⟩, state, hstart, -, hwork⟩ := hsettles { world } trivial
  refine ⟨_, execute_of_start (executor.registry.validate_of_remote hlocal) hstart hwork.deferred,
    fun error herror ↦ ?_⟩
  obtain ⟨fault, hfault, rfl⟩ := List.mem_map.1 herror
  rw [Fault.toGraphQLError, FieldError.code?_toGraphQLError, ne_eq, Option.some.injEq]
  exact FieldError.code_ne_of_ne_missingField
    (hwork.present fault ((List.mergeSort_perm _ _).subset hfault))

end Executor

end GraphCache
