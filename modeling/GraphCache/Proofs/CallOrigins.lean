import GraphCache.Proofs.CallTrees
import GraphCache.Proofs.Sameness

/-!
# Where calls and their work come from

The calls of an execution follow the plan: from a selection set an execution gets only to the nested
selections of one of its fields, whatever records are met on the way. What a call leaves behind
comes from the fields that were evaluated in it: a deferred field from the evaluation of the same
field, and a local field without a resolver from an evaluation that found none.

## Main definitions

* `Reach`, `Reach.Closed`: selection sets that an execution may get to.
* `Evaluation.Follows`, `Call.Follows`: evaluations and calls that stay within them.
* `Evaluation.Fails`: an evaluation finds no resolver.
* `Work.From`: work that comes from the evaluations among some events.
* `QueryPlan.Enters`: the selection sets that an execution of a plan may get to.

## Main results

* `Execution.Unrolls.follows`: calls stay within the selection sets that they can reach.
* `Execution.Unrolls.work_from`: what a call leaves behind comes from evaluations in it.
* `Executor.Starts.follows`, `Executor.Starts.work_from`: so it is for the first pass.
-/

namespace GraphCache

variable {World : Type}

/-- Selection sets that an execution may get to, each with the type that is known from the outside
then. -/
abbrev Reach :=
  Option String → SelectionPlan → Prop

/-- Whatever is read, an execution gets no further. -/
structure Reach.Closed (reach : Reach) : Prop where
  /-- Of the record of a reference nothing is known from the outside. -/
  record : ∀ {typeHint : Option String} {selection : SelectionPlan},
    reach typeHint selection → reach none selection
  /-- A field leads to its nested selections. -/
  nested : ∀ {typeHint : Option String} {outer inner : SelectionPlan} {plan : FieldPlan},
    reach typeHint outer → plan ∈ outer.fields → plan.selection? = some inner → reach none inner

variable (execution : Execution World)

/-- The evaluation is that of a selected field of one of the selection sets. -/
def Evaluation.Follows (reach : Reach) (evaluation : Evaluation) : Prop :=
  ∃ typeHint fields, reach typeHint ⟨evaluation.selection, fields⟩ ∧ evaluation.plan ∈ fields ∧
    evaluation.plan.field.isSelected execution.variableValues (typename? evaluation.object) = true ∧
    evaluation.known
      = Execution.knownType evaluation.plan.field evaluation.object typeHint

/-- The nested selections of a field are one of the selection sets. -/
def FieldPlan.LeadsInto (reach : Reach) (plan : FieldPlan) : Prop :=
  ∀ inner, plan.selection? = some inner → reach none inner

/-- The call stays within the selection sets. -/
def Call.Follows (reach : Reach) : Call World → Prop
  | .fields number plans _ _ _ typeHint _ _ => ∃ done, reach typeHint ⟨number, done ++ plans⟩
  | .field evaluation _ => evaluation.Follows execution reach
  | .value selection _ typeHint _ _ => reach typeHint selection
  | .items selection _ typeHint _ _ _ => reach typeHint selection
  | .resolved plan _ _ => plan.LeadsInto reach
  | .settle deferred => deferred.plan.LeadsInto reach

variable {execution} {reach : Reach}

theorem Evaluation.Follows.leadsInto (hreach : reach.Closed) {evaluation : Evaluation}
    (h : evaluation.Follows execution reach) : evaluation.plan.LeadsInto reach := by
  obtain ⟨typeHint, fields, hfields, hmem, -⟩ := h
  exact fun inner hinner ↦ hreach.nested hfields hmem hinner

namespace Execution

/-- All evaluations in a call that stays within some selection sets stay there. -/
theorem Unrolls.follows (hreach : reach.Closed) {call : Call World} {state : RunState World}
    {events : List Event} {outcome : Outcome World}
    (h : execution.Unrolls call state events outcome) (hcall : call.Follows execution reach) :
    ∀ evaluation, .evaluated evaluation ∈ events → evaluation.Follows execution reach := by
  have hown {own evaluation : Evaluation} (hown : own.Follows execution reach) {rest : List Event}
      (hrest : .evaluated evaluation ∈ rest → evaluation.Follows execution reach)
      (hmem : .evaluated evaluation ∈ Event.evaluated own :: rest) :
      evaluation.Follows execution reach := by
    rcases List.mem_cons.1 hmem with heq | hmem
    · cases heq
      exact hown
    · exact hrest hmem
  induction h with
  | fieldsNil | resolvedLeaf | null | scalar | missing | itemsNil | settleFailure => exact nofun
  | fieldsSkip _ _ ih =>
    obtain ⟨done, hdone⟩ := hcall
    exact ih ⟨done ++ [_], by simpa using hdone⟩
  | @fieldsCons _ plan _ _ _ _ _ _ _ _ _ _ _ _ _ _ hselected _ _ ihfield ihrest =>
    obtain ⟨done, hdone⟩ := hcall
    intro evaluation hmem
    rcases List.mem_append.1 hmem with hmem | hmem
    · exact ihfield ⟨_, _, hdone, by simp [evaluationOf], hselected, rfl⟩ evaluation hmem
    · exact ihrest ⟨done ++ [plan], by simpa using hdone⟩ evaluation hmem
  | fieldsAbort hselected _ ih =>
    obtain ⟨done, hdone⟩ := hcall
    exact ih ⟨_, _, hdone, by simp [evaluationOf], hselected, rfl⟩
  | typename | missingField | leaf | unresolved | failure | pending =>
    exact fun _ ↦ hown hcall nofun
  | nested _ _ hnested _ ih =>
    exact fun evaluation ↦ hown hcall (ih (hcall.leadsInto hreach _ hnested) evaluation)
  | answered _ _ _ _ ih =>
    exact fun evaluation ↦ hown hcall (ih (hcall.leadsInto hreach) evaluation)
  | resolvedNested hnested _ ih => exact ih (hcall _ hnested)
  | array _ ih | itemsAbort _ ih | settleOk _ _ ih => exact ih hcall
  | plain _ _ ih => exact ih ⟨[], hcall⟩
  | reuse => simp
  | expand _ _ _ ih =>
    intro evaluation hmem
    rcases List.mem_append.1 hmem with hmem | hmem
    · exact ih ⟨[], hreach.record hcall⟩ evaluation hmem
    · simp at hmem
  | expandAbort _ _ _ ih => exact ih ⟨[], hreach.record hcall⟩
  | itemsCons _ _ ihitem ihitems | itemsAbortRest _ _ ihitem ihitems =>
    intro evaluation hmem
    rcases List.mem_append.1 hmem with hmem | hmem
    · exact ihitem hcall evaluation hmem
    · exact ihitems hcall evaluation hmem

end Execution

/-! ### Work -/

variable (execution) in
/-- The field is local, and no resolver is found for it; this is what the fault says. -/
structure Evaluation.Fails (evaluation : Evaluation) (fault : Fault) : Prop where
  /-- The field is local. -/
  isLocal : evaluation.plan.field.isLocal = true
  /-- There is no resolver on the type that is taken for that of the object. -/
  resolver : execution.resolver? evaluation = none
  /-- The fault names the type and the field. -/
  fault_eq : fault = ⟨evaluation.trail,
    .unresolvedLocalField (execution.resolverType evaluation) evaluation.plan.field.name⟩

/-- A local field is reported to have no resolver. -/
def FieldError.IsUnresolved (error : FieldError) : Prop :=
  ∃ typeName field, error = .unresolvedLocalField typeName field

namespace Work

/-- The fields that were deferred, whether they wait or were replaced. -/
def allDeferred (work : Work World) : List (Deferred World) :=
  work.deferred ++ work.superseded

@[simp] theorem mem_allDeferred {work : Work World} {d : Deferred World} :
    d ∈ work.allDeferred ↔ d ∈ work.deferred ∨ d ∈ work.superseded :=
  List.mem_append

variable (execution) in
/-- Deferred fields come from evaluations of the same fields among the events, and so do faults of
local fields without a resolver; replaced fields count. -/
structure From (events : List Event) (work : Work World) : Prop where
  /-- Each deferred field was evaluated. -/
  deferred : ∀ d ∈ work.allDeferred,
    ∃ evaluation, .evaluated evaluation ∈ events ∧ evaluation.plan = d.plan
  /-- Each local field without a resolver was evaluated. -/
  faults : ∀ fault ∈ work.faults ++ work.droppedFaults, fault.error.IsUnresolved →
    ∃ evaluation, .evaluated evaluation ∈ events ∧ evaluation.Fails execution fault

namespace From

variable {events : List Event} {a b : Work World}

theorem none : (Work.none : Work World).From execution events :=
  ⟨nofun, nofun⟩

theorem ofFault {trail : Trail} {error : FieldError} (h : ¬ error.IsUnresolved) :
    (Work.ofFault trail error : Work World).From execution events := by
  refine ⟨nofun, fun fault hfault herror ↦ ?_⟩
  rw [List.mem_singleton.1 hfault] at herror
  exact absurd herror h

/-- Work of which every part is found in one of two works that come from the events. -/
theorem of_subset {c : Work World} (ha : a.From execution events) (hb : b.From execution events)
    (hdeferred : c.allDeferred ⊆ a.allDeferred ++ b.allDeferred)
    (hfaults : c.faults ++ c.droppedFaults
      ⊆ (a.faults ++ a.droppedFaults) ++ (b.faults ++ b.droppedFaults)) :
    c.From execution events where
  deferred d hd := (List.mem_append.1 (hdeferred hd)).elim (ha.deferred d) (hb.deferred d)
  faults fault hfault := (List.mem_append.1 (hfaults hfault)).elim (ha.faults fault)
    (hb.faults fault)

theorem append (ha : a.From execution events) (hb : b.From execution events) :
    (a ++ b).From execution events := by
  refine ha.of_subset hb ?_ ?_
  · have hsuperseded : (a ++ b).superseded = a.superseded ++ b.superseded := rfl
    intro d
    simp only [mem_allDeferred, deferred_append, hsuperseded, List.mem_append]
    tauto
  · have hdropped : (a ++ b).droppedFaults = a.droppedFaults ++ b.droppedFaults := rfl
    intro fault
    simp only [faults_append, hdropped, List.mem_append]
    tauto

theorem giveUp (h : a.From execution events) : a.giveUp.From execution events := by
  refine h.of_subset h ?_ ?_
  · intro d
    simp only [mem_allDeferred, Work.giveUp, List.mem_append, List.not_mem_nil]
    tauto
  · intro fault
    simp only [Work.giveUp, List.mem_append, List.not_mem_nil]
    tauto

theorem foldl {works : List (Work World)} (ha : a.From execution events)
    (h : ∀ work ∈ works, work.From execution events) :
    (works.foldl (· ++ ·) a).From execution events := by
  induction works generalizing a with
  | nil => exact ha
  | cons work works ih =>
    exact ih (ha.append (h work List.mem_cons_self))
      fun other hother ↦ h other (List.mem_cons_of_mem _ hother)

end From

end Work

namespace Assembler

variable (execution) in
/-- All work of an object under construction, that of replaced fields included, comes from the
events. -/
structure From (events : List Event) (assembler : Assembler World) : Prop where
  /-- So does the work of current fields. -/
  pending : ∀ entry ∈ assembler.pending, entry.2.From execution events
  /-- So does the work of replaced fields. -/
  replaced : ∀ work ∈ assembler.replaced, work.From execution events

namespace From

variable {events : List Event} {assembler : Assembler World}

theorem empty : (Assembler.empty : Assembler World).From execution events :=
  ⟨nofun, nofun⟩

theorem work (h : assembler.From execution events) : assembler.work.From execution events := by
  refine .append (.foldl .none ?_) (.foldl .none ?_)
  · intro work hwork
    obtain ⟨entry, hentry, rfl⟩ := List.mem_map.1 hwork
    exact h.pending entry hentry
  · intro work hwork
    obtain ⟨given, hgiven, rfl⟩ := List.mem_map.1 hwork
    exact (h.replaced given hgiven).giveUp

theorem insert (h : assembler.From execution events) (key : String) (value : Json)
    {work : Work World} (hwork : work.From execution events) :
    (assembler.insert key value work).1.From execution events := by
  constructor
  · intro entry hentry
    simp only [Assembler.insert] at hentry
    split at hentry
    · exact h.pending entry (List.mem_filter.1 hentry).1
    · rcases List.mem_append.1 hentry with hentry | hentry
      · exact h.pending entry (List.mem_filter.1 hentry).1
      · rw [List.mem_singleton.1 hentry]
        exact hwork
  · intro old hold
    rcases List.mem_append.1 hold with hold | hold
    · exact h.replaced old hold
    · have hget : Dict.get? assembler.pending key = some old := Option.mem_toList.1 hold
      exact h.pending _ (Dict.mem_of_get? hget)

end From

end Assembler

namespace Execution

variable (execution) in
/-- The work of the fields that were assembled before a call comes from the events. -/
def Begun (events : List Event) : Call World → Prop
  | .fields _ _ _ _ _ _ _ assembler => assembler.From execution events
  | _ => True

theorem failed_work {trail : Trail} {error : FieldError} {state state' : RunState World}
    {value : Json} {work : Work World}
    (h : failed trail error state = (.ok (value, work), state')) : work = .ofFault trail error := by
  cases h
  rfl

theorem missingEntity_work {key : String} {trail : Trail} {state state' : RunState World}
    {value : Json} {work : Work World}
    (h : execution.missingEntity key trail state = (.ok (value, work), state')) :
    work = .ofFault trail (.missingEntity key) := by
  rw [missingEntity] at h
  cases hpolicy : execution.missingEntities with
  | abort =>
    rw [hpolicy] at h
    cases h
  | nullify =>
    rw [hpolicy] at h
    exact failed_work h

/-- What a call leaves behind, if it does not fail, comes from evaluations in it or before it. -/
theorem Unrolls.work_from {call : Call World} {state : RunState World} {events : List Event}
    {outcome : Outcome World} (h : execution.Unrolls call state events outcome)
    {known : List Event} (hknown : events ⊆ known) (hbegun : execution.Begun known call)
    {value : Json} {work : Work World} {state' : RunState World}
    (houtcome : outcome = (.ok (value, work), state')) : work.From execution known := by
  induction h generalizing value work state' with
  | fieldsNil =>
    cases houtcome
    exact Assembler.From.work hbegun
  | fieldsSkip _ _ ih => exact ih hknown hbegun houtcome
  | fieldsCons _ _ _ ihfield ihrest =>
    obtain ⟨hfield, hrest⟩ := List.append_subset.1 hknown
    exact ihrest hrest (Assembler.From.insert hbegun _ _ (ihfield hfield trivial rfl)) houtcome
  | fieldsAbort | expandAbort | itemsAbort | itemsAbortRest => cases houtcome
  | typename | resolvedLeaf | null | reuse | itemsNil =>
    cases houtcome
    exact .none
  | missingField | failure | scalar | settleFailure =>
    rw [failed_work houtcome]
    exact .ofFault nofun
  | leaf =>
    rw [completeLeaf] at houtcome
    split at houtcome
    · rw [failed_work houtcome]
      exact .ofFault nofun
    · cases houtcome
      exact .none
  | nested _ _ _ _ ih | answered _ _ _ _ ih =>
    exact ih (List.cons_subset.1 hknown).2 trivial houtcome
  | @unresolved evaluation _ _ hlocal hresolver =>
    rw [failed_work houtcome]
    refine ⟨nofun, fun fault hfault _ ↦ ⟨evaluation, hknown List.mem_cons_self, ?_⟩⟩
    exact ⟨hlocal, hresolver, List.mem_singleton.1 hfault⟩
  | @pending evaluation =>
    cases houtcome
    refine ⟨fun d hd ↦ ⟨evaluation, hknown List.mem_cons_self, ?_⟩, nofun⟩
    rw [List.mem_singleton.1 hd]
  | resolvedNested _ _ ih | array _ ih | settleOk _ _ ih => exact ih hknown trivial houtcome
  | plain _ _ ih => exact ih hknown .empty houtcome
  | missing =>
    rw [missingEntity_work houtcome]
    exact .ofFault nofun
  | expand _ _ _ ih =>
    cases houtcome
    exact ih (List.append_subset.1 hknown).1 .empty rfl
  | itemsCons _ _ ihitem ihitems =>
    cases houtcome
    obtain ⟨hitem, hitems⟩ := List.append_subset.1 hknown
    exact (ihitem hitem trivial rfl).append (ihitems hitems trivial rfl)

end Execution

/-! ### The first pass -/

/-- The selection sets of a plan. Only for the root selection set the type is known from the
outside. -/
def QueryPlan.Enters (plan : QueryPlan) : Reach := fun typeHint selection =>
  selection ∈ plan.selection.selections ∧ (typeHint = none ∨ selection = plan.selection)

namespace QueryPlan

variable {plan : QueryPlan}

theorem enters_closed : Reach.Closed plan.Enters where
  record h := ⟨h.1, .inl rfl⟩
  nested {typeHint outer inner fieldPlan} h hmem hinner := by
    cases fieldPlan with
    | leaf field => cases hinner
    | nested field id fields =>
      cases hinner
      exact ⟨SelectionPlan.nested_mem_selections h.1 hmem, .inl rfl⟩

/-- A field of the plan leads to a selection set of the plan. -/
theorem Has.leadsInto {fieldPlan : FieldPlan} (h : plan.Has fieldPlan) :
    fieldPlan.LeadsInto plan.Enters := by
  obtain ⟨selection, hselection, hmem⟩ := h
  have henters : plan.Enters none selection := ⟨hselection, .inl rfl⟩
  exact fun inner hinner ↦ enters_closed.nested henters hmem hinner

end QueryPlan

/-- A field that is evaluated in an execution of a plan is one of its fields. -/
theorem Evaluation.Follows.has {plan : QueryPlan} {evaluation : Evaluation}
    (h : evaluation.Follows execution plan.Enters) : plan.Has evaluation.plan := by
  obtain ⟨typeHint, fields, henters, hmem, -⟩ := h
  exact QueryPlan.has_of_mem henters.1 hmem

namespace Executor

variable {executor : Executor World} {root : Root} {state : RunState World} {events : List Event}

/-- The fields that are evaluated in the first pass are fields of the plan. -/
theorem Starts.follows {outcome : Outcome World} (h : executor.Starts root state events outcome) :
    ∀ evaluation, .evaluated evaluation ∈ events →
      evaluation.Follows executor.execution executor.plan.Enters := by
  have hroot : executor.plan.Enters (some executor.plan.rootType) executor.plan.selection :=
    ⟨executor.plan.selection.self_mem_selections, .inr rfl⟩
  cases h with
  | record _ hfields => exact hfields.follows QueryPlan.enters_closed ⟨[], hroot⟩
  | missing => exact nofun
  | payload hvalue => exact hvalue.follows QueryPlan.enters_closed hroot

/-- What the first pass leaves behind comes from evaluations in it. -/
theorem Starts.work_from {completed : Completed World Json} {state' : RunState World}
    (h : executor.Starts root state events (.ok completed, state')) :
    completed.2.From executor.execution events := by
  generalize houtcome : ((.ok completed, state') : Outcome World) = outcome at h
  cases h with
  | record _ hfields => exact hfields.work_from (List.Subset.refl _) .empty houtcome.symm
  | missing =>
    rw [Execution.missingEntity_work houtcome.symm]
    exact .ofFault nofun
  | payload hvalue => exact hvalue.work_from (List.Subset.refl _) trivial houtcome.symm

end Executor

end GraphCache
