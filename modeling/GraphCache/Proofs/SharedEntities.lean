import GraphCache.Proofs.Histories
import GraphCache.Proofs.Reuse

/-!
# How often shared entities are expanded

A record that is referred to from many places, or from itself, is completed anew for each reference
and selection set, as long as something is left behind. Without leaving anything behind it is
expanded twice at most: the first time it is only marked, so that the objects of entities met once
are not kept, and the second time its object is kept. What is in between does not matter. An entity
is not met again for the same selection set while it is expanded, since the selection sets inside
have numbers of their own; an expansion that leaves something behind changes nothing about what is
known; and deferred fields go on with what is known when they finish.

## Main definitions

* `cleanObjects`: the objects to which an entity was expanded without leaving anything behind.
* `Memo.Records`: what is known about an entity that was expanded to some objects.
* `Accounted`: what happens to an entity fits in with what is known about it.
* `Execution.Makes`, `Executor.Makes`: the calls that are made in a call and in an execution.

## Main results

* `Execution.Unrolls.accounted`, `Executor.Executes.accounted`: what happens to an entity in a call
  and in an execution.
* `Executor.shared_entity_reused`: an entity is expanded at most twice without leaving anything
  behind, and reused ever after.
-/

namespace GraphCache

variable {World : Type}

/-! ### Numbers below a field -/

namespace FieldPlan

mutual

/-- The numbers inside a selection set below a field are among those below the field. -/
theorem inner_selectionIds_sublist {selection : SelectionPlan} (plan : FieldPlan)
    (h : selection ∈ plan.selections) :
    (listSelectionIds selection.fields).Sublist plan.selectionIds := by
  cases plan with
  | leaf field => cases h
  | nested field id fields =>
    rw [selectionIds]
    rcases List.mem_cons.1 h with rfl | h
    · exact List.sublist_cons_self _ _
    · exact .cons _ (inner_listSelectionIds_sublist fields h)

theorem inner_listSelectionIds_sublist {selection : SelectionPlan} (plans : List FieldPlan)
    (h : selection ∈ listSelections plans) :
    (listSelectionIds selection.fields).Sublist (listSelectionIds plans) := by
  cases plans with
  | nil => cases h
  | cons plan plans =>
    rw [listSelectionIds]
    rcases List.mem_append.1 h with h | h
    · exact (inner_selectionIds_sublist plan h).trans (List.sublist_append_left _ _)
    · exact (inner_listSelectionIds_sublist plans h).trans (List.sublist_append_right _ _)

end

theorem selectionIds_sublist {plan : FieldPlan} {plans : List FieldPlan} (h : plan ∈ plans) :
    plan.selectionIds.Sublist (listSelectionIds plans) := by
  induction plans with
  | nil => cases h
  | cons first plans ih =>
    rw [listSelectionIds]
    rcases List.mem_cons.1 h with rfl | h
    · exact List.sublist_append_left _ _
    · exact (ih h).trans (List.sublist_append_right _ _)

theorem selectionIds_of_selection? {plan : FieldPlan} {selection : SelectionPlan}
    (h : plan.selection? = some selection) : plan.selectionIds = selection.selectionIds := by
  cases plan with
  | leaf field => cases h
  | nested field id fields =>
    cases h
    rfl

end FieldPlan

/-- The selection sets below a field of a plan have numbers of their own. -/
theorem QueryPlan.Has.nodup_selectionIds {plan : QueryPlan} (hplan : plan.Planned)
    {fieldPlan : FieldPlan} (h : plan.Has fieldPlan) : fieldPlan.selectionIds.Nodup := by
  obtain ⟨selection, hselection, hmem⟩ := h
  refine .sublist ?_ hplan.nodup_selectionIds
  refine (FieldPlan.selectionIds_sublist hmem).trans ?_
  rcases List.mem_cons.1 hselection with rfl | hselection
  · exact List.sublist_cons_self _ _
  · exact .cons _ (FieldPlan.inner_listSelectionIds_sublist _ hselection)

/-! ### What happens to an entity, and what is known about it -/

namespace Event

/-- The entity that the event is about, with the number of the selection set. -/
def entity? : Event → Option (String × Nat)
  | evaluated _ => none
  | expanded key selection _ _ => some (key, selection)
  | reused key selection _ => some (key, selection)

/-- The object of an entity, if the event is that it has been expanded and was clean. -/
def cleanObject? (entity : String × Nat) : Event → Option Object
  | expanded key selection object true => if (key, selection) = entity then some object else none
  | _ => none

end Event

/-- The objects to which an entity was expanded without leaving anything behind, in order. -/
def cleanObjects (entity : String × Nat) (events : List Event) : List Object :=
  events.filterMap (Event.cleanObject? entity)

@[simp] theorem cleanObjects_nil (entity : String × Nat) : cleanObjects entity [] = [] := rfl

@[simp] theorem cleanObjects_append (entity : String × Nat) (events more : List Event) :
    cleanObjects entity (events ++ more) = cleanObjects entity events ++ cleanObjects entity more :=
  List.filterMap_append

@[simp] theorem cleanObjects_evaluated (entity : String × Nat) (evaluation : Evaluation)
    (events : List Event) :
    cleanObjects entity (.evaluated evaluation :: events) = cleanObjects entity events := rfl

theorem cleanObjects_of_ne {entity : String × Nat} {key : String} {selection : Nat}
    (h : (key, selection) ≠ entity) (object : Object) (clean : Bool) :
    cleanObjects entity [.expanded key selection object clean] = [] := by
  cases clean with
  | false => rfl
  | true => simp [cleanObjects, Event.cleanObject?, h]

theorem cleanObjects_eq_nil {key : String} {selection : Nat} {events : List Event}
    (h : ∀ object, .expanded key selection object true ∉ events) :
    cleanObjects (key, selection) events = [] := by
  refine List.filterMap_eq_nil_iff.2 fun event hmem ↦ ?_
  match event with
  | .evaluated _ => rfl
  | .reused _ _ _ => rfl
  | .expanded _ _ _ false => rfl
  | .expanded key' selection' object true =>
    refine if_neg ?_
    rintro ⟨⟩
    exact h object hmem

@[simp] theorem cleanObjects_clean (key : String) (selection : Nat) (object : Object) :
    cleanObjects (key, selection) [.expanded key selection object true] = [object] := by
  simp [cleanObjects, Event.cleanObject?]

namespace Memo

/-- What is known about an entity that was expanded to some objects without leaving anything behind:
the first time it is marked, the second object is kept. -/
def known : List Object → Option (Option Object)
  | [] => none
  | [_] => some none
  | _ :: object :: _ => some (some object)

/-- It is known that an entity was expanded to some objects, at most two, without leaving anything
behind. -/
structure Records (memo : Memo) (entity : String × Nat) (objects : List Object) : Prop where
  find?_eq : memo.find? entity = known objects
  length_le : objects.length ≤ 2

namespace Records

variable {memo memo' : Memo} {entity : String × Nat} {objects : List Object}

theorem nil (entity : String × Nat) : Records [] entity [] :=
  ⟨rfl, Nat.zero_le 2⟩

theorem append_nil (h : Records memo entity objects) : Records memo entity (objects ++ []) :=
  (List.append_nil objects).symm ▸ h

/-- Another clean object of an entity that cannot be used again yet is kept or marks it. -/
theorem keep (h : Records memo entity objects) (hunknown : (memo.find? entity).join = none)
    (object : Object) :
    Records ((entity, if (memo.find? entity).isSome then some object else none) :: memo') entity
      (objects ++ [object]) := by
  rw [h.find?_eq] at hunknown ⊢
  obtain _ | ⟨first, _ | ⟨second, rest⟩⟩ := objects
  · exact ⟨by simp [find?_cons, known], by simp⟩
  · exact ⟨by simp [find?_cons, known], by simp⟩
  · cases hunknown

theorem cons_of_ne {other : String × Nat} (h : Records memo entity objects) (hne : other ≠ entity)
    (entry : Option Object) : Records ((other, entry) :: memo) entity objects :=
  ⟨by rw [find?_cons, if_neg hne, h.find?_eq], h.length_le⟩

end Records

end Memo

/-- Events that come after clean expansions of an entity to some objects. Once there are two of
these objects, all that happens to the entity is that the second one is used again. -/
def Settled (entity : String × Nat) : List Object → List Event → Prop
  | _, [] => True
  | objects, event :: events =>
    (event.entity? = some entity → ∀ first second, objects = [first, second] →
      event = .reused entity.1 entity.2 second) ∧
    Settled entity (objects ++ cleanObjects entity [event]) events

theorem settled_append {entity : String × Nat} {objects : List Object} {events more : List Event} :
    Settled entity objects (events ++ more) ↔ Settled entity objects events ∧
      Settled entity (objects ++ cleanObjects entity events) more := by
  induction events generalizing objects with
  | nil => simp [Settled]
  | cons event events ih =>
    rw [List.cons_append, Settled, Settled, ih, and_assoc, List.append_assoc,
      ← cleanObjects_append, List.singleton_append]

/-- What happens to an entity in some events, and what is known about it after them, fits in with
the clean expansions to some objects before. -/
structure Accounted (entity : String × Nat) (objects : List Object) (events : List Event)
    (memo : Memo) : Prop where
  records : memo.Records entity (objects ++ cleanObjects entity events)
  settled : Settled entity objects events

namespace Accounted

variable {entity : String × Nat} {objects : List Object} {events more : List Event}
  {memo memo' : Memo}

theorem nil (h : memo.Records entity objects) : Accounted entity objects [] memo :=
  ⟨h.append_nil, trivial⟩

theorem cons (h : Accounted entity objects events memo) {evaluation : Evaluation} :
    Accounted entity objects (.evaluated evaluation :: events) memo :=
  ⟨h.records, nofun, by simpa using h.settled⟩

theorem append (h : Accounted entity objects events memo)
    (hmore : Accounted entity (objects ++ cleanObjects entity events) more memo') :
    Accounted entity objects (events ++ more) memo' := by
  refine ⟨?_, settled_append.2 ⟨h.settled, hmore.settled⟩⟩
  rw [cleanObjects_append, ← List.append_assoc]
  exact hmore.records

theorem reused {key : String} {selection : Nat} {object : Object}
    (hknown : memo.find? (key, selection) = some (some object))
    (h : memo.Records entity objects) :
    Accounted entity objects [.reused key selection object] memo := by
  refine ⟨h.append_nil, fun hentity first second hobjects ↦ ?_, trivial⟩
  cases hentity
  have hfind := h.find?_eq
  rw [hknown, hobjects] at hfind
  cases hfind
  rfl

end Accounted

/-! ### Entities in a call -/

/-- The numbers of the selection sets that a call may get to. -/
def Call.selectionIds : Call World → List Nat
  | .fields _ plans _ _ _ _ _ _ => FieldPlan.listSelectionIds plans
  | .field evaluation _ => evaluation.plan.selectionIds
  | .value selection _ _ _ _ => selection.selectionIds
  | .items selection _ _ _ _ _ => selection.selectionIds
  | .resolved plan _ _ => plan.selectionIds
  | .settle deferred => deferred.plan.selectionIds

namespace Execution

variable {execution : Execution World} {call : Call World} {state : RunState World}
  {events : List Event} {outcome : Outcome World}

/-- Entities are expanded for the selection sets of a call only. -/
theorem Unrolls.mem_selectionIds (h : execution.Unrolls call state events outcome) {key : String}
    {selection : Nat} {object : Object} {clean : Bool}
    (hmem : .expanded key selection object clean ∈ events) : selection ∈ call.selectionIds := by
  induction h with
  | fieldsNil | resolvedLeaf | null | scalar | missing | itemsNil | settleFailure => cases hmem
  | fieldsSkip _ _ ih => exact List.mem_append_right _ (ih hmem)
  | fieldsCons _ _ _ ihfield ihrest =>
    rcases List.mem_append.1 hmem with hmem | hmem
    · exact List.mem_append_left _ (ihfield hmem)
    · exact List.mem_append_right _ (ihrest hmem)
  | fieldsAbort _ _ ih => exact List.mem_append_left _ (ih hmem)
  | typename | missingField | leaf | unresolved | failure | pending | reuse => simp at hmem
  | nested _ _ hnested _ ih =>
    rw [Call.selectionIds, FieldPlan.selectionIds_of_selection? hnested]
    exact ih (by simpa using hmem)
  | answered _ _ _ _ ih => exact ih (by simpa using hmem)
  | resolvedNested hnested _ ih =>
    rw [Call.selectionIds, FieldPlan.selectionIds_of_selection? hnested]
    exact ih hmem
  | array _ ih | itemsAbort _ ih | settleOk _ _ ih => exact ih hmem
  | plain _ _ ih | expandAbort _ _ _ ih => exact List.mem_cons_of_mem _ (ih hmem)
  | expand _ _ _ ih =>
    rcases List.mem_append.1 hmem with hmem | hmem
    · exact List.mem_cons_of_mem _ (ih hmem)
    · cases List.mem_singleton.1 hmem
      exact List.mem_cons_self
  | itemsCons _ _ ihitem ihitems | itemsAbortRest _ _ ihitem ihitems =>
    exact (List.mem_append.1 hmem).elim ihitem ihitems

theorem missingEntity_memo (execution : Execution World) (key : String) (trail : Trail)
    (state : RunState World) : (execution.missingEntity key trail state).2.memo = state.memo := by
  rw [missingEntity]
  cases execution.missingEntities <;> rfl

theorem completeLeaf_memo (value : Json) (trail : Trail) (state : RunState World) :
    (completeLeaf value trail state).2.memo = state.memo := by
  rw [completeLeaf]
  split <;> rfl

/-- What is known about an entity after some entity has been expanded, if that was not done again on
the way. -/
theorem accounted_expanded {key : String} {selection : Nat} {state' : RunState World}
    {completed : Object} {work : Work World} {entity : String × Nat} {objects : List Object}
    (hunknown : state.reusable? (key, selection) = none)
    (hfresh : ∀ object, .expanded key selection object true ∉ events)
    (hbefore : state.memo.Records entity objects)
    (h : Accounted entity objects events state'.memo) :
    Accounted entity objects (events ++ [.expanded key selection completed work.isClean])
      (if work.isClean then
        state'.keep (key, selection) (state.memo.find? (key, selection)).isSome completed
      else state').memo := by
  rw [RunState.reusable?] at hunknown
  have hrecords := h.records
  by_cases hown : (key, selection) = entity
  · subst hown
    rw [cleanObjects_eq_nil hfresh, List.append_nil] at hrecords
    refine ⟨?_, settled_append.2 ⟨h.settled, fun _ first second hobjects ↦ ?_, trivial⟩⟩
    · rw [cleanObjects_append, cleanObjects_eq_nil hfresh, List.nil_append]
      cases work.isClean with
      | false => exact hrecords.append_nil
      | true =>
        rw [cleanObjects_clean]
        exact hbefore.keep hunknown completed
    · -- an entity that has been expanded twice is known
      rw [cleanObjects_eq_nil hfresh, List.append_nil] at hobjects
      rw [hbefore.find?_eq, hobjects] at hunknown
      cases hunknown
  · refine ⟨?_, settled_append.2 ⟨h.settled, fun hentity ↦ absurd (Option.some.inj hentity) hown,
      trivial⟩⟩
    rw [cleanObjects_append, cleanObjects_of_ne hown, List.append_nil]
    cases work.isClean with
    | false => exact hrecords
    | true => exact hrecords.cons_of_ne hown _

/-- What happens to an entity in a call, given what was known about it before. -/
theorem Unrolls.accounted (h : execution.Unrolls call state events outcome)
    (hids : call.selectionIds.Nodup) {entity : String × Nat} {objects : List Object}
    (hrecords : state.memo.Records entity objects) :
    Accounted entity objects events outcome.2.memo := by
  induction h generalizing objects with
  | fieldsNil | resolvedLeaf | null | scalar | itemsNil | settleFailure => exact .nil hrecords
  | typename | missingField | unresolved | failure | pending => exact (Accounted.nil hrecords).cons
  | missing =>
    rw [missingEntity_memo]
    exact .nil hrecords
  | leaf =>
    rw [completeLeaf_memo]
    exact (Accounted.nil hrecords).cons
  | fieldsSkip _ _ ih => exact ih (hids.sublist (List.sublist_append_right _ _)) hrecords
  | fieldsCons _ _ _ ihfield ihrest =>
    have hfield := ihfield (hids.sublist (List.sublist_append_left _ _)) hrecords
    exact hfield.append (ihrest (hids.sublist (List.sublist_append_right _ _)) hfield.records)
  | fieldsAbort _ _ ih => exact ih (hids.sublist (List.sublist_append_left _ _)) hrecords
  | nested _ _ hnested _ ih =>
    rw [Call.selectionIds, FieldPlan.selectionIds_of_selection? hnested] at hids
    exact (ih hids hrecords).cons
  | answered _ _ _ _ ih => exact (ih hids hrecords).cons
  | resolvedNested hnested _ ih =>
    rw [Call.selectionIds, FieldPlan.selectionIds_of_selection? hnested] at hids
    exact ih hids hrecords
  | array _ ih | itemsAbort _ ih | settleOk _ _ ih => exact ih hids hrecords
  | plain _ _ ih | expandAbort _ _ _ ih => exact ih (List.nodup_cons.1 hids).2 hrecords
  | reuse _ hknown => exact .reused (RunState.reusable?_eq_some_iff.1 hknown) hrecords
  | expand _ hunknown hfields ih =>
    -- inside, entities are expanded for selection sets with other numbers
    obtain ⟨hfresh, hinner⟩ := List.nodup_cons.1 hids
    exact accounted_expanded hunknown
      (fun object hmem ↦ hfresh (hfields.mem_selectionIds hmem)) hrecords (ih hinner hrecords)
  | itemsCons _ _ ihitem ihitems | itemsAbortRest _ _ ihitem ihitems =>
    have hitem := ihitem hids hrecords
    exact hitem.append (ihitems hids hitem.records)

/-! ### The calls that a call makes -/

variable (execution) in
/-- A call makes another call, after some events and in some state. -/
inductive Makes :
    Call World → RunState World → List Event → Call World → RunState World → Prop where
  | fieldsSkip {selection plan plans position object mode typeHint trail assembler state}
      (hskip : plan.field.isSelected execution.variableValues (typename? object) = false) :
      Makes (.fields selection (plan :: plans) position object mode typeHint trail assembler) state
        [] (.fields selection plans (position + 1) object mode typeHint trail assembler) state
  | field {selection plan plans position object mode typeHint trail assembler state}
      (hselected : plan.field.isSelected execution.variableValues (typename? object) = true) :
      Makes (.fields selection (plan :: plans) position object mode typeHint trail assembler) state
        [] (.field (evaluationOf selection plan position object typeHint trail) mode) state
  | fields {selection plan plans position object mode typeHint trail assembler state state' events
      value work}
      (hselected : plan.field.isSelected execution.variableValues (typename? object) = true)
      (hfield : execution.Unrolls
        (.field (evaluationOf selection plan position object typeHint trail) mode) state events
        (.ok (value, work), state')) :
      Makes (.fields selection (plan :: plans) position object mode typeHint trail assembler) state
        events (.fields selection plans (position + 1) object mode typeHint trail
          (assembler.insert plan.field.responseKey value work).1) state'
  | nested {evaluation mode state value selection}
      (hremote : evaluation.plan.field.isLocal = false)
      (hvalue : execution.remoteValue? evaluation.plan.field evaluation.object mode = some value)
      (hnested : evaluation.plan.selection? = some selection) :
      Makes (.field evaluation mode) state [.evaluated evaluation]
        (.value selection mode none evaluation.trail value) state
  | answered {evaluation mode state resolver value world}
      (hlocal : evaluation.plan.field.isLocal = true)
      (hresolver : execution.resolver? evaluation = some resolver)
      (hanswer : (execution.answer resolver evaluation).run state.world
        = (.ready (.ok value), world)) :
      Makes (.field evaluation mode) state [.evaluated evaluation]
        (.resolved evaluation.plan evaluation.trail value) { state with world }
  | resolved {plan trail value state selection} (hnested : plan.selection? = some selection) :
      Makes (.resolved plan trail value) state [] (.value selection .payload none trail value) state
  | array {selection mode typeHint trail items state} :
      Makes (.value selection mode typeHint trail (.array items)) state []
        (.items selection mode typeHint trail 0 items) state
  | plain {selection mode typeHint trail object state}
      (hresolve : execution.store.resolve (.object object) = .notReference) :
      Makes (.value selection mode typeHint trail (.object object)) state []
        (.fields selection.id selection.fields 0 object mode typeHint trail .empty) state
  | expand {selection mode typeHint trail object key record state}
      (hresolve : execution.store.resolve (.object object) = .entity key record)
      (hunknown : state.reusable? (key, selection.id) = none) :
      Makes (.value selection mode typeHint trail (.object object)) state []
        (.fields selection.id selection.fields 0 record .record none trail .empty) state
  | item {selection mode typeHint trail position item items state} :
      Makes (.items selection mode typeHint trail position (item :: items)) state []
        (.value selection mode typeHint (trail.index position) item) state
  | items {selection mode typeHint trail position item items state state' events value work}
      (hitem : execution.Unrolls (.value selection mode typeHint (trail.index position) item) state
        events (.ok (value, work), state')) :
      Makes (.items selection mode typeHint trail position (item :: items)) state events
        (.items selection mode typeHint trail (position + 1) items) state'
  | settled {deferred state value world}
      (hfinish : deferred.task.finish.run state.world = (.ok value, world)) :
      Makes (.settle deferred) state [] (.resolved deferred.plan deferred.trail value)
        { state with world }

variable {inner : Call World} {state' : RunState World}

theorem Makes.selectionIds_sublist (h : execution.Makes call state events inner state') :
    inner.selectionIds.Sublist call.selectionIds := by
  cases h with
  | fieldsSkip | fields => exact List.sublist_append_right _ _
  | field => exact List.sublist_append_left _ _
  | nested _ _ hnested | resolved hnested =>
    rw [Call.selectionIds, Call.selectionIds, FieldPlan.selectionIds_of_selection? hnested]
  | answered | array | item | items | settled => exact List.Sublist.refl _
  | plain | expand => exact List.sublist_cons_self _ _

/-- What is known about an entity when a call makes another one, given what was known before. -/
theorem Makes.records (h : execution.Makes call state events inner state')
    (hids : call.selectionIds.Nodup) {entity : String × Nat} {objects : List Object}
    (hrecords : state.memo.Records entity objects) :
    state'.memo.Records entity (objects ++ cleanObjects entity events) := by
  cases h with
  | fieldsSkip | field | nested | answered | resolved | array | plain | expand | item | settled =>
    exact hrecords.append_nil
  | fields _ hfield =>
    exact (hfield.accounted (hids.sublist (List.sublist_append_left _ _)) hrecords).records
  | items hitem => exact (hitem.accounted hids hrecords).records

/-- An entity whose object is known is not expanded: there is nothing on the way, no resolver is
asked, nothing is left behind, and nothing changes. -/
theorem Unrolls.eq_reused {selection : SelectionPlan} {mode : ReadMode} {typeHint : Option String}
    {trail : Trail} {object record known : Object} {key : String}
    (hresolve : execution.store.resolve (.object object) = .entity key record)
    (hknown : state.reusable? (key, selection.id) = some known)
    (h : execution.Unrolls (.value selection mode typeHint trail (.object object)) state events
      outcome) :
    events = [.reused key selection.id known] ∧ outcome = (.ok (.object known, .none), state) := by
  cases h with
  | scalar _ _ hobject => cases hobject
  | plain hresolve' | missing hresolve' => cases hresolve.symm.trans hresolve'
  | reuse hresolve' hknown' =>
    cases hresolve.symm.trans hresolve'
    cases hknown.symm.trans hknown'
    exact ⟨rfl, rfl⟩
  | expand hresolve' hunknown | expandAbort hresolve' hunknown =>
    cases hresolve.symm.trans hresolve'
    cases hknown.symm.trans hunknown

end Execution

/-! ### Entities in an execution -/

namespace Executor

variable (executor : Executor World) (root : Root) (world : World)

/-- The call with which the first pass begins. -/
inductive BeginsWith : Root → Call World → Prop where
  | record {key record} (hrecord : executor.rootRecord? key = some record) :
      BeginsWith (.entity key) (.fields executor.plan.selection.id executor.plan.selection.fields 0
        record .record (some executor.plan.rootType) {} .empty)
  | payload {payload} :
      BeginsWith (.value payload) (.value executor.plan.selection .payload
        (some executor.plan.rootType) {} payload)

/-- An execution of the plan makes a call, after some events and in some state: at the beginning,
when it finishes a deferred field, or in the course of another call. -/
inductive Makes : List Event → Call World → RunState World → Prop where
  | start {call} (hvalid : executor.registry.validate executor.plan = .ok ())
      (hbegins : executor.BeginsWith root call) : Makes [] call { world }
  | settle {events head next others} (h : executor.Executes root world events (.ok head))
      (hnext : head.waiting.Perm (next :: others)) : Makes events (.settle next) head.state
  | inner {events more call inner state state'} (h : Makes events call state)
      (hmakes : executor.execution.Makes call state more inner state') :
      Makes (events ++ more) inner state'

variable {executor root world}

theorem Starts.accounted (hplan : executor.plan.Planned)
    {state : RunState World} {events : List Event} {outcome : Outcome World}
    (h : executor.Starts root state events outcome) {entity : String × Nat}
    (hrecords : state.memo.Records entity []) :
    Accounted entity [] events outcome.2.memo := by
  have hids := hplan.nodup_selectionIds
  cases h with
  | record _ hfields => exact hfields.accounted (List.nodup_cons.1 hids).2 hrecords
  | missing _ =>
    rw [Execution.missingEntity_memo]
    exact .nil hrecords
  | payload hvalue => exact hvalue.accounted hids hrecords

/-- A field that waits has selection sets with numbers of their own below it. -/
theorem Executes.nodup_selectionIds (hplan : executor.plan.Planned) {events : List Event}
    {head : LoopHead World} (h : executor.Executes root world events (.ok head))
    {next : Deferred World} (hnext : next ∈ head.waiting) : next.plan.selectionIds.Nodup :=
  (h.has_of_waiting h.follows hnext).nodup_selectionIds hplan

/-- Finishing a field that waits goes on with what is known about an entity. -/
theorem Executes.accounted_settle (hplan : executor.plan.Planned)
    {events more : List Event} {head : LoopHead World} {next : Deferred World}
    {others : List (Deferred World)} {outcome : Outcome World} {entity : String × Nat}
    (h : executor.Executes root world events (.ok head))
    (hnext : head.waiting.Perm (next :: others))
    (hsettle : executor.execution.Unrolls (.settle next) head.state more outcome)
    (haccounted : Accounted entity [] events head.state.memo) :
    Accounted entity [] (events ++ more) outcome.2.memo := by
  have hids := h.nodup_selectionIds hplan (hnext.mem_iff.2 List.mem_cons_self)
  exact haccounted.append (hsettle.accounted hids haccounted.records)

/-- What happens to an entity in an execution, and what is known about it when the execution has got
to a head of its loop or was aborted. -/
theorem Executes.accounted (hplan : executor.plan.Planned)
    {events : List Event} {outcome : Except ExecutionError (LoopHead World)}
    (h : executor.Executes root world events outcome) (entity : String × Nat) :
    ∃ memo, Accounted entity [] events memo ∧
      ∀ head, outcome = .ok head → head.state.memo = memo := by
  induction h with
  | start _ hstart =>
    refine ⟨_, hstart.accounted hplan (.nil entity), ?_⟩
    rintro _ ⟨⟩
    rfl
  | startAbort _ hstart => exact ⟨_, hstart.accounted hplan (.nil entity), nofun⟩
  | resume _ _ _ ih =>
    obtain ⟨_, haccounted, hmemo⟩ := ih
    obtain rfl := hmemo _ rfl
    refine ⟨_, haccounted, ?_⟩
    rintro _ ⟨⟩
    rfl
  | finish h hnext hsettle ih =>
    obtain ⟨_, haccounted, hmemo⟩ := ih
    obtain rfl := hmemo _ rfl
    refine ⟨_, h.accounted_settle hplan hnext hsettle haccounted, ?_⟩
    rintro _ ⟨⟩
    rfl
  | finishAbort h hnext hsettle ih =>
    obtain ⟨_, haccounted, hmemo⟩ := ih
    obtain rfl := hmemo _ rfl
    exact ⟨_, h.accounted_settle hplan hnext hsettle haccounted, nofun⟩

/-- What is known about an entity whenever a call is made are the objects to which it was expanded
so far without leaving anything behind. -/
theorem Makes.records (hplan : executor.plan.Planned)
    {events : List Event} {call : Call World} {state : RunState World}
    (h : executor.Makes root world events call state) (entity : String × Nat) :
    call.selectionIds.Nodup ∧ state.memo.Records entity (cleanObjects entity events) := by
  induction h with
  | start _ hbegins =>
    refine ⟨?_, .nil entity⟩
    have hids := hplan.nodup_selectionIds
    cases hbegins with
    | record => exact (List.nodup_cons.1 hids).2
    | payload => exact hids
  | settle h hnext =>
    obtain ⟨_, haccounted, hmemo⟩ := h.accounted hplan entity
    obtain rfl := hmemo _ rfl
    exact ⟨h.nodup_selectionIds hplan (hnext.mem_iff.2 List.mem_cons_self), haccounted.records⟩
  | inner _ hmakes ih =>
    obtain ⟨hids, hrecords⟩ := ih
    rw [cleanObjects_append]
    exact ⟨hids.sublist hmakes.selectionIds_sublist, hmakes.records hids hrecords⟩

/-- An entity is expanded at most twice for a selection set without leaving anything behind, however
often it is referred to, in a cycle or not. All that happens to it after that is that the second
object is used again. Whenever it is to be completed then, no resolver is asked, nothing is left
behind, and the state stays the same. Every execution of a valid plan has a history to which this
applies, whether its deferred fields finish in some order or are polled in turn. -/
theorem shared_entity_reused (executor : Executor World) (hplan : executor.plan.Planned)
    (root : Root) (world : World) (key : String) (number : Nat) :
    (∀ events outcome, executor.Executes root world events outcome →
      (cleanObjects (key, number) events).length ≤ 2) ∧
    (∀ before event later outcome first second,
      executor.Executes root world (before ++ event :: later) outcome →
      cleanObjects (key, number) before = [first, second] →
      event.entity? = some (key, number) → event = .reused key number second) ∧
    (∀ events fields mode typeHint trail state first second,
      executor.Makes root world events
        (.value ⟨number, fields⟩ mode typeHint trail (.reference key)) state →
      (Dict.get? executor.store key).isSome →
      cleanObjects (key, number) events = [first, second] →
        (Call.value ⟨number, fields⟩ mode typeHint trail (.reference key)).run executor.execution
          state = (.ok (.object second, .none), state) ∧
        ∀ more outcome, executor.execution.Unrolls
          (.value ⟨number, fields⟩ mode typeHint trail (.reference key)) state more outcome →
            more = [.reused key number second]) ∧
    (executor.registry.validate executor.plan = .ok () → ∀ order, ∃ events outcome,
      executor.Executes root world events outcome ∧
      (∀ last, outcome = .ok last → last.waiting = []) ∧
      (executor.executeIn order root world).1 = outcome.map fun last => respond last.progress) ∧
    ∃ order, executor.executeIn order root world = executor.execute root world := by
  refine ⟨?_, ?_, ?_, fun hvalid order ↦ exists_executes hvalid order,
    executor.exists_order root world⟩
  · intro events outcome h
    obtain ⟨memo, haccounted, -⟩ := h.accounted hplan (key, number)
    exact haccounted.records.length_le
  · intro before event later outcome first second h hclean hentity
    obtain ⟨memo, haccounted, -⟩ := h.accounted hplan (key, number)
    exact (settled_append.1 haccounted.settled).2.1 hentity first second hclean
  · intro events fields mode typeHint trail state first second hmakes hrecord hclean
    obtain ⟨record, hrecord⟩ := Option.isSome_iff_exists.1 hrecord
    have hresolve : executor.execution.store.resolve (.reference key) = .entity key record := by
      simp [Snapshot.resolve, execution, hrecord]
    have hknown : state.reusable? (key, number) = some second := by
      rw [RunState.reusable?, (hmakes.records hplan _).2.find?_eq, hclean]
      rfl
    exact ⟨(Execution.Unrolls.reuse hresolve hknown).run_eq,
      fun more outcome hunrolls ↦ (hunrolls.eq_reused hresolve hknown).1⟩

section Sample

/-- The name of a person. -/
def personName : FieldPlan :=
  .leaf ⟨"name", "name", false, [], some [], some "name", none, [], []⟩

/-- A person. -/
def ada : Object := [("name", .string "Ada")]

/-- As long as its object cannot be used again, a person is expanded and leaves nothing behind. -/
theorem unrolls_person (state : RunState Nat) (trail : Trail)
    (hunknown : state.reusable? ("Person:1", 1) = none) :
    ∃ events, peopleExecutor.execution.Unrolls
        (.value ⟨1, [personName]⟩ .record none trail (.reference "Person:1")) state events
        (.ok (.object ada, .none),
          state.keep ("Person:1", 1) (state.memo.find? ("Person:1", 1)).isSome ada) ∧
      cleanObjects ("Person:1", 1) events = [ada] := by
  have hname : peopleExecutor.execution.Unrolls
      (.field (Execution.evaluationOf 1 personName 0 ada none trail) .record) state _
      (Execution.completeLeaf (.string "Ada") (trail.field 0 "name") state) := .leaf rfl rfl rfl
  have hfields : peopleExecutor.execution.Unrolls
      (.fields 1 [personName] 0 ada .record none trail .empty) state _
      (.ok (.object ada, .none), state) := .fieldsCons rfl hname .fieldsNil
  exact ⟨_, .expand rfl hunknown hfields, rfl⟩

/-- The third person of the list is to be completed after two clean expansions of the same one. -/
theorem peopleExecutor_makes : ∃ events trail state, peopleExecutor.Makes .query 0 events
      (.value ⟨1, [personName]⟩ .record none trail (.reference "Person:1")) state ∧
    cleanObjects ("Person:1", 1) events = [ada, ada] := by
  obtain ⟨events, hfirst, hevents⟩ :=
    unrolls_person { world := 0 } ⟨[.key "people", .index 0], [0, 0]⟩ rfl
  obtain ⟨more, hsecond, hmore⟩ :=
    unrolls_person { world := 0, memo := [(("Person:1", 1), none)] }
      ⟨[.key "people", .index 1], [0, 1]⟩ rfl
  have hfields : peopleExecutor.Makes .query 0 [] _ _ := .start rfl (.record rfl)
  have hpeople := (hfields.inner (.field rfl)).inner (.nested rfl rfl rfl)
  have hitems := ((hpeople.inner .array).inner (.items hfirst)).inner (.items hsecond)
  refine ⟨_, _, _, hitems.inner .item, ?_⟩
  simp [hevents, hmore]

theorem shared_entity_reused_people :
    peoplePlan.Planned ∧
    (∃ events outcome, peopleExecutor.Executes .query 0 events outcome ∧
      (cleanObjects ("Person:1", 1) events).length ≤ 2) ∧
    ∃ events trail state, peopleExecutor.Makes .query 0 events
        (.value ⟨1, [personName]⟩ .record none trail (.reference "Person:1")) state ∧
      cleanObjects ("Person:1", 1) events = [ada, ada] ∧
      (Call.value ⟨1, [personName]⟩ .record none trail (.reference "Person:1")).run
        peopleExecutor.execution state = (.ok (.object ada, .none), state) := by
  have hvalid : peopleExecutor.registry.validate peopleExecutor.plan = .ok () := rfl
  obtain ⟨hbounded, -, hreused, hhistory, -⟩ :=
    shared_entity_reused peopleExecutor peoplePlan_planned .query 0 "Person:1" 1
  refine ⟨peoplePlan_planned, ?_, ?_⟩
  · obtain ⟨events, outcome, hexecutes, -⟩ := hhistory hvalid fun _ ↦ 0
    exact ⟨events, outcome, hexecutes, hbounded events outcome hexecutes⟩
  · obtain ⟨events, trail, state, hmakes, hclean⟩ := peopleExecutor_makes
    exact ⟨events, trail, state, hmakes, hclean,
      (hreused _ _ _ _ _ _ _ _ hmakes rfl hclean).1⟩

end Sample

end Executor

end GraphCache
