import GraphCache.Execution.Basic
import GraphCache.Proofs.Relocation
import Mathlib.Data.List.Pairwise

/-!
# Direct evaluation

The reference for what an execution answers. Every object is evaluated where it stands: nothing is
remembered, nothing is deferred, and of several fields with one response key only the last one is
evaluated. Positions of faults are relative to the value that is evaluated, and faults come in the
order of their positions.

## Main definitions

* `ResolverResults`: what resolvers return.
* `Evaluator`: what a direct evaluation depends on.
* `Evaluator.value`, `Evaluator.fields`: evaluation of values and of objects.
* `Evaluator.response`: the response to a plan.

## Main results

* `Evaluator.fields_sorted`: faults come in strictly increasing order of their positions.
* `Fault.inOrder_eq_of_perm`: ordering faults by their positions restores that order.
-/

namespace GraphCache

/-- What resolvers return, for a type, the name of a field, the object that holds the field and the
values of its arguments. -/
abbrev ResolverResults :=
  (typeName field : String) → (parent arguments : Object) → ResolverResult

/-- A value and the faults in it, at positions relative to the value. -/
abbrev Evaluated (α : Type) := α × List Fault

/-- What a direct evaluation depends on. -/
structure Evaluator where
  /-- The type from which the operation selects. -/
  rootType : String
  /-- The content of the cache. -/
  store : Snapshot
  /-- The variables of the request, with default values. -/
  variableValues : Object
  /-- The results of the resolver of a field on a type, if there is one. -/
  resolve? : (typeName field : String) → Option ((parent arguments : Object) → ResolverResult)

namespace Evaluator

variable (evaluator : Evaluator)

/-- The value of a field that fails. -/
def failing (error : FieldError) : Evaluated Json :=
  (.null, [⟨{}, error⟩])

mutual

/-- Evaluates a value of a field with nested selections; `expand` evaluates an object for them. -/
def value (expand : Object → ReadMode → Option String → Evaluated Object) (mode : ReadMode)
    (typeHint : Option String) : Json → Evaluated Json
  | .null => (.null, [])
  | .array list =>
    let (values, faults) := items expand mode typeHint 0 list
    (.array values, faults)
  | .object object =>
    match evaluator.store.resolve (.object object) with
    | .entity _ record =>
      let (object, faults) := expand record .record none
      (.object object, faults)
    | .missing key => failing (.missingEntity key)
    | .notReference =>
      let (object, faults) := expand object mode typeHint
      (.object object, faults)
  | scalar => failing (.shapeMismatch "object" scalar.kind)

/-- Evaluates the items of a list, of which the first has the given index. -/
def items (expand : Object → ReadMode → Option String → Evaluated Object) (mode : ReadMode)
    (typeHint : Option String) (position : Nat) : List Json → Evaluated (List Json)
  | [] => ([], [])
  | item :: rest =>
    let (first, faults) := value expand mode typeHint item
    let (values, more) := items expand mode typeHint (position + 1) rest
    (first :: values, faults.map (·.under (({} : Trail).index position)) ++ more)

end

/-- The value that is found for a remote field in an object. -/
def found? (field : PlannedField) (object : Object) : ReadMode → Option Json
  | .record => Dict.get? object (field.storageNameFor evaluator.variableValues)
  | .payload => Dict.get? object field.responseKey

/-- Evaluates a remote field; `complete` treats the value that is found. -/
def remoteField (complete : Json → Evaluated Json) (field : PlannedField) (object : Object)
    (mode : ReadMode) (knownType : Option String) : Evaluated Json :=
  match evaluator.found? field object mode with
  | some value => complete value
  | none =>
    match field.isTypename, knownType with
    | true, some typeName => (.string typeName, [])
    | _, _ => failing (.missingField field.name)

/-- The value of a remote field without nested selections, which must not be a reference. -/
def leafValue (value : Json) : Evaluated Json :=
  if value.containsReference then failing (.shapeMismatch "leaf value" value.kind)
  else (value, [])

/-- Evaluates the result of the resolver of a field; `complete` treats its value. -/
def result (complete : Json → Evaluated Json) (plan : FieldPlan) (typeName : String) :
    ResolverResult → Evaluated Json
  | .ok value => complete value
  | .error reason => failing (.resolverFailure typeName plan.field.name reason)

/-- Evaluates a local field; `complete` treats the value that its resolver returns. -/
def localField (complete : Json → Evaluated Json) (plan : FieldPlan) (object : Object)
    (knownType : Option String) : Evaluated Json :=
  let typeName := knownType.getD evaluator.rootType
  match evaluator.resolve? typeName plan.field.name with
  | none => failing (.unresolvedLocalField typeName plan.field.name)
  | some results =>
    result complete plan typeName
      (results object (plan.field.boundArguments evaluator.variableValues))

mutual

/-- Evaluates one field of an object. -/
def field (plan : FieldPlan) (object : Object) (mode : ReadMode) (known : Option String) :
    Evaluated Json :=
  match plan with
  | .leaf planned =>
    if planned.isLocal then
      evaluator.localField (fun value => (value, [])) (.leaf planned) object known
    else evaluator.remoteField leafValue planned object mode known
  | .nested planned id plans =>
    let expand := fun inner mode typeHint => fields plans 0 inner mode typeHint
    if planned.isLocal then
      evaluator.localField (evaluator.value expand .payload none) (.nested planned id plans) object
        known
    else evaluator.remoteField (evaluator.value expand mode none) planned object mode known

/-- Evaluates an object for the listed fields, of which the first has the given position in its
selection set. A field that is replaced further on is not evaluated: it keeps its place, and the
value is that of the field which replaces it. -/
def fields (plans : List FieldPlan) (position : Nat) (object : Object) (mode : ReadMode)
    (typeHint : Option String) : Evaluated Object :=
  match plans with
  | [] => ([], [])
  | plan :: rest =>
    let (others, faults) := fields rest (position + 1) object mode typeHint
    let key := plan.field.responseKey
    if plan.field.isSelected evaluator.variableValues (typename? object) then
      match Dict.get? others key with
      | some value => ((key, value) :: others.filter (·.1 != key), faults)
      | none =>
        let (value, own) := field plan object mode
          (Execution.knownType plan.field object typeHint)
        ((key, value) :: others, own.map (·.under (({} : Trail).field position key)) ++ faults)
    else (others, faults)

end

/-- Evaluates the value that a resolver returns for a field. -/
def resolved (plan : FieldPlan) (result : Json) : Evaluated Json :=
  match plan with
  | .leaf _ => (result, [])
  | .nested _ _ plans => evaluator.value (evaluator.fields plans 0) .payload none result

/-- Evaluates a plan from a root. -/
def root (plan : QueryPlan) (start : Root) : Evaluated Json :=
  let expand := evaluator.fields plan.selection.fields 0
  let complete (record : Object) : Evaluated Json :=
    let (object, faults) := expand record .record (some plan.rootType)
    (.object object, faults)
  match start with
  | .entity key =>
    match Dict.get? evaluator.store key with
    | some record => complete record
    | none => if key = plan.rootKey then complete [] else failing (.missingEntity key)
  | .value payload => evaluator.value expand .payload (some plan.rootType) payload

/-- The response to a plan. -/
def response (plan : QueryPlan) (start : Root) : Response :=
  let (data, faults) := evaluator.root plan start
  ⟨some data, faults.map Fault.toGraphQLError⟩

end Evaluator

namespace Evaluator

section Fields

variable {evaluator : Evaluator} {plan : FieldPlan} {rest : List FieldPlan} {position : Nat}
  {object : Object} {mode : ReadMode} {typeHint : Option String}

/-- A field that does not count is left out. -/
theorem fields_cons_of_not_selected
    (h : ¬ plan.field.isSelected evaluator.variableValues (typename? object) = true) :
    evaluator.fields (plan :: rest) position object mode typeHint
      = evaluator.fields rest (position + 1) object mode typeHint := by
  rw [fields]
  exact if_neg h

/-- A field that is replaced further on only fixes the place of its key. -/
theorem fields_cons_of_replaced
    (h : plan.field.isSelected evaluator.variableValues (typename? object) = true) {value : Json}
    (hlater : Dict.get? (evaluator.fields rest (position + 1) object mode typeHint).1
      plan.field.responseKey = some value) :
    evaluator.fields (plan :: rest) position object mode typeHint
      = ((plan.field.responseKey, value) ::
          (evaluator.fields rest (position + 1) object mode typeHint).1.filter
            (·.1 != plan.field.responseKey),
        (evaluator.fields rest (position + 1) object mode typeHint).2) := by
  rw [fields]
  dsimp only
  rw [if_pos h, hlater]

/-- The last field with a key is evaluated. -/
theorem fields_cons_of_last
    (h : plan.field.isSelected evaluator.variableValues (typename? object) = true)
    (hlater : Dict.get? (evaluator.fields rest (position + 1) object mode typeHint).1
      plan.field.responseKey = none) :
    evaluator.fields (plan :: rest) position object mode typeHint
      = ((plan.field.responseKey,
          (evaluator.field plan object mode (Execution.knownType plan.field object typeHint)).1) ::
            (evaluator.fields rest (position + 1) object mode typeHint).1,
        (evaluator.field plan object mode (Execution.knownType plan.field object typeHint)).2.map
            (·.under (({} : Trail).field position plan.field.responseKey)) ++
          (evaluator.fields rest (position + 1) object mode typeHint).2) := by
  rw [fields]
  dsimp only
  rw [if_pos h, hlater]

end Fields

/-- No key is repeated in an evaluated object. -/
theorem nodup_keys_fields (evaluator : Evaluator) (plans : List FieldPlan) (position : Nat)
    (object : Object) (mode : ReadMode) (typeHint : Option String) :
    (Dict.keys (evaluator.fields plans position object mode typeHint).1).Nodup := by
  induction plans generalizing position with
  | nil => exact .nil
  | cons plan rest ih =>
    have hrest := ih (position + 1)
    by_cases h : plan.field.isSelected evaluator.variableValues (typename? object) = true
    · cases hlater : Dict.get? (evaluator.fields rest (position + 1) object mode typeHint).1
          plan.field.responseKey with
      | some value =>
        rw [fields_cons_of_replaced h hlater]
        exact List.nodup_cons.2 ⟨by simp, hrest.sublist (List.filter_sublist.map _)⟩
      | none =>
        rw [fields_cons_of_last h hlater]
        exact List.nodup_cons.2 ⟨(Dict.get?_eq_none_iff _ _).1 hlater, hrest⟩
    · rw [fields_cons_of_not_selected h]
      exact hrest

end Evaluator

/-! ### The order of faults -/

namespace Trail

/-- Positions under a common one are ordered as without it. -/
theorem positionsLE_append (is js ks : List Nat) :
    positionsLE (is ++ js) (is ++ ks) = positionsLE js ks := by
  induction is with
  | nil => rfl
  | cons i is ih => simp [positionsLE, ih]

end Trail

namespace Fault

/-- A fault comes strictly before another one. -/
def Before (a b : Fault) : Prop :=
  Trail.positionsLE b.trail.order a.trail.order = false

theorem Before.under {a b : Fault} (h : a.Before b) (trail : Trail) :
    (a.under trail).Before (b.under trail) := by
  rw [Before, Fault.under, Fault.under]
  exact (Trail.positionsLE_append _ _ _).trans h

/-- The faults come in strictly increasing order of their positions, and the positions start with a
number that is not below a bound. -/
def SortedFrom (bound : Nat) (faults : List Fault) : Prop :=
  faults.Pairwise Before ∧ ∀ fault ∈ faults, ∃ i is, fault.trail.order = i :: is ∧ bound ≤ i

theorem SortedFrom.nil (bound : Nat) : SortedFrom bound [] :=
  ⟨.nil, by simp⟩

theorem SortedFrom.mono {bound bound' : Nat} {faults : List Fault} (h : SortedFrom bound faults)
    (hle : bound' ≤ bound) : SortedFrom bound' faults := by
  refine ⟨h.1, fun fault hfault ↦ ?_⟩
  obtain ⟨i, is, horder, hi⟩ := h.2 fault hfault
  exact ⟨i, is, horder, Nat.le_trans hle hi⟩

/-- The faults in one part come before those in the later parts. -/
theorem SortedFrom.cons {own more : List Fault} {position : Nat} (hown : own.Pairwise Before)
    (hmore : SortedFrom (position + 1) more) {step : Trail} (hstep : step.order = [position]) :
    SortedFrom position (own.map (·.under step) ++ more) := by
  constructor
  · rw [List.pairwise_append]
    refine ⟨List.pairwise_map.2 (hown.imp fun h ↦ h.under step), hmore.1, fun a ha b hb ↦ ?_⟩
    obtain ⟨fault, _, rfl⟩ := List.mem_map.1 ha
    obtain ⟨i, is, horder, hi⟩ := hmore.2 b hb
    have hlt : position < i := hi
    simp only [Before, Fault.under, Trail.order_append, hstep, horder, List.singleton_append,
      Trail.positionsLE, Bool.or_eq_false_iff, Bool.and_eq_false_iff, decide_eq_false_iff_not,
      beq_eq_false_iff_ne]
    exact ⟨by omega, .inl (by omega)⟩
  · intro fault hfault
    rcases List.mem_append.1 hfault with hfault | hfault
    · obtain ⟨inner, _, rfl⟩ := List.mem_map.1 hfault
      exact ⟨position, inner.trail.order, by simp [Fault.under, hstep], Nat.le_refl _⟩
    · obtain ⟨i, is, horder, hi⟩ := hmore.2 fault hfault
      exact ⟨i, is, horder, by omega⟩

theorem Before.le {a b : Fault} (h : a.Before b) :
    Trail.positionsLE a.trail.order b.trail.order = true := by
  have htotal := Trail.positionsLE_total a.trail.order b.trail.order
  rw [Before] at h
  simpa [h] using htotal

theorem Before.not_le {a b : Fault} (h : a.Before b) :
    Trail.positionsLE b.trail.order a.trail.order ≠ true := by
  rw [Before] at h
  simp [h]

theorem inOrder_perm (faults : List Fault) : (inOrder faults).Perm faults :=
  List.mergeSort_perm _ _

theorem inOrder_pairwise (faults : List Fault) : (inOrder faults).Pairwise fun a b =>
    Trail.positionsLE a.trail.order b.trail.order = true := by
  have htrans : ∀ a b c : Fault, Trail.positionsLE a.trail.order b.trail.order = true →
      Trail.positionsLE b.trail.order c.trail.order = true →
      Trail.positionsLE a.trail.order c.trail.order = true :=
    fun a b c ↦ Trail.positionsLE_trans
  have htotal : ∀ a b : Fault, (Trail.positionsLE a.trail.order b.trail.order ||
      Trail.positionsLE b.trail.order a.trail.order) = true :=
    fun a b ↦ Trail.positionsLE_total _ _
  exact List.pairwise_mergeSort htrans htotal faults

/-- Ordering faults by their positions restores an order in which the positions are strictly
increasing. -/
theorem inOrder_eq_of_perm {faults sorted : List Fault} (hsorted : sorted.Pairwise Before)
    (hperm : faults.Perm sorted) : inOrder faults = sorted := by
  have hordered : (inOrder faults).Perm sorted := (inOrder_perm faults).trans hperm
  -- Two faults of the list with the same position are the same fault.
  have hantisymm : ∀ a ∈ sorted, ∀ b ∈ sorted,
      Trail.positionsLE a.trail.order b.trail.order = true →
      Trail.positionsLE b.trail.order a.trail.order = true → a = b :=
    List.Pairwise.forall_of_forall_of_flip (fun _ _ _ _ ↦ rfl)
      (hsorted.imp fun h _ hba ↦ (h.not_le hba).elim)
      (hsorted.imp fun h hab _ ↦ (h.not_le hab).elim)
  refine List.Perm.eq_of_pairwise ?_ (inOrder_pairwise faults) (hsorted.imp Before.le) hordered
  exact fun a b ha hb ↦ hantisymm a (hordered.mem_iff.1 ha) b hb

/-- Faults in strictly increasing order of their positions are determined by which faults they
are. -/
theorem eq_of_sorted {a b : List Fault} (ha : a.Pairwise Before) (hb : b.Pairwise Before)
    (h : ∀ fault, fault ∈ a ↔ fault ∈ b) : a = b := by
  have hnodup {faults : List Fault} (hsorted : faults.Pairwise Before) : faults.Nodup := by
    refine hsorted.imp fun {a b} hbefore ↦ ?_
    rintro rfl
    exact hbefore.not_le hbefore.le
  have hperm : a.Perm b := (List.perm_ext_iff_of_nodup (hnodup ha) (hnodup hb)).2 h
  rw [← inOrder_eq_of_perm hb hperm]
  exact (inOrder_eq_of_perm ha (.refl a)).symm

end Fault

namespace Evaluator

variable (evaluator : Evaluator)

/-- Evaluating an object reports faults in the order of their positions. -/
def Sorted (expand : Object → ReadMode → Option String → Evaluated Object) : Prop :=
  ∀ object mode typeHint, (expand object mode typeHint).2.Pairwise Fault.Before

theorem failing_sorted (error : FieldError) : (failing error).2.Pairwise Fault.Before :=
  List.pairwise_singleton _ _

mutual

theorem value_sorted {expand : Object → ReadMode → Option String → Evaluated Object}
    (h : Sorted expand) (mode : ReadMode) (typeHint : Option String) (json : Json) :
    (evaluator.value expand mode typeHint json).2.Pairwise Fault.Before := by
  cases json with
  | null => exact .nil
  | bool _ => exact failing_sorted _
  | number _ => exact failing_sorted _
  | string _ => exact failing_sorted _
  | array list =>
    rw [value]
    exact (items_sorted h mode typeHint 0 list).1
  | object object =>
    rw [value]
    split
    · exact h _ _ _
    · exact failing_sorted _
    · exact h _ _ _

theorem items_sorted {expand : Object → ReadMode → Option String → Evaluated Object}
    (h : Sorted expand) (mode : ReadMode) (typeHint : Option String) (position : Nat)
    (list : List Json) :
    Fault.SortedFrom position (evaluator.items expand mode typeHint position list).2 := by
  cases list with
  | nil => exact .nil _
  | cons item rest =>
    rw [items]
    exact .cons (value_sorted h mode typeHint item)
      (items_sorted h mode typeHint (position + 1) rest) rfl

end

theorem leafValue_sorted (json : Json) : (leafValue json).2.Pairwise Fault.Before := by
  rw [leafValue]
  split
  · exact failing_sorted _
  · exact .nil

theorem remoteField_sorted {complete : Json → Evaluated Json}
    (h : ∀ json, (complete json).2.Pairwise Fault.Before) (planned : PlannedField)
    (object : Object) (mode : ReadMode) (known : Option String) :
    (evaluator.remoteField complete planned object mode known).2.Pairwise Fault.Before := by
  unfold remoteField
  split
  · exact h _
  · split
    · exact .nil
    · exact failing_sorted _

theorem result_sorted {complete : Json → Evaluated Json}
    (h : ∀ json, (complete json).2.Pairwise Fault.Before) (plan : FieldPlan) (typeName : String)
    (answer : ResolverResult) : (result complete plan typeName answer).2.Pairwise Fault.Before := by
  cases answer with
  | ok json => exact h json
  | error reason => exact failing_sorted _

theorem localField_sorted {complete : Json → Evaluated Json}
    (h : ∀ json, (complete json).2.Pairwise Fault.Before) (plan : FieldPlan) (object : Object)
    (known : Option String) :
    (evaluator.localField complete plan object known).2.Pairwise Fault.Before := by
  unfold localField
  dsimp only
  split
  · exact failing_sorted _
  · exact result_sorted h _ _ _

mutual

theorem field_sorted (plan : FieldPlan) (object : Object) (mode : ReadMode)
    (known : Option String) :
    (evaluator.field plan object mode known).2.Pairwise Fault.Before := by
  cases plan with
  | leaf planned =>
    rw [field]
    split
    · exact localField_sorted evaluator (fun _ ↦ .nil) _ _ _
    · exact remoteField_sorted evaluator leafValue_sorted _ _ _ _
  | nested planned id plans =>
    have hexpand : Sorted fun inner mode typeHint ↦ evaluator.fields plans 0 inner mode typeHint :=
      fun inner mode typeHint ↦ (fields_sorted plans 0 inner mode typeHint).1
    unfold field
    dsimp only
    split
    · exact localField_sorted evaluator (fun json ↦ value_sorted evaluator hexpand _ _ json) _ _ _
    · exact remoteField_sorted evaluator (fun json ↦ value_sorted evaluator hexpand _ _ json)
        _ _ _ _

/-- The faults in an object come in strictly increasing order of their positions. -/
theorem fields_sorted (plans : List FieldPlan) (position : Nat) (object : Object)
    (mode : ReadMode) (typeHint : Option String) :
    Fault.SortedFrom position (evaluator.fields plans position object mode typeHint).2 := by
  cases plans with
  | nil => exact .nil _
  | cons plan rest =>
    have hrest := fields_sorted rest (position + 1) object mode typeHint
    rw [fields]
    dsimp only
    split
    · split
      · exact hrest.mono (Nat.le_succ _)
      · exact .cons (field_sorted plan object mode _) hrest rfl
    · exact hrest.mono (Nat.le_succ _)

end

theorem root_sorted (plan : QueryPlan) (start : Root) :
    (evaluator.root plan start).2.Pairwise Fault.Before := by
  have hexpand : Sorted (evaluator.fields plan.selection.fields 0) :=
    fun inner mode typeHint ↦ (evaluator.fields_sorted _ 0 inner mode typeHint).1
  unfold root
  dsimp only
  split
  · split
    · exact hexpand _ _ _
    · split
      · exact hexpand _ _ _
      · exact failing_sorted _
  · exact value_sorted evaluator hexpand _ _ _

end Evaluator

end GraphCache
