import GraphCache.Proofs.Prevailing

/-!
# What a response reads

Each slot of a response is filled from something that is read: from a value that was found in a
record or in a payload, or from a value that a resolver returned. A path into the response can be
followed through what is read: an index leads to an item, and a key leads to the value that the
field which prevails for it reads, where references are followed on the way.

## Main definitions

* `Source`, `Reading`: an object that is read, and what is read for a slot.
* `Evaluator.read`: what direct evaluation gives for what is read.
* `Evaluator.source?`, `Evaluator.fieldAt?`, `Evaluator.child?`: what is read one step further.
* `Evaluator.rootReading?`: what is read for the whole response.
* `Path.passes`: whether a path passes a place.

## Main results

* `Evaluator.member_of_below?`: the value of a field is what evaluation gives for what it reads.
* `Evaluator.root_of_rootReading?`: so is the data of a response.
-/

namespace GraphCache

/-- An object that is read, how its fields are looked up, and its type where it is known from the
outside. -/
structure Source where
  /-- The object. -/
  object : Object
  /-- How fields are looked up in the object. -/
  mode : ReadMode
  /-- The type of the object where it is known from the outside. -/
  typeHint : Option String

/-- What is read for a slot of a response. -/
inductive Reading where
  /-- An object, for the fields selected from it. -/
  | object (fields : List FieldPlan) (source : Source)
  /-- A value, for the fields selected from the objects in it. -/
  | value (fields : List FieldPlan) (mode : ReadMode) (typeHint : Option String) (json : Json)

namespace Reading

/-- The fields that are selected. -/
def fields : Reading → List FieldPlan
  | object fields _ => fields
  | value fields _ _ _ => fields

/-- The key of the record that is referred to, if what is read is a reference. -/
def reference? : Reading → Option String
  | object _ _ => none
  | value _ _ _ json => json.reference?

end Reading

namespace Evaluator

variable (evaluator : Evaluator)

/-- What direct evaluation gives for what is read. -/
def read : Reading → Evaluated Json
  | .object fields source =>
    let (object, faults) := evaluator.fields fields 0 source.object source.mode source.typeHint
    (.object object, faults)
  | .value fields mode typeHint json =>
    evaluator.value (evaluator.fields fields 0) mode typeHint json

/-- The object that is read; a reference is followed. -/
def source? : Reading → Option Source
  | .object _ source => some source
  | .value _ mode typeHint (.object object) =>
    match evaluator.store.resolve (.object object) with
    | .entity _ record => some ⟨record, .record, none⟩
    | .missing _ => none
    | .notReference => some ⟨object, mode, typeHint⟩
  | _ => none

/-- The field that gives the value of a key of the object that is read. -/
def fieldAt? (reading : Reading) (key : String) : Option (Source × FieldPlan) :=
  (evaluator.source? reading).bind fun source =>
    (FieldPlan.prevailing? evaluator.variableValues (typename? source.object) key 0
      reading.fields).map fun found => (source, found.2)

/-- The value that the resolver of a local field returns, if it returns one. -/
def answer? (source : Source) (field : PlannedField) : Option Json :=
  let typeName := (Execution.knownType field source.object source.typeHint).getD evaluator.rootType
  (evaluator.resolve? typeName field.name).bind fun results =>
    (results source.object (field.boundArguments evaluator.variableValues)).toOption

/-- What is read for the value of a field of an object, if the field has nested selections. -/
def below? (source : Source) : FieldPlan → Option Reading
  | .leaf _ => none
  | .nested field _ fields =>
    if field.isLocal then
      (evaluator.answer? source field).map (.value fields .payload none)
    else
      (evaluator.found? field source.object source.mode).map (.value fields source.mode none)

/-- What is read one step further. -/
def child? (reading : Reading) : PathElement → Option Reading
  | .index position =>
    match reading with
    | .value fields mode typeHint (.array items) =>
      items[position]?.map (.value fields mode typeHint)
    | _ => none
  | .key key =>
    (evaluator.fieldAt? reading key).bind fun (source, plan) => evaluator.below? source plan

/-- What is read for the whole response to a plan. -/
def rootReading? (plan : QueryPlan) : Root → Option Reading
  | .entity key =>
    match Dict.get? evaluator.store key with
    | some record => some (.object plan.selection.fields ⟨record, .record, some plan.rootType⟩)
    | none =>
      if key = plan.rootKey then
        some (.object plan.selection.fields ⟨[], .record, some plan.rootType⟩)
      else none
  | .value payload =>
    some (.value plan.selection.fields .payload (some plan.rootType) payload)

section Read

variable {evaluator} {fields : List FieldPlan} {mode : ReadMode} {typeHint : Option String}
  {object : Object} {source : Source} {plan : FieldPlan} {reading : Reading}

/-- The field that gives the value of a key of an object is the one that prevails for the key. -/
theorem fieldAt?_object (source : Source) (name : String) :
    evaluator.fieldAt? (.object fields source) name
      = (FieldPlan.prevailing? evaluator.variableValues (typename? source.object) name 0
          fields).map fun found => (source, found.2) := rfl

/-- Nothing is read in a value that is neither a list nor an object. -/
theorem child?_of_scalar {json : Json} (harray : ∀ items, json ≠ .array items)
    (hobject : ∀ object, json ≠ .object object) (step : PathElement) :
    evaluator.child? (.value fields mode typeHint json) step = none := by
  cases json with
  | array items => exact (harray items rfl).elim
  | object object => exact (hobject object rfl).elim
  | _ =>
    cases step with
    | index position => rfl
    | key name => rfl

/-- Nothing is read in a value for which no object is read, unless it is a list. -/
theorem child?_of_source?_eq_none
    (h : evaluator.source? (.value fields mode typeHint (.object object)) = none)
    (step : PathElement) :
    evaluator.child? (.value fields mode typeHint (.object object)) step = none := by
  cases step with
  | index position => rfl
  | key name =>
    rw [child?, fieldAt?, h]
    rfl

/-- If a value leads to an object, the same is read in both. -/
theorem child?_of_source?
    (h : evaluator.source? (.value fields mode typeHint (.object object)) = some source)
    (step : PathElement) :
    evaluator.child? (.value fields mode typeHint (.object object)) step
      = evaluator.child? (.object fields source) step := by
  cases step with
  | index position => rfl
  | key name =>
    rw [child?, child?, fieldAt?, fieldAt?, h]
    rfl

/-- If a value leads to an object, evaluation gives the same for both. -/
theorem read_of_source?
    (h : evaluator.source? (.value fields mode typeHint (.object object)) = some source) :
    evaluator.read (.value fields mode typeHint (.object object))
      = evaluator.read (.object fields source) := by
  rw [source?] at h
  simp only [read, Evaluator.value]
  cases hresolve : evaluator.store.resolve (.object object) with
  | entity key record =>
    rw [hresolve] at h
    cases h
    rfl
  | missing key =>
    rw [hresolve] at h
    cases h
  | notReference =>
    rw [hresolve] at h
    cases h
    rfl

/-- The value of a field is what evaluation gives for what the field reads. -/
theorem member_of_below? (h : evaluator.below? source plan = some reading) :
    evaluator.member source.object source.mode source.typeHint plan = evaluator.read reading := by
  cases plan with
  | leaf field => cases h
  | nested field id fields =>
    rw [below?] at h
    rw [member, Evaluator.field]
    split at h
    · next hlocal =>
      obtain ⟨json, hanswer, rfl⟩ := Option.map_eq_some_iff.1 h
      obtain ⟨results, hresults, hjson⟩ := Option.bind_eq_some_iff.1 hanswer
      have hok : results source.object (field.boundArguments evaluator.variableValues)
          = .ok json := by
        cases hresult : results source.object (field.boundArguments evaluator.variableValues) with
        | error reason => simp [hresult, Except.toOption] at hjson
        | ok value => simpa [hresult, Except.toOption] using hjson
      simp only [FieldPlan.field, hlocal, ite_true, localField, hresults, hok, result]
      rfl
    · next hremote =>
      obtain ⟨json, hfound, rfl⟩ := Option.map_eq_some_iff.1 h
      simp only [hremote, remoteField, hfound]
      rfl

end Read

section Root

variable {evaluator} {plan : QueryPlan} {start : Root}

/-- The data of a response is what evaluation gives for what is read. -/
theorem root_of_rootReading? {reading : Reading}
    (h : evaluator.rootReading? plan start = some reading) :
    evaluator.root plan start = evaluator.read reading := by
  unfold rootReading? at h
  unfold root
  cases start with
  | value payload =>
    cases h
    rfl
  | entity key =>
    dsimp only at h ⊢
    cases hrecord : Dict.get? evaluator.store key with
    | some record =>
      rw [hrecord] at h
      cases h
      rfl
    | none =>
      rw [hrecord] at h
      by_cases hkey : key = plan.rootKey
      · obtain rfl := Option.some.inj ((if_pos hkey).symm.trans h)
        exact if_pos hkey
      · cases (if_neg hkey).symm.trans h

/-- Nothing is read from a record that does not exist. -/
theorem root_of_rootReading?_eq_none (h : evaluator.rootReading? plan start = none) :
    ∃ key, start = .entity key ∧ evaluator.root plan start = failing (.missingEntity key) := by
  unfold rootReading? at h
  unfold root
  cases start with
  | value payload => cases h
  | entity key =>
    dsimp only at h ⊢
    cases hrecord : Dict.get? evaluator.store key with
    | some record =>
      rw [hrecord] at h
      cases h
    | none =>
      rw [hrecord] at h
      by_cases hkey : key = plan.rootKey
      · cases (if_pos hkey).symm.trans h
      · exact ⟨key, rfl, if_neg hkey⟩

end Root

end Evaluator

namespace Path

/-- Whether a path passes a place, or leads to one. -/
def passes (there : Path → Bool) : Path → Bool
  | [] => there []
  | step :: path => there [] || passes (fun inner => there (step :: inner)) path

variable {there : Path → Bool}

theorem passes_cons (step : PathElement) (path : Path) :
    passes there (step :: path)
      = (there [] || passes (fun inner => there (step :: inner)) path) := rfl

/-- A path that does not pass a place does not do so after its first step either. -/
theorem passes_cons_eq_false {step : PathElement} {path : Path}
    (h : passes there (step :: path) = false) :
    there [step] = false ∧ passes (fun inner => there (step :: inner)) path = false := by
  have hbelow := (Bool.or_eq_false_iff.1 h).2
  refine ⟨?_, hbelow⟩
  cases path with
  | nil => exact hbelow
  | cons next path => exact (Bool.or_eq_false_iff.1 hbelow).1

/-- A path passes a place if a part of it from the root leads there. -/
theorem passes_iff {path : Path} :
    passes there path = true ↔ ∃ outer, outer <+: path ∧ there outer = true := by
  induction path generalizing there with
  | nil => simp [passes, List.prefix_nil]
  | cons step path ih =>
    rw [passes_cons, Bool.or_eq_true, ih]
    constructor
    · rintro (hroot | ⟨outer, hprefix, hthere⟩)
      · exact ⟨[], List.nil_prefix, hroot⟩
      · exact ⟨step :: outer, List.cons_prefix_cons.2 ⟨rfl, hprefix⟩, hthere⟩
    · rintro ⟨outer, hprefix, hthere⟩
      cases outer with
      | nil => exact .inl hthere
      | cons first outer =>
        obtain ⟨rfl, hrest⟩ := List.cons_prefix_cons.1 hprefix
        exact .inr ⟨outer, hrest, hthere⟩

/-- A path that passes a place still does so when it goes on. -/
theorem passes_append {path : Path} (h : passes there path = true) (more : Path) :
    passes there (path ++ more) = true := by
  obtain ⟨outer, hprefix, hthere⟩ := passes_iff.1 h
  exact passes_iff.2 ⟨outer, hprefix.trans (List.prefix_append _ _), hthere⟩

end Path

end GraphCache
