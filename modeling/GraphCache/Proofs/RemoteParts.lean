import GraphCache.Proofs.Readings
import GraphCache.Proofs.Slots

/-!
# Remote parts of values

The remote part of a completed value is what remains of it when the values of local fields are left
out. Which slots hold values of local fields depends on what is read alone: a path leads to one of
them if it goes through remote fields, and the field that prevails for its last key is local.

## Main definitions

* `Json.prune`: a value without the parts at hidden keys.
* `Evaluator.hides`: the paths to values of local fields through remote fields.
* `Mirrors`: a completed value has the same remote part as an evaluated one.

## Main results

* `Json.prune_replaceAt?`: replacing a slot in a hidden part changes nothing in what remains.
* `MirrorsItems.cons`, `Assembler.Built.mirrors`: lists and objects.
-/

namespace GraphCache

variable {World : Type}

/-! ### Leaving out parts of a value -/

namespace Json

mutual

/-- The value without the parts at hidden keys. -/
def prune (hidden : Path → Bool) : Json → Json
  | .array items => .array (pruneItems hidden 0 items)
  | .object fields => .object (pruneFields hidden fields)
  | value => value

/-- Leaves out parts of the items of a list, of which the first has the given index. -/
def pruneItems (hidden : Path → Bool) (position : Nat) : List Json → List Json
  | [] => []
  | item :: items =>
    prune (fun path => hidden (.index position :: path)) item
      :: pruneItems hidden (position + 1) items

/-- Leaves out the fields of an object at hidden keys, and parts of the others. -/
def pruneFields (hidden : Path → Bool) : List (String × Json) → List (String × Json)
  | [] => []
  | (key, value) :: fields =>
    if hidden [.key key] then pruneFields hidden fields
    else (key, prune (fun path => hidden (.key key :: path)) value) :: pruneFields hidden fields

end

section Prune

variable {hidden : Path → Bool}

theorem keys_pruneFields (hidden : Path → Bool) (fields : Object) :
    Dict.keys (pruneFields hidden fields)
      = (Dict.keys fields).filter fun key => !hidden [.key key] := by
  induction fields with
  | nil => rfl
  | cons field fields ih =>
    obtain ⟨key, value⟩ := field
    have hkeys : Dict.keys ((key, value) :: fields) = key :: Dict.keys fields := rfl
    rw [pruneFields, hkeys]
    by_cases hkey : hidden [.key key] = true
    · rw [if_pos hkey, ih, List.filter_cons_of_neg (by simpa using hkey)]
    · rw [if_neg hkey, List.filter_cons_of_pos (by simpa using hkey), ← ih]
      rfl

theorem get?_pruneFields (hidden : Path → Bool) (fields : Object) (key : String) :
    Dict.get? (pruneFields hidden fields) key
      = if hidden [.key key] then none
        else (Dict.get? fields key).map (prune fun path => hidden (.key key :: path)) := by
  induction fields with
  | nil => simp [pruneFields]
  | cons field fields ih =>
    obtain ⟨name, value⟩ := field
    rw [pruneFields, Dict.get?_cons]
    by_cases hname : name = key
    · subst hname
      by_cases hkey : hidden [.key name] = true
      · rw [if_pos hkey, if_pos hkey, ih, if_pos hkey]
      · rw [if_neg hkey, if_neg hkey, Dict.get?_cons, if_pos rfl, if_pos rfl]
        rfl
    · rw [if_neg hname, ← ih]
      split
      · rfl
      · rw [Dict.get?_cons, if_neg hname]

theorem pruneItems_set {items : List Json} {position index : Nat} {inner value : Json}
    (hinner : items[index]? = some inner)
    (h : prune (fun path => hidden (.index (position + index) :: path)) value
      = prune (fun path => hidden (.index (position + index) :: path)) inner) :
    pruneItems hidden position (items.set index value) = pruneItems hidden position items := by
  induction items generalizing position index with
  | nil => simp at hinner
  | cons item items ih =>
    cases index with
    | zero =>
      simp only [List.getElem?_cons_zero, Option.some.injEq] at hinner
      subst hinner
      rw [List.set_cons_zero, pruneItems, pruneItems]
      exact congrArg (· :: _) h
    | succ index =>
      rw [List.getElem?_cons_succ] at hinner
      have hindex : position + (index + 1) = position + 1 + index := by omega
      rw [hindex] at h
      rw [List.set_cons_succ, pruneItems, pruneItems, ih hinner h]

theorem pruneFields_insert {fields : Object} {key : String} {inner value : Json}
    (hinner : Dict.get? fields key = some inner)
    (h : hidden [.key key] = true ∨ prune (fun path => hidden (.key key :: path)) value
      = prune (fun path => hidden (.key key :: path)) inner) :
    pruneFields hidden (Dict.insert fields key value) = pruneFields hidden fields := by
  induction fields with
  | nil => cases hinner
  | cons field fields ih =>
    obtain ⟨name, old⟩ := field
    rw [Dict.get?_cons] at hinner
    by_cases hname : name = key
    · subst hname
      rw [if_pos rfl, Option.some.injEq] at hinner
      subst hinner
      simp only [Dict.insert, if_pos, pruneFields]
      rcases h with hkey | heq
      · rw [if_pos hkey, if_pos hkey]
      · rw [heq]
    · rw [if_neg hname] at hinner
      simp only [Dict.insert, if_neg hname, pruneFields, ih hinner]

/-- Replacing a slot that passes a hidden key changes nothing in what remains. -/
theorem prune_replaceAt? {target target' value : Json} {path : Path} (hroot : hidden [] = false)
    (hindex : ∀ outer position, hidden (outer ++ [.index position]) = false)
    (hpasses : path.passes hidden = true) (h : target.replaceAt? path value = some target') :
    target'.prune hidden = target.prune hidden := by
  induction path generalizing target target' hidden with
  | nil =>
    rw [Path.passes, hroot] at hpasses
    cases hpasses
  | cons step path ih =>
    rw [replaceAt?] at h
    obtain ⟨inner, hinner, h⟩ := Option.bind_eq_some_iff.1 h
    obtain ⟨inner', hreplace, h⟩ := Option.bind_eq_some_iff.1 h
    obtain rfl : target.setChild step inner' = target' := Option.some.inj h
    rw [Path.passes_cons, hroot, Bool.false_or] at hpasses
    have hbelow : hidden [step] = false →
        inner'.prune (fun path => hidden (step :: path))
          = inner.prune (fun path => hidden (step :: path)) := fun hstep ↦
      ih hstep (fun outer position ↦ hindex (step :: outer) position) hpasses hreplace
    cases step with
    | index position =>
      cases target with
      | array items =>
        rw [setChild, prune, prune]
        refine congrArg Json.array (pruneItems_set hinner ?_)
        rw [Nat.zero_add]
        exact hbelow (hindex [] position)
      | _ => cases hinner
    | key name =>
      cases target with
      | object fields =>
        rw [setChild, prune, prune]
        refine congrArg Json.object (pruneFields_insert hinner ?_)
        cases hkey : hidden [.key name] with
        | true => exact .inl rfl
        | false => exact .inr (hbelow hkey)
      | _ => cases hinner

end Prune

end Json

/-! ### Paths to values of local fields -/

namespace Evaluator

/-- Whether a path leads to the value of a local field, going through remote fields only. -/
def hides (evaluator : Evaluator) : Reading → Path → Bool
  | _, [] => false
  | reading, .index position :: path =>
    (evaluator.child? reading (.index position)).any fun inner => hides evaluator inner path
  | reading, .key key :: path =>
    match evaluator.fieldAt? reading key with
    | none => false
    | some (source, plan) =>
      if plan.field.isLocal then path.isEmpty
      else (evaluator.below? source plan).any fun inner => hides evaluator inner path

variable {evaluator : Evaluator} {fields : List FieldPlan}

/-- No local field is an item of a list. -/
theorem hides_append_index (reading : Reading) (outer : Path) (position : Nat) :
    evaluator.hides reading (outer ++ [.index position]) = false := by
  induction outer generalizing reading with
  | nil =>
    rw [List.nil_append, hides]
    cases evaluator.child? reading (.index position) with
    | none => rfl
    | some inner => rfl
  | cons step outer ih =>
    cases step with
    | index index =>
      rw [List.cons_append, hides]
      cases evaluator.child? reading (.index index) with
      | none => rfl
      | some inner => exact ih inner
    | key name =>
      rw [List.cons_append, hides]
      split
      · rfl
      · split
        · simp
        · next source plan _ _ =>
          cases evaluator.below? source plan with
          | none => rfl
          | some inner => exact ih inner

/-- What is hidden under a key of an object depends on the field that prevails for the key. -/
theorem hides_key {source : Source} {name : String} {found : Nat × FieldPlan}
    (hfound : FieldPlan.prevailing? evaluator.variableValues (typename? source.object) name 0
      fields = some found) (path : Path) :
    evaluator.hides (.object fields source) (.key name :: path)
      = if found.2.field.isLocal then path.isEmpty
        else (evaluator.below? source found.2).any (evaluator.hides · path) := by
  rw [hides, fieldAt?_object, hfound]
  rfl

/-- A value that leads to an object hides what the object hides. -/
theorem hides_of_source? {mode : ReadMode} {typeHint : Option String} {object : Object}
    {source : Source}
    (h : evaluator.source? (.value fields mode typeHint (.object object)) = some source) :
    evaluator.hides (.value fields mode typeHint (.object object))
      = evaluator.hides (.object fields source) := by
  funext path
  cases path with
  | nil => rfl
  | cons step path =>
    cases step with
    | index position => rfl
    | key name =>
      have hfield : evaluator.fieldAt? (.value fields mode typeHint (.object object)) name
          = evaluator.fieldAt? (.object fields source) name := by
        rw [fieldAt?, fieldAt?, h]
        rfl
      rw [hides, hides, hfield]

end Evaluator

/-! ### Completions with the same remote part -/

/-- The work of a completion leaves the same faults as an evaluation, given the paths that are
hidden in the value, and only hidden values are still deferred. -/
structure MirrorsWork (plan : QueryPlan) (hidden : Path → Bool) (work : Work World)
    (evaluated : List Fault) : Prop where
  /-- The faults differ in hidden parts only. -/
  faults : ∀ fault : Fault, fault.trail.path.passes hidden = false →
    (fault ∈ work.faults ↔ fault ∈ evaluated)
  /-- Only hidden values are deferred. -/
  deferred : ∀ d ∈ work.deferred, d.trail.path.passes hidden = true
  /-- The deferred fields belong to the plan. -/
  planned : ∀ d ∈ work.deferred, plan.Has d.plan

/-- A completed value has the same remote part as an evaluated one, given the paths that are hidden
in it. -/
structure Mirrors (plan : QueryPlan) (hidden : Path → Bool) (completed : Completed World Json)
    (evaluated : Evaluated Json) : Prop where
  /-- The values differ in hidden parts only. -/
  data : completed.1.prune hidden = evaluated.1.prune hidden
  /-- So do the faults. -/
  work : MirrorsWork plan hidden completed.2 evaluated.2

/-- The completed items of a list, the first of which has the given index, have the same remote part
as evaluated ones. -/
structure MirrorsItems (plan : QueryPlan) (hidden : Path → Bool) (position : Nat)
    (completed : Completed World (List Json)) (evaluated : Evaluated (List Json)) : Prop where
  /-- The items differ in hidden parts only. -/
  data : Json.pruneItems hidden position completed.1
    = Json.pruneItems hidden position evaluated.1
  /-- So do the faults. -/
  work : MirrorsWork plan hidden completed.2 evaluated.2

/-- The completed value of a field of an object has the same remote part as the evaluated one if the
field is remote. Of a local field only the deferred fields in its value are of interest. -/
structure MirrorsField (plan : QueryPlan) (evaluator : Evaluator) (source : Source)
    (fieldPlan : FieldPlan) (completed : Completed World Json) : Prop where
  /-- The deferred fields belong to the plan. -/
  planned : ∀ d ∈ completed.2.deferred, plan.Has d.plan
  /-- The value of a remote field is the same, apart from hidden parts. -/
  remote : fieldPlan.field.isLocal = false →
    Mirrors plan (fun path => (evaluator.below? source fieldPlan).any (evaluator.hides · path))
      completed (evaluator.member source.object source.mode source.typeHint fieldPlan)

variable {plan : QueryPlan} {hidden : Path → Bool}

namespace MirrorsWork

theorem none : MirrorsWork plan hidden (Work.none : Work World) [] where
  faults _ _ := by simp [Work.none]
  deferred := by simp
  planned := by simp

theorem ofFault (error : FieldError) :
    MirrorsWork plan hidden (Work.ofFault {} error : Work World) [⟨{}, error⟩] where
  faults _ _ := Iff.rfl
  deferred := by simp
  planned := by simp

/-- What two parts leave behind, the first of which is the item with an index. -/
theorem item_append {position : Nat} {work more : Work World} {faults others : List Fault}
    (h : MirrorsWork plan (fun path => hidden (.index position :: path)) work faults)
    (hrest : MirrorsWork plan hidden more others) :
    MirrorsWork plan hidden (work.under (({} : Trail).index position) ++ more)
      (faults.map (·.under (({} : Trail).index position)) ++ others) where
  faults fault hpasses := by
    have hmore := hrest.faults fault hpasses
    simp only [Work.faults_append, Work.faults_under, List.mem_append, List.mem_map, hmore]
    refine or_congr_left (exists_congr fun inner ↦ and_congr_left ?_)
    rintro rfl
    exact h.faults inner (Bool.or_eq_false_iff.1 hpasses).2
  deferred d hd := by
    rcases List.mem_append.1 hd with hd | hd
    · obtain ⟨inner, hinner, rfl⟩ := List.mem_map.1 hd
      exact Bool.or_eq_true_iff.2 (.inr (h.deferred inner hinner))
    · exact hrest.deferred d hd
  planned d hd := by
    rcases List.mem_append.1 hd with hd | hd
    · obtain ⟨inner, hinner, rfl⟩ := List.mem_map.1 hd
      exact h.planned inner hinner
    · exact hrest.planned d hd

end MirrorsWork

theorem Mirrors.value (value : Json) :
    Mirrors plan hidden (value, (Work.none : Work World)) (value, []) :=
  ⟨rfl, .none⟩

theorem Mirrors.failed (error : FieldError) :
    Mirrors plan hidden (.null, (Work.ofFault {} error : Work World))
      (Evaluator.failing error) :=
  ⟨rfl, .ofFault error⟩

namespace MirrorsItems

theorem nil (position : Nat) :
    MirrorsItems plan hidden position ([], (Work.none : Work World)) ([], []) :=
  ⟨rfl, .none⟩

/-- Items that are completed one after the other have the same remote parts. -/
theorem cons {position : Nat} {value : Json} {values : List Json} {work more : Work World}
    {evaluated : Evaluated Json} {evaluateds : Evaluated (List Json)}
    (h : Mirrors plan (fun path => hidden (.index position :: path)) (value, work) evaluated)
    (hrest : MirrorsItems plan hidden (position + 1) (values, more) evaluateds) :
    MirrorsItems plan hidden position
      (value :: values, work.under (({} : Trail).index position) ++ more)
      (evaluated.1 :: evaluateds.1,
        evaluated.2.map (·.under (({} : Trail).index position)) ++ evaluateds.2) where
  data := by
    rw [Json.pruneItems, Json.pruneItems, hrest.data]
    exact congrArg (· :: _) h.data
  work := h.work.item_append hrest.work

/-- A list has the same remote part if its items do. -/
theorem array {completed : Completed World (List Json)} {evaluated : Evaluated (List Json)}
    (h : MirrorsItems plan hidden 0 completed evaluated) :
    Mirrors plan hidden (.array completed.1, completed.2) (.array evaluated.1, evaluated.2) :=
  ⟨congrArg Json.array h.data, h.work⟩

end MirrorsItems

/-- Only the fields that are deferred in the value of a local field are of interest. -/
theorem MirrorsField.of_local {evaluator : Evaluator} {source : Source} {fieldPlan : FieldPlan}
    {completed : Completed World Json} (hlocal : fieldPlan.field.isLocal = true)
    (h : ∀ d ∈ completed.2.deferred, plan.Has d.plan) :
    MirrorsField plan evaluator source fieldPlan completed :=
  ⟨h, by simp [hlocal]⟩

theorem MirrorsField.of_mirrors {evaluator : Evaluator} {source : Source} {fieldPlan : FieldPlan}
    {completed : Completed World Json}
    (h : Mirrors plan (fun path => (evaluator.below? source fieldPlan).any (evaluator.hides · path))
      completed (evaluator.member source.object source.mode source.typeHint fieldPlan)) :
    MirrorsField plan evaluator source fieldPlan completed :=
  ⟨h.work.planned, fun _ ↦ h⟩

/-- The value of a field that prevails is hidden, or it has the same remote part. -/
theorem MirrorsField.mirrors {evaluator : Evaluator} {source : Source} {fields : List FieldPlan}
    {name : String} {found : Nat × FieldPlan} {completed : Completed World Json}
    (h : MirrorsField plan evaluator source found.2 completed)
    (hfound : FieldPlan.prevailing? evaluator.variableValues (typename? source.object) name 0
      fields = some found)
    (hshown : evaluator.hides (.object fields source) [.key name] = false) :
    Mirrors plan (fun path => evaluator.hides (.object fields source) (.key name :: path))
      completed (evaluator.member source.object source.mode source.typeHint found.2) := by
  cases hlocal : found.2.field.isLocal with
  | true =>
    rw [Evaluator.hides_key hfound, if_pos hlocal] at hshown
    cases hshown
  | false =>
    have hhidden : (fun path ↦ evaluator.hides (.object fields source) (.key name :: path))
        = fun path ↦ (evaluator.below? source found.2).any (evaluator.hides · path) := by
      funext path
      rw [Evaluator.hides_key hfound, hlocal]
      rfl
    rw [hhidden]
    exact h.remote hlocal

namespace Assembler

namespace Built

variable {assembler : Assembler World} {evaluator : Evaluator} {source : Source}
  {fields : List FieldPlan} {position : Nat}
  (h : Built evaluator.variableValues (typename? source.object) fields
    (fun found completed => MirrorsField plan evaluator source found.2 completed) position []
    assembler)

include h

/-- The remaining fields of an object are right if the values of its remote fields are. -/
theorem pruneFields_eq :
    Json.pruneFields (evaluator.hides (.object fields source)) assembler.object
      = Json.pruneFields (evaluator.hides (.object fields source))
          (evaluator.fields fields 0 source.object source.mode source.typeHint).1 := by
  have hkeys : Dict.keys assembler.object = Dict.keys
      (evaluator.fields fields 0 source.object source.mode source.typeHint).1 := by
    rw [h.keys_object, Evaluator.keys_fields]
  refine Dict.ext_get? ?_ ?_ fun name ↦ ?_
  · rw [Json.keys_pruneFields]
    exact h.tidy.once.filter _
  · rw [Json.keys_pruneFields, Json.keys_pruneFields, hkeys]
  · rw [Json.get?_pruneFields, Json.get?_pruneFields]
    split
    · rfl
    · next hshown =>
      rw [Evaluator.get?_fields]
      cases hfound : FieldPlan.prevailing? evaluator.variableValues (typename? source.object)
          name 0 fields with
      | none =>
        have habsent : Dict.get? assembler.object name = none := by
          rw [Dict.get?_eq_none_iff, hkeys, ← Dict.get?_eq_none_iff, Evaluator.get?_fields,
            hfound, Option.map_none]
        rw [habsent]
        rfl
      | some found =>
        obtain ⟨value, work, hvalue, _, hmirrors⟩ := h.exists_current hfound
        rw [hvalue]
        exact congrArg some (hmirrors.mirrors hfound (Bool.eq_false_iff.2 hshown)).data

/-- The faults outside hidden values are right if those in the values of remote fields are. -/
theorem mem_faults_iff {fault : Fault}
    (hnot : fault.trail.path.passes (evaluator.hides (.object fields source)) = false) :
    fault ∈ assembler.work.faults ↔
      fault ∈ (evaluator.fields fields 0 source.object source.mode source.typeHint).2 := by
  rw [h.tidy.mem_faults_work, Evaluator.mem_faults_fields]
  constructor
  · rintro ⟨name, completed, hcurrent, hfault⟩
    obtain ⟨found, work, hfound, hwork, hmirrors⟩ := h.prevails hcurrent
    rw [hwork] at hfault
    obtain ⟨inner, hinner, rfl⟩ := List.mem_map.1 hfault
    obtain ⟨hshown, hbelow⟩ := Path.passes_cons_eq_false hnot
    exact ⟨name, found, hfound, inner,
      ((hmirrors.mirrors hfound hshown).work.faults inner hbelow).1 hinner, rfl⟩
  · rintro ⟨name, found, hfound, inner, hinner, rfl⟩
    obtain ⟨value, work, _, hcurrent, hmirrors⟩ := h.exists_current hfound
    obtain ⟨hshown, hbelow⟩ := Path.passes_cons_eq_false hnot
    exact ⟨name, _, hcurrent, List.mem_map_of_mem
      (((hmirrors.mirrors hfound hshown).work.faults inner hbelow).2 hinner)⟩

/-- An object has the same remote part if the values of its remote fields do. -/
theorem mirrors :
    Mirrors plan (evaluator.hides (.object fields source))
      (.object assembler.object, assembler.work) (evaluator.read (.object fields source)) := by
  have hdeferred : ∀ d ∈ assembler.work.deferred, ∃ name found work inner,
      FieldPlan.prevailing? evaluator.variableValues (typename? source.object) name 0 fields
          = some found ∧
        (∃ value, MirrorsField plan evaluator source found.2 (value, work)) ∧
        inner ∈ work.deferred ∧ d = inner.under (({} : Trail).field found.1 name) := by
    intro d hd
    obtain ⟨name, completed, hcurrent, hd⟩ := (h.tidy.mem_deferred_work d).1 hd
    obtain ⟨found, work, hfound, hwork, hmirrors⟩ := h.prevails hcurrent
    rw [hwork] at hd
    obtain ⟨inner, hinner, rfl⟩ := List.mem_map.1 hd
    exact ⟨name, found, work, inner, hfound, ⟨completed.1, hmirrors⟩, hinner, rfl⟩
  refine ⟨congrArg Json.object h.pruneFields_eq, fun fault hnot ↦ h.mem_faults_iff hnot, ?_, ?_⟩
  · intro d hd
    obtain ⟨name, found, work, inner, hfound, ⟨value, hmirrors⟩, hinner, rfl⟩ := hdeferred d hd
    by_contra hnot
    obtain ⟨hshown, hbelow⟩ := Path.passes_cons_eq_false (Bool.eq_false_iff.2 hnot)
    have hpasses := (hmirrors.mirrors hfound hshown).work.deferred inner hinner
    exact Bool.false_ne_true (hbelow.symm.trans hpasses)
  · intro d hd
    obtain ⟨name, found, work, inner, hfound, ⟨value, hmirrors⟩, hinner, rfl⟩ := hdeferred d hd
    exact hmirrors.planned inner hinner

end Built

end Assembler

end GraphCache
