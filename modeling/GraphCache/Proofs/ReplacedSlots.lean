import GraphCache.Execution.Drive
import GraphCache.Proofs.Entries
import GraphCache.Proofs.Slots
import Mathlib.Data.List.Pairwise

/-!
# Replacing slots

The result of a deferred field is written to its slot in the response data. This touches nothing
besides: slots elsewhere keep their values, and objects keep their keys in order. If there is no
such slot, then nothing is written at all. Hence it does not matter which of two slots is written
first, if neither is a part of the other.

## Main definitions

* `Json.overwrite`: an attempt to replace a slot, and whether it succeeds.
* `Json.keysAt?`: the keys of the object in a slot.

## Main results

* `Json.overwrite_cons`: writing into a part of a value.
* `Json.overwrite_comm`: it does not matter which of two slots is written first.
* `Json.overwrite_touches_path_only`: what writing changes, and what it leaves as it is.
* `Json.foldl_overwrite_perm`: values can be written to separate slots in any order.
* `Progress.data_write`: the loop over deferred fields writes their values in this way.
-/

namespace GraphCache

namespace Json

/-- What there is after an attempt to replace the slot at a path, and whether there is such a slot.
A value without it stays as it is. -/
def overwrite (target : Json) (path : Path) (value : Json) : Json × Bool :=
  match target.replaceAt? path value with
  | some replaced => (replaced, true)
  | none => (target, false)

/-- The keys of the object in the slot at a path, in order. -/
def keysAt? (target : Json) (path : Path) : Option (List String) :=
  (target.at? path).bind fun slot ↦ slot.object?.map Dict.keys

/-! ### One step -/

section Child

variable {target inner : Json} {step : PathElement}

/-- Setting a part to what it is changes nothing. -/
theorem setChild_eq_self (h : target.child? step = some inner) :
    target.setChild step inner = target := by
  cases target <;> cases step <;> simp only [child?, setChild, reduceCtorEq] at h ⊢
  · obtain ⟨hlt, rfl⟩ := List.getElem?_eq_some_iff.1 h
    rw [List.set_getElem_self]
  · rw [Dict.insert_eq_self_iff.2 h]

theorem setChild_setChild (target : Json) (step : PathElement) (value later : Json) :
    (target.setChild step value).setChild step later = target.setChild step later := by
  cases target <;> cases step <;> simp only [setChild]
  · rw [List.set_set]
  · rw [Dict.insert_insert]

/-- It does not matter which of two parts is set first. -/
theorem setChild_comm {other : PathElement} (hne : step ≠ other)
    (h : target.child? step = some inner) (value otherValue : Json) :
    (target.setChild step value).setChild other otherValue
      = (target.setChild other otherValue).setChild step value := by
  cases target <;> cases step <;> cases other <;>
    simp only [child?, setChild, reduceCtorEq] at h ⊢
  · rw [List.set_comm _ _ fun heq ↦ hne (congrArg _ heq)]
  · rename_i fields key other
    have hkey : key ∈ Dict.keys fields :=
      (Dict.get?_isSome_iff fields key).1 (by rw [h, Option.isSome_some])
    rw [Dict.insert_comm hkey fun heq ↦ hne (congrArg _ heq)]

theorem keys_setChild (h : target.child? step = some inner) (value : Json) :
    (target.setChild step value).object?.map Dict.keys = target.object?.map Dict.keys := by
  cases target <;> cases step <;> simp only [child?, setChild, reduceCtorEq] at h ⊢
  · rfl
  · rename_i fields key
    have hkey : key ∈ Dict.keys fields :=
      (Dict.get?_isSome_iff fields key).1 (by rw [h, Option.isSome_some])
    simp [object?, Dict.keys_insert, hkey]

end Child

/-! ### Whole paths -/

section Overwrite

variable {target inner : Json} {step : PathElement}

theorem overwrite_of_child?_eq_none (h : target.child? step = none) (path : Path) (value : Json) :
    target.overwrite (step :: path) value = (target, false) := by
  rw [overwrite, replaceAt?, h]
  rfl

/-- Writing into a part of a value writes to the part. -/
theorem overwrite_cons (h : target.child? step = some inner) (path : Path) (value : Json) :
    target.overwrite (step :: path) value
      = (target.setChild step (inner.overwrite path value).1, (inner.overwrite path value).2) := by
  simp only [overwrite, replaceAt?, h, bind, Option.bind]
  cases inner.replaceAt? path value with
  | none => rw [setChild_eq_self h]
  | some replaced => rfl

theorem child?_overwrite (h : target.child? step = some inner) (path : Path) (value : Json) :
    (target.overwrite (step :: path) value).1.child? step
      = some (inner.overwrite path value).1 := by
  rw [overwrite_cons h, child?_setChild h]

/-- Other parts stay as they are. -/
theorem child?_overwrite_of_ne {other : PathElement} (hne : other ≠ step) (path : Path)
    (value : Json) :
    (target.overwrite (step :: path) value).1.child? other = target.child? other := by
  cases h : target.child? step with
  | none => rw [overwrite_of_child?_eq_none h]
  | some inner => rw [overwrite_cons h, child?_setChild_of_ne hne]

/-- Writing succeeds exactly if there is a slot. -/
theorem overwrite_snd (target : Json) (path : Path) (value : Json) :
    (target.overwrite path value).2 = (target.at? path).isSome := by
  induction path generalizing target with
  | nil => rfl
  | cons step path ih =>
    cases hinner : target.child? step with
    | none => rw [overwrite_of_child?_eq_none hinner, at?, hinner]; rfl
    | some inner => rw [overwrite_cons hinner, at?, hinner, Option.bind_some, ih]

/-- The slot holds what was written to it. -/
theorem at?_overwrite {target slot : Json} {path : Path} (h : target.at? path = some slot)
    (value : Json) : (target.overwrite path value).1.at? path = some value := by
  induction path generalizing target with
  | nil => rfl
  | cons step path ih =>
    obtain ⟨inner, hinner, hslot⟩ := Option.bind_eq_some_iff.1 h
    rw [overwrite_cons hinner, at?, child?_setChild hinner, Option.bind_some, ih hslot]

/-- Slots elsewhere hold what they held before. -/
theorem at?_overwrite_of_apart (target : Json) {path other : Path} (h : path.Apart other)
    (value : Json) : (target.overwrite path value).1.at? other = target.at? other := by
  induction path generalizing target other with
  | nil => exact (h.1 List.nil_prefix).elim
  | cons step path ih =>
    cases other with
    | nil => exact (h.2 List.nil_prefix).elim
    | cons step' other =>
      by_cases hstep : step' = step
      · subst hstep
        cases hinner : target.child? step' with
        | none => rw [overwrite_of_child?_eq_none hinner]
        | some inner =>
          rw [at?, at?, child?_overwrite hinner, hinner, Option.bind_some, Option.bind_some,
            ih inner ((Path.Apart.cons_iff _ _ _).1 h)]
      · rw [at?, at?, child?_overwrite_of_ne hstep]

/-- Objects that are not inside the slot keep their keys in order. -/
theorem keysAt?_overwrite (target : Json) {path other : Path} (h : ¬ path <+: other)
    (value : Json) : (target.overwrite path value).1.keysAt? other = target.keysAt? other := by
  induction path generalizing target other with
  | nil => exact (h List.nil_prefix).elim
  | cons step path ih =>
    cases hinner : target.child? step with
    | none => rw [overwrite_of_child?_eq_none hinner]
    | some inner =>
      cases other with
      | nil =>
        rw [overwrite_cons hinner]
        exact keys_setChild hinner _
      | cons step' other =>
        rw [keysAt?, keysAt?, at?, at?]
        by_cases hstep : step' = step
        · subst hstep
          rw [child?_overwrite hinner, hinner, Option.bind_some, Option.bind_some]
          exact ih inner fun hprefix ↦ h (List.cons_prefix_cons.2 ⟨rfl, hprefix⟩)
        · rw [child?_overwrite_of_ne hstep]

/-- It does not matter which of two slots is written first. -/
theorem overwrite_comm (target : Json) {path other : Path} (h : path.Apart other)
    (value otherValue : Json) :
    ((target.overwrite path value).1.overwrite other otherValue).1
      = ((target.overwrite other otherValue).1.overwrite path value).1 := by
  induction path generalizing target other with
  | nil => exact (h.1 List.nil_prefix).elim
  | cons step path ih =>
    cases other with
    | nil => exact (h.2 List.nil_prefix).elim
    | cons step' other =>
      by_cases hstep : step = step'
      · -- Both slots are in one part.
        subst hstep
        cases hinner : target.child? step with
        | none => simp only [overwrite_of_child?_eq_none hinner]
        | some inner =>
          rw [overwrite_cons (child?_overwrite hinner path value),
            overwrite_cons (child?_overwrite hinner other otherValue), overwrite_cons hinner,
            overwrite_cons hinner, setChild_setChild, setChild_setChild,
            ih inner ((Path.Apart.cons_iff _ _ _).1 h)]
      · -- The slots are in different parts, of which one may not exist.
        have hpart : (target.overwrite (step' :: other) otherValue).1.child? step
            = target.child? step := child?_overwrite_of_ne hstep other otherValue
        have hpart' : (target.overwrite (step :: path) value).1.child? step'
            = target.child? step' := child?_overwrite_of_ne (Ne.symm hstep) path value
        cases hinner : target.child? step with
        | none =>
          rw [overwrite_of_child?_eq_none hinner, overwrite_of_child?_eq_none (hpart.trans hinner)]
        | some inner =>
          cases hinner' : target.child? step' with
          | none =>
            rw [overwrite_of_child?_eq_none hinner',
              overwrite_of_child?_eq_none (hpart'.trans hinner')]
          | some inner' =>
            rw [overwrite_cons (hpart'.trans hinner'), overwrite_cons (hpart.trans hinner),
              overwrite_cons hinner, overwrite_cons hinner', setChild_comm hstep hinner]

/-- Whether a slot can be written does not depend on what is written elsewhere. -/
theorem overwrite_snd_of_apart (target : Json) {path other : Path} (h : path.Apart other)
    (value otherValue : Json) :
    ((target.overwrite path value).1.overwrite other otherValue).2
      = (target.overwrite other otherValue).2 := by
  rw [overwrite_snd, overwrite_snd, at?_overwrite_of_apart target h]

/-- Values can be written to separate slots in any order. -/
theorem foldl_overwrite_perm {writes others : List (Path × Json)} (hperm : writes.Perm others)
    (hapart : writes.Pairwise fun a b ↦ a.1.Apart b.1) (target : Json) :
    writes.foldl (fun target write ↦ (target.overwrite write.1 write.2).1) target
      = others.foldl (fun target write ↦ (target.overwrite write.1 write.2).1) target := by
  refine hperm.foldl_eq' (fun a ha b hb target ↦ ?_) target
  by_cases hab : a = b
  · rw [hab]
  · have hsymm : Std.Symm fun a b : Path × Json ↦ a.1.Apart b.1 := ⟨fun _ _ h ↦ h.symm⟩
    exact overwrite_comm target (hapart.forall ha hb hab) a.2 b.2

end Overwrite

/-- Where nothing is written, nothing changes. -/
theorem overwrite_fst_of_snd {target value : Json} {path : Path}
    (h : (target.overwrite path value).2 = false) : (target.overwrite path value).1 = target := by
  rw [overwrite] at h ⊢
  cases hreplace : target.replaceAt? path value with
  | none => rfl
  | some replaced =>
    rw [hreplace] at h
    cases h

/-- **Writing touches only its path.** An attempt to replace a slot succeeds exactly if there is a
slot at the path. Then the slot holds the new value. Slots elsewhere hold what they held, and the
objects that are not inside the slot keep their keys in order. If there is no slot, then nothing
changes. Of two slots, neither of which is a part of the other, either can be written first, with
the same value in the end and the same success. -/
theorem overwrite_touches_path_only (target : Json) (path : Path) (value : Json) :
    ((target.overwrite path value).2 = true ↔ ∃ slot, target.at? path = some slot) ∧
    ((target.overwrite path value).2 = true →
      (target.overwrite path value).1.at? path = some value) ∧
    (∀ other, path.Apart other →
      (target.overwrite path value).1.at? other = target.at? other) ∧
    (∀ other, ¬ path <+: other →
      (target.overwrite path value).1.keysAt? other = target.keysAt? other) ∧
    ((target.overwrite path value).2 = false → (target.overwrite path value).1 = target) ∧
    ∀ other otherValue, path.Apart other →
      ((target.overwrite path value).1.overwrite other otherValue).1
          = ((target.overwrite other otherValue).1.overwrite path value).1 ∧
        (target.overwrite path value).2
          = ((target.overwrite other otherValue).1.overwrite path value).2 ∧
        ((target.overwrite path value).1.overwrite other otherValue).2
          = (target.overwrite other otherValue).2 := by
  have hslot : (target.overwrite path value).2 = true ↔ ∃ slot, target.at? path = some slot := by
    rw [overwrite_snd, Option.isSome_iff_exists]
  refine ⟨hslot, fun h ↦ ?_, fun other h ↦ at?_overwrite_of_apart target h value,
    fun other h ↦ keysAt?_overwrite target h value, overwrite_fst_of_snd,
    fun other otherValue h ↦ ?_⟩
  · obtain ⟨slot, hslot⟩ := hslot.1 h
    exact at?_overwrite hslot value
  · exact ⟨overwrite_comm target h value otherValue,
      (overwrite_snd_of_apart target h.symm otherValue value).symm,
      overwrite_snd_of_apart target h value otherValue⟩

/-- The name of an item is replaced; the other item has none. -/
example :
    let items (name : Json) : Json := .object [("items", .array
      [.object [("id", .string "1"), ("name", name)], .object [("id", .string "2")]])]
    ((items .null).overwrite [.key "items", .index 0, .key "name"] (.string "first")
        = (items (.string "first"), true)) ∧
      (items .null).overwrite [.key "items", .index 1, .key "name"] (.string "first")
        = (items .null, false) := ⟨rfl, rfl⟩

end Json

/-- The data of a response is overwritten at the place of a deferred field. -/
theorem Progress.data_write (progress : Progress) (trail : Trail) (value : Json)
    (faults : List Fault) :
    (progress.write trail value faults).data = (progress.data.overwrite trail.path value).1 := by
  rw [write, Json.overwrite]
  cases progress.data.replaceAt? trail.path value <;> rfl

end GraphCache
