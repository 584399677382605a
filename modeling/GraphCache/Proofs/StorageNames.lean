import GraphCache.Plan.Basic
import GraphCache.Proofs.KeyOrder
import Mathlib.Tactic

/-!
# Storage names

The name under which a record keeps a field tells the field's own name and its arguments up to the
order of keys, and nothing else. So fields that are read from the same place ask for the same thing,
and fields that ask for the same thing are read from the same place.

## Main results

* `storageName_eq_iff`: storage names are the same exactly if the names are and the arguments are
  equal up to the order of keys.
-/

namespace GraphCache

/-- The text of a field's arguments inside its storage name. -/
def argumentChars (arguments : Object) : List Char :=
  if arguments.isEmpty then [] else '(' :: ((Json.object arguments).sorted.chars ++ [')'])

theorem toList_storageName (name : String) (arguments : Object) :
    (storageName name arguments).toList = name.toList ++ argumentChars arguments := by
  rw [storageName, argumentChars]
  split
  · rw [List.append_nil]
  · rw [String.toList_ofList]

theorem argumentChars_eq_iff {a b : Object} (ha : (Json.object a).WellFormed)
    (hb : (Json.object b).WellFormed) :
    argumentChars a = argumentChars b ↔ (Json.object a).EqUpToOrder (.object b) := by
  rw [← Json.chars_sorted_eq_iff ha hb]
  cases a with
  | nil =>
    cases b with
    | nil => exact iff_of_true rfl rfl
    | cons entry b =>
      refine iff_of_false (by simp [argumentChars]) fun h ↦ ?_
      cases ((Json.chars_sorted_object_eq_iff ha.1 hb.1).1 h).1.nil_eq
  | cons entry a =>
    cases b with
    | nil =>
      refine iff_of_false (by simp [argumentChars]) fun h ↦ ?_
      cases ((Json.chars_sorted_object_eq_iff ha.1 hb.1).1 h).1.eq_nil
    | cons entry' b => simp [argumentChars]

/-- For one field, storage names are the same exactly if the arguments are equal up to the order of
keys. -/
theorem storageName_arguments_eq_iff (name : String) {a b : Object}
    (ha : (Json.object a).WellFormed) (hb : (Json.object b).WellFormed) :
    storageName name a = storageName name b ↔ (Json.object a).EqUpToOrder (.object b) := by
  rw [← argumentChars_eq_iff ha hb, ← String.toList_inj, toList_storageName, toList_storageName,
    List.append_cancel_left_eq]

/-- The name of the field is what stands in front of the first parenthesis. -/
theorem takeWhile_storageName {name : String} (h : '(' ∉ name.toList) (arguments : Object) :
    (storageName name arguments).toList.takeWhile (· ≠ '(') = name.toList := by
  have hname : ∀ c ∈ name.toList, decide (c ≠ '(') = true :=
    fun c hc ↦ decide_eq_true fun heq ↦ h (heq ▸ hc)
  rw [toList_storageName, List.takeWhile_append_of_pos hname, argumentChars]
  split
  · simp
  · simp

/-- Storage names are the same exactly if the names of the fields are and the arguments are equal up
to the order of keys, at every depth. -/
theorem storageName_eq_iff {name name' : String} {a b : Object} (hname : '(' ∉ name.toList)
    (hname' : '(' ∉ name'.toList) (ha : (Json.object a).WellFormed)
    (hb : (Json.object b).WellFormed) :
    storageName name a = storageName name' b ↔
      name = name' ∧ (Json.object a).EqUpToOrder (.object b) := by
  constructor
  · intro h
    have hnames : name = name' := by
      rw [← String.toList_inj, ← takeWhile_storageName hname a, h, takeWhile_storageName hname' b]
    subst hnames
    exact ⟨rfl, (storageName_arguments_eq_iff name ha hb).1 h⟩
  · rintro ⟨rfl, h⟩
    exact (storageName_arguments_eq_iff name ha hb).2 h

/-- Arguments with an object inside. -/
def filterArguments : Object :=
  [("first", .ofNat 10), ("filter", .object [("tags", .array [.string "\"x\"", .null]),
    ("max", .ofNat 3)])]

/-- `filterArguments` with the keys of both objects in another order. -/
def reversedFilterArguments : Object :=
  [("filter", .object [("max", .ofNat 3), ("tags", .array [.string "\"x\"", .null])]),
    ("first", .ofNat 10)]

theorem storageName_eq_iff_filterArguments :
    '(' ∉ "items".toList ∧ (Json.object filterArguments).WellFormed ∧
      (Json.object reversedFilterArguments).WellFormed ∧
      storageName "items" filterArguments = storageName "items" reversedFilterArguments ∧
      (storageName "items" filterArguments = storageName "items" reversedFilterArguments ↔
        "items" = "items" ∧
          (Json.object filterArguments).EqUpToOrder (.object reversedFilterArguments)) := by
  have hname : '(' ∉ "items".toList := by decide
  have hfirst : (Json.object filterArguments).WellFormed :=
    ⟨by decide, ⟨trivial, ⟨by decide, ⟨trivial, trivial, trivial⟩, trivial, trivial⟩, trivial⟩⟩
  have hsecond : (Json.object reversedFilterArguments).WellFormed :=
    ⟨by decide, ⟨by decide, trivial, ⟨trivial, trivial, trivial⟩, trivial⟩, trivial, trivial⟩
  exact ⟨hname, hfirst, hsecond, by cbv, storageName_eq_iff hname hname hfirst hsecond⟩

end GraphCache
