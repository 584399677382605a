import GraphCache.Proofs.JsonTexts
import GraphCache.Proofs.Sameness

/-!
# The order of keys

Two values may differ in nothing but the order in which their objects list their keys. Sorting the
keys at every depth removes this difference and no other one: the texts of two sorted values are the
same exactly if the values are equal up to the order of keys.

## Main definitions

* `Json.EqUpToOrder`: equality up to the order of keys.

## Main results

* `Dict.keys_sortKeys_eq_iff`: sorted dictionaries list the same keys if they have the same keys.
* `Json.chars_sorted_eq_iff`: sorted values have the same text if the values are equal up to the
  order of keys.
-/

namespace GraphCache

/-! ### Sorted dictionaries -/

namespace Dict

variable {α β : Type}

theorem sortKeys_perm (d : Dict α) : (sortKeys d).Perm d :=
  List.mergeSort_perm _ _

theorem pairwise_sortKeys (d : Dict α) : (sortKeys d).Pairwise fun a b ↦ a.1 ≤ b.1 := by
  have htrans : ∀ a b c : String × α, decide (a.1 ≤ b.1) = true → decide (b.1 ≤ c.1) = true →
      decide (a.1 ≤ c.1) = true := by
    intro a b c hab hbc
    exact decide_eq_true (String.le_trans (of_decide_eq_true hab) (of_decide_eq_true hbc))
  have htotal : ∀ a b : String × α, (decide (a.1 ≤ b.1) || decide (b.1 ≤ a.1)) = true := by
    intro a b
    simpa using String.le_total a.1 b.1
  exact (List.pairwise_mergeSort htrans htotal d).imp of_decide_eq_true

theorem nodup_keys_sortKeys {d : Dict α} (h : (keys d).Nodup) : (keys (sortKeys d)).Nodup :=
  ((sortKeys_perm d).map Prod.fst).nodup_iff.2 h

theorem get?_sortKeys {d : Dict α} (h : (keys d).Nodup) (key : String) :
    get? (sortKeys d) key = get? d key :=
  (get?_eq_of_perm h (sortKeys_perm d).symm key).symm

/-- Sorted dictionaries list the same keys if the keys are the same in some order. -/
theorem keys_sortKeys_eq_iff {d : Dict α} {e : Dict β} :
    keys (sortKeys d) = keys (sortKeys e) ↔ (keys d).Perm (keys e) := by
  have hd : (keys (sortKeys d)).Perm (keys d) := (sortKeys_perm d).map Prod.fst
  have he : (keys (sortKeys e)).Perm (keys e) := (sortKeys_perm e).map Prod.fst
  constructor
  · intro h
    exact hd.symm.trans (h ▸ he)
  · intro h
    have hsorted : (keys (sortKeys d)).Pairwise (· ≤ ·) := List.pairwise_map.2 (pairwise_sortKeys d)
    have hsorted' : (keys (sortKeys e)).Pairwise (· ≤ ·) :=
      List.pairwise_map.2 (pairwise_sortKeys e)
    exact List.Perm.eq_of_pairwise (fun a b _ _ hab hba ↦ String.le_antisymm hab hba) hsorted
      hsorted' (hd.trans (h.trans he.symm))

/-- The order of the entries does not matter for sorting them. -/
theorem sortKeys_eq_of_perm {d e : Dict α} (hd : (keys d).Nodup) (h : d.Perm e) :
    sortKeys d = sortKeys e := by
  have hperm : (keys d).Perm (keys e) := h.map Prod.fst
  have he : (keys e).Nodup := hperm.nodup_iff.1 hd
  refine ext_get? (nodup_keys_sortKeys hd) (keys_sortKeys_eq_iff.2 hperm) fun key ↦ ?_
  rw [get?_sortKeys hd, get?_sortKeys he, get?_eq_of_perm hd h]

end Dict

/-! ### Equality up to the order of keys -/

/-- Lists that are compared item by item may be compared in another way that comes to the same for
items in the same place. -/
theorem forall₂_congr_of_zip {α β : Type} {R S : α → β → Prop} {as : List α} {bs : List β}
    (h : ∀ a b, (a, b) ∈ as.zip bs → (R a b ↔ S a b)) :
    List.Forall₂ R as bs ↔ List.Forall₂ S as bs := by
  rw [List.forall₂_iff_zip, List.forall₂_iff_zip]
  exact and_congr_right fun _ ↦
    ⟨fun hR a b hmem ↦ (h a b hmem).1 (hR hmem), fun hS a b hmem ↦ (h a b hmem).2 (hS hmem)⟩

namespace Json

/-- Two values are equal up to the order of keys: objects have the same keys in some order, each
with values that are equal up to the order of keys in turn. Numbers are compared by their texts. -/
inductive EqUpToOrder : Json → Json → Prop where
  | null : EqUpToOrder .null .null
  | bool (value : Bool) : EqUpToOrder (.bool value) (.bool value)
  | number {m n : Number} (hchars : m.chars = n.chars) : EqUpToOrder (.number m) (.number n)
  | string (text : String) : EqUpToOrder (.string text) (.string text)
  | array {items others : List Json} (hitems : List.Forall₂ EqUpToOrder items others) :
      EqUpToOrder (.array items) (.array others)
  | object {fields others : Object} (hkeys : (Dict.keys fields).Perm (Dict.keys others))
      (hvalues : ∀ key value other, Dict.get? fields key = some value →
        Dict.get? others key = some other → EqUpToOrder value other) :
      EqUpToOrder (.object fields) (.object others)

theorem eqUpToOrder_array_iff {items others : List Json} :
    (array items).EqUpToOrder (array others) ↔ List.Forall₂ EqUpToOrder items others :=
  ⟨fun h ↦ by cases h; assumption, .array⟩

theorem eqUpToOrder_object_iff {fields others : Object} :
    (object fields).EqUpToOrder (object others) ↔
      (Dict.keys fields).Perm (Dict.keys others) ∧
        ∀ key value other, Dict.get? fields key = some value → Dict.get? others key = some other →
          value.EqUpToOrder other :=
  ⟨fun h ↦ by cases h; exact ⟨‹_›, ‹_›⟩, fun h ↦ .object h.1 h.2⟩

theorem EqUpToOrder.kind_eq {value other : Json} (h : value.EqUpToOrder other) :
    value.kind = other.kind := by
  cases h <;> rfl

theorem kind_sorted (value : Json) : value.sorted.kind = value.kind := by
  cases value <;> simp [sorted, kind]

/-- Sorted lists have the same text if their items have. -/
theorem chars_sorted_array_eq_iff {items others : List Json} :
    (array items).sorted.chars = (array others).sorted.chars ↔
      List.Forall₂ (fun a b ↦ a.sorted.chars = b.sorted.chars) items others := by
  rw [sorted, sorted, chars_array_eq_iff, sortedItems_eq_map, sortedItems_eq_map,
    List.forall₂_map_left_iff, List.forall₂_map_right_iff]

/-- Sorted objects have the same text if they have the same keys in some order and the sorted values
of each key have the same text. -/
theorem chars_sorted_object_eq_iff {fields others : Object} (hfields : (Dict.keys fields).Nodup)
    (hothers : (Dict.keys others).Nodup) :
    (object fields).sorted.chars = (object others).sorted.chars ↔
      (Dict.keys fields).Perm (Dict.keys others) ∧
        ∀ key value other, Dict.get? fields key = some value → Dict.get? others key = some other →
          value.sorted.chars = other.sorted.chars := by
  have hfields' : (Dict.keys (fields.map fun field ↦ (field.1, field.2.sorted))).Nodup := by
    rwa [Dict.keys_map]
  have hothers' : (Dict.keys (others.map fun field ↦ (field.1, field.2.sorted))).Nodup := by
    rwa [Dict.keys_map]
  rw [sorted, sorted, chars_object_eq_iff, sortedFields_eq_map, sortedFields_eq_map,
    Dict.forall₂_iff (R := fun (a b : Json) ↦ a.chars = b.chars)
      (Dict.nodup_keys_sortKeys hfields'), Dict.keys_sortKeys_eq_iff, Dict.keys_map, Dict.keys_map]
  simp only [Dict.get?_sortKeys hfields', Dict.get?_sortKeys hothers', Dict.get?_map,
    Option.map_eq_some_iff]
  constructor
  · rintro ⟨hkeys, hvalues⟩
    exact ⟨hkeys, fun key value other hvalue hother ↦
      hvalues key _ _ ⟨value, hvalue, rfl⟩ ⟨other, hother, rfl⟩⟩
  · rintro ⟨hkeys, hvalues⟩
    refine ⟨hkeys, ?_⟩
    rintro key _ _ ⟨value, hvalue, rfl⟩ ⟨other, hother, rfl⟩
    exact hvalues key value other hvalue hother

theorem chars_object_eq_iff_of_nodup {fields others : Object} (hfields : (Dict.keys fields).Nodup) :
    (object fields).chars = (object others).chars ↔
      Dict.keys fields = Dict.keys others ∧
        ∀ key value other, Dict.get? fields key = some value → Dict.get? others key = some other →
          value.chars = other.chars := by
  rw [chars_object_eq_iff, Dict.forall₂_iff (R := fun (a b : Json) ↦ a.chars = b.chars) hfields]

theorem chars_sorted_eq_iff_of_kind_ne {value other : Json} (h : value.kind ≠ other.kind) :
    value.sorted.chars = other.sorted.chars ↔ value.EqUpToOrder other := by
  refine iff_of_false (fun heq ↦ h ?_) fun heq ↦ h heq.kind_eq
  rw [← kind_sorted value, ← kind_sorted other]
  exact kind_eq_of_chars_eq heq

/-- Sorted values have the same text exactly if they are equal up to the order of keys. -/
theorem chars_sorted_eq_iff {value other : Json} (hvalue : value.WellFormed)
    (hother : other.WellFormed) :
    value.sorted.chars = other.sorted.chars ↔ value.EqUpToOrder other := by
  induction value using induction_on_members generalizing other with
  | null =>
    cases other with
    | null => exact iff_of_true rfl .null
    | _ => exact chars_sorted_eq_iff_of_kind_ne (by simp [kind])
  | bool value =>
    cases other with
    | bool other =>
      exact chars_bool_eq_iff.trans ⟨fun h ↦ h ▸ .bool value, fun h ↦ by cases h; rfl⟩
    | _ => exact chars_sorted_eq_iff_of_kind_ne (by simp [kind])
  | number n =>
    cases other with
    | number other => exact ⟨.number, fun h ↦ by cases h; assumption⟩
    | _ => exact chars_sorted_eq_iff_of_kind_ne (by simp [kind])
  | string text =>
    cases other with
    | string other =>
      exact chars_string_eq_iff.trans ⟨fun h ↦ h ▸ .string text, fun h ↦ by cases h; rfl⟩
    | _ => exact chars_sorted_eq_iff_of_kind_ne (by simp [kind])
  | array items ih =>
    cases other with
    | array others =>
      have hitems := (wellFormedItems_iff items).1 hvalue
      have hothers := (wellFormedItems_iff others).1 hother
      rw [chars_sorted_array_eq_iff, eqUpToOrder_array_iff]
      refine forall₂_congr_of_zip fun item other hmem ↦ ?_
      obtain ⟨hitem, hother⟩ := List.of_mem_zip hmem
      exact ih item hitem (hitems item hitem) (hothers other hother)
    | _ => exact chars_sorted_eq_iff_of_kind_ne (by simp [kind])
  | object fields ih =>
    cases other with
    | object others =>
      rw [chars_sorted_object_eq_iff hvalue.1 hother.1, eqUpToOrder_object_iff]
      refine and_congr_right fun _ ↦ forall₃_congr fun key value other ↦
        imp_congr_right fun hget ↦ imp_congr_right fun hget' ↦ ?_
      exact ih _ (Dict.mem_of_get? hget) (hvalue.of_get? hget) (hother.of_get? hget')
    | _ => exact chars_sorted_eq_iff_of_kind_ne (by simp [kind])

end Json

end GraphCache
