import GraphCache.Proofs.Entries
import GraphCache.Selection.Argument

/-!
# Equality of values as an equivalence

Two JSON values are the same when they differ at most in the order of the keys of their objects. On
values whose objects repeat no key this is an equivalence, and so is the equality of argument
values.

## Main definitions

* `Json.induction_on_members`, `ArgumentValue.induction_on_members`: induction on the members of
  lists and objects.
* `ArgumentValue.WellFormed`: no object in a literal repeats a key.

## Main results

* `Json.same_refl`, `Json.same_symm`, `Json.same_trans`: equality of JSON values.
* `ArgumentValue.sameFields_refl`, `ArgumentValue.sameFields_symm`,
  `ArgumentValue.sameFields_trans`: equality of the arguments of fields.
-/

namespace GraphCache

/-! ### Lists that are related item by item -/

section Lists

variable {α : Type} {R : α → α → Prop} {as bs cs : List α}

private theorem forall₂_symm_of (h : ∀ a ∈ as, ∀ b ∈ bs, R a b → R b a)
    (hab : List.Forall₂ R as bs) : List.Forall₂ R bs as := by
  induction hab with
  | nil => exact .nil
  | cons hfirst _ ih =>
    refine .cons (h _ List.mem_cons_self _ List.mem_cons_self hfirst) (ih fun a ha b hb ↦ ?_)
    exact h a (List.mem_cons_of_mem _ ha) b (List.mem_cons_of_mem _ hb)

private theorem forall₂_trans_of (h : ∀ a ∈ as, ∀ b ∈ bs, ∀ c ∈ cs, R a b → R b c → R a c)
    (hab : List.Forall₂ R as bs) (hbc : List.Forall₂ R bs cs) : List.Forall₂ R as cs := by
  induction hab generalizing cs with
  | nil => exact hbc
  | cons hfirst _ ih =>
    cases hbc with
    | cons hsecond hrest =>
      refine .cons (h _ List.mem_cons_self _ List.mem_cons_self _ List.mem_cons_self hfirst hsecond)
        (ih (fun a ha b hb c hc ↦ ?_) hrest)
      exact h a (List.mem_cons_of_mem _ ha) b (List.mem_cons_of_mem _ hb) c
        (List.mem_cons_of_mem _ hc)

end Lists

/-! ### JSON values -/

theorem Binary64.sameValue_trans {x y z : Binary64} (hxy : x.sameValue y = true)
    (hyz : y.sameValue z = true) : x.sameValue z = true := by
  simp only [sameValue, Bool.and_eq_true, Bool.or_eq_true, beq_iff_eq] at hxy hyz ⊢
  obtain ⟨hrank, hsign⟩ := hxy
  obtain ⟨hrank', hsign'⟩ := hyz
  refine ⟨hrank.trans hrank', ?_⟩
  rcases hsign with hzero | hsign
  · exact .inl hzero
  · rcases hsign' with hzero | hsign'
    · exact .inl (hrank.trans hzero)
    · exact .inr (hsign.trans hsign')

theorem Number.same_trans {l m n : Number} (hlm : l.same m = true) (hmn : m.same n = true) :
    l.same n = true := by
  cases l with
  | integer a =>
    cases m with
    | integer b =>
      cases n with
      | integer c => exact beq_iff_eq.2 ((beq_iff_eq.1 hlm).trans (beq_iff_eq.1 hmn))
      | float _ => cases hmn
    | float _ => cases hlm
  | float x =>
    cases m with
    | integer _ => cases hlm
    | float y =>
      cases n with
      | integer _ => cases hmn
      | float z => exact Binary64.sameValue_trans hlm hmn

namespace Json

section Induction

variable {motive : Json → Prop} (null : motive .null) (bool : ∀ value, motive (.bool value))
  (number : ∀ value, motive (.number value)) (string : ∀ value, motive (.string value))
  (array : ∀ items, (∀ item ∈ items, motive item) → motive (.array items))
  (object : ∀ fields, (∀ field ∈ fields, motive field.2) → motive (.object fields))

include null bool number string array object

-- Each theorem of the block needs the assumptions of the others.
set_option linter.unusedSectionVars false in
mutual

/-- Something holds for all JSON values if it passes from the members of lists and objects to
these. -/
theorem induction_on_members (value : Json) : motive value := by
  cases value with
  | null => exact null
  | bool value => exact bool value
  | number value => exact number value
  | string value => exact string value
  | array items => exact array items (induction_on_items items)
  | object fields => exact object fields (induction_on_fields fields)

theorem induction_on_items (items : List Json) : ∀ item ∈ items, motive item := by
  cases items with
  | nil => exact List.forall_mem_nil _
  | cons item items =>
    exact List.forall_mem_cons.2 ⟨induction_on_members item, induction_on_items items⟩

theorem induction_on_fields (fields : List (String × Json)) :
    ∀ field ∈ fields, motive field.2 := by
  cases fields with
  | nil => exact List.forall_mem_nil _
  | cons field fields =>
    obtain ⟨key, value⟩ := field
    exact List.forall_mem_cons.2 ⟨induction_on_members value, induction_on_fields fields⟩

end

end Induction

theorem sameItems_iff {as bs : List Json} :
    sameItems as bs = true ↔ List.Forall₂ (fun a b ↦ a.same b = true) as bs := by
  induction as generalizing bs with
  | nil => cases bs <;> simp [sameItems]
  | cons a as ih => cases bs <;> simp [sameItems, ih]

theorem sameFields_iff {fields : List (String × Json)} {target : Object} :
    sameFields fields target = true ↔
      ∀ field ∈ fields, ∃ value, Dict.get? target field.1 = some value ∧
        field.2.same value = true := by
  induction fields with
  | nil => simp [sameFields]
  | cons field fields ih =>
    obtain ⟨key, value⟩ := field
    rw [sameFields, Bool.and_eq_true, ih, List.forall_mem_cons]
    cases Dict.get? target key with
    | none => simp
    | some other => simp

/-- Objects that repeat no key are the same exactly when they have the same keys, each with the same
value. -/
theorem same_object_iff {a b : Object} (ha : (Dict.keys a).Nodup) (hb : (Dict.keys b).Nodup) :
    (object a).same (object b) = true ↔
      (∀ key, key ∈ Dict.keys a ↔ key ∈ Dict.keys b) ∧
        ∀ key value other, Dict.get? a key = some value → Dict.get? b key = some other →
          value.same other = true := by
  rw [same, Bool.and_eq_true, beq_iff_eq, sameFields_iff]
  constructor
  · rintro ⟨hlength, hfields⟩
    have hsubset : Dict.keys a ⊆ Dict.keys b := by
      intro key hkey
      obtain ⟨field, hmem, rfl⟩ := List.mem_map.1 hkey
      obtain ⟨value, hvalue, -⟩ := hfields field hmem
      rw [← Dict.get?_isSome_iff, hvalue, Option.isSome_some]
    have hkeys : (Dict.keys a).Perm (Dict.keys b) :=
      (List.subperm_of_subset ha hsubset).perm_of_length_le (by simp [Dict.keys, hlength])
    refine ⟨fun key ↦ hkeys.mem_iff, fun key value other hvalue hother ↦ ?_⟩
    obtain ⟨found, hfound, hsame⟩ := hfields _ (Dict.mem_of_get? hvalue)
    rwa [Option.some.inj (hother.symm.trans hfound)]
  · rintro ⟨hkeys, hvalues⟩
    have hperm : (Dict.keys a).Perm (Dict.keys b) := (List.perm_ext_iff_of_nodup ha hb).2 hkeys
    refine ⟨by simpa [Dict.keys] using hperm.length_eq, fun field hmem ↦ ?_⟩
    have hvalue : Dict.get? a field.1 = some field.2 := (Dict.get?_eq_some_iff ha _ _).2 hmem
    have hkey : field.1 ∈ Dict.keys b := (hkeys _).1 (List.mem_map_of_mem hmem)
    obtain ⟨other, hother⟩ := Option.isSome_iff_exists.1 ((Dict.get?_isSome_iff b _).2 hkey)
    exact ⟨other, hother, hvalues _ _ _ hvalue hother⟩

theorem WellFormed.of_get? {fields : Object} (h : (object fields).WellFormed) {key : String}
    {value : Json} (hvalue : Dict.get? fields key = some value) : value.WellFormed :=
  (wellFormedFields_iff fields).1 h.2 _ (Dict.mem_of_get? hvalue)

theorem same_refl {a : Json} (ha : a.WellFormed) : a.same a = true := by
  induction a using induction_on_members with
  | null => rfl
  | bool value => exact beq_self_eq_true value
  | number value => exact Number.same_self value
  | string value => exact beq_self_eq_true value
  | array items ih =>
    have hitems := (wellFormedItems_iff items).1 ha
    exact sameItems_iff.2 (List.forall₂_same.2 fun item hmem ↦ ih item hmem (hitems item hmem))
  | object fields ih =>
    refine (same_object_iff ha.1 ha.1).2 ⟨fun _ ↦ .rfl, fun key value other hvalue hother ↦ ?_⟩
    obtain rfl : value = other := Option.some.inj (hvalue.symm.trans hother)
    exact ih _ (Dict.mem_of_get? hvalue) (WellFormed.of_get? ha hvalue)

theorem same_symm {a b : Json} (ha : a.WellFormed) (hb : b.WellFormed) (h : a.same b = true) :
    b.same a = true := by
  induction a using induction_on_members generalizing b with
  | null =>
    cases b with
    | null => rfl
    | _ => cases h
  | bool value =>
    cases b with
    | bool other => exact beq_iff_eq.2 (beq_iff_eq.1 h).symm
    | _ => cases h
  | number value =>
    cases b with
    | number other => exact (Number.same_comm other value).trans h
    | _ => cases h
  | string value =>
    cases b with
    | string other => exact beq_iff_eq.2 (beq_iff_eq.1 h).symm
    | _ => cases h
  | array items ih =>
    cases b with
    | array others =>
      have hitems := (wellFormedItems_iff items).1 ha
      have hothers := (wellFormedItems_iff others).1 hb
      exact sameItems_iff.2 (forall₂_symm_of (fun item hitem other hother ↦
        ih item hitem (hitems item hitem) (hothers other hother)) (sameItems_iff.1 h))
    | _ => cases h
  | object fields ih =>
    cases b with
    | object others =>
      obtain ⟨hkeys, hvalues⟩ := (same_object_iff ha.1 hb.1).1 h
      refine (same_object_iff hb.1 ha.1).2 ⟨fun key ↦ (hkeys key).symm, ?_⟩
      intro key value other hvalue hother
      exact ih _ (Dict.mem_of_get? hother) (ha.of_get? hother) (hb.of_get? hvalue)
        (hvalues key other value hother hvalue)
    | _ => cases h

theorem same_trans {a b c : Json} (ha : a.WellFormed) (hb : b.WellFormed) (hc : c.WellFormed)
    (hab : a.same b = true) (hbc : b.same c = true) : a.same c = true := by
  induction a using induction_on_members generalizing b c with
  | null =>
    cases b with
    | null => exact hbc
    | _ => cases hab
  | bool value =>
    cases b with
    | bool other => exact (beq_iff_eq.1 hab) ▸ hbc
    | _ => cases hab
  | number value =>
    cases b with
    | number other =>
      cases c with
      | number last => exact Number.same_trans hab hbc
      | _ => cases hbc
    | _ => cases hab
  | string value =>
    cases b with
    | string other => exact (beq_iff_eq.1 hab) ▸ hbc
    | _ => cases hab
  | array items ih =>
    cases b with
    | array others =>
      cases c with
      | array lasts =>
        have hitems := (wellFormedItems_iff items).1 ha
        have hothers := (wellFormedItems_iff others).1 hb
        have hlasts := (wellFormedItems_iff lasts).1 hc
        exact sameItems_iff.2 (forall₂_trans_of (fun item hitem other hother last hlast ↦
          ih item hitem (hitems item hitem) (hothers other hother) (hlasts last hlast))
          (sameItems_iff.1 hab) (sameItems_iff.1 hbc))
      | _ => cases hbc
    | _ => cases hab
  | object fields ih =>
    cases b with
    | object others =>
      cases c with
      | object lasts =>
        obtain ⟨hkeys, hvalues⟩ := (same_object_iff ha.1 hb.1).1 hab
        obtain ⟨hkeys', hvalues'⟩ := (same_object_iff hb.1 hc.1).1 hbc
        refine (same_object_iff ha.1 hc.1).2 ⟨fun key ↦ (hkeys key).trans (hkeys' key), ?_⟩
        intro key value last hvalue hlast
        have hkey : key ∈ Dict.keys others :=
          (hkeys key).1 ((Dict.get?_isSome_iff _ _).1 (by rw [hvalue, Option.isSome_some]))
        obtain ⟨other, hother⟩ := Option.isSome_iff_exists.1 ((Dict.get?_isSome_iff _ _).2 hkey)
        exact ih _ (Dict.mem_of_get? hvalue) (ha.of_get? hvalue) (hb.of_get? hother)
          (hc.of_get? hlast) (hvalues _ _ _ hvalue hother) (hvalues' _ _ _ hother hlast)
      | _ => cases hbc
    | _ => cases hab

end Json

/-! ### Argument values -/

namespace ArgumentValue

mutual

/-- No object in a literal of the value repeats a key. -/
def WellFormed : ArgumentValue → Prop
  | literal value => value.WellFormed
  | var _ => True
  | list items => WellFormedItems items
  | object fields => WellFormedFields fields

/-- No object in a literal of the listed values repeats a key. -/
def WellFormedItems : List ArgumentValue → Prop
  | [] => True
  | value :: values => WellFormed value ∧ WellFormedItems values

/-- No object in a literal of the listed fields repeats a key. -/
def WellFormedFields : List (String × ArgumentValue) → Prop
  | [] => True
  | (_, value) :: fields => WellFormed value ∧ WellFormedFields fields

end

theorem wellFormedItems_iff (items : List ArgumentValue) :
    WellFormedItems items ↔ ∀ value ∈ items, value.WellFormed := by
  induction items with
  | nil => simp [WellFormedItems]
  | cons value values ih => simp [WellFormedItems, ih]

theorem wellFormedFields_iff (fields : List (String × ArgumentValue)) :
    WellFormedFields fields ↔ ∀ field ∈ fields, field.2.WellFormed := by
  induction fields with
  | nil => simp [WellFormedFields]
  | cons field fields ih =>
    obtain ⟨key, value⟩ := field
    rw [WellFormedFields, ih, List.forall_mem_cons]

section Induction

variable {motive : ArgumentValue → Prop} (literal : ∀ value, motive (.literal value))
  (var : ∀ name, motive (.var name))
  (list : ∀ items, (∀ item ∈ items, motive item) → motive (.list items))
  (object : ∀ fields, (∀ field ∈ fields, motive field.2) → motive (.object fields))

include literal var list object

-- Each theorem of the block needs the assumptions of the others.
set_option linter.unusedSectionVars false in
mutual

/-- Something holds for all argument values if it passes from the members of lists and objects to
these. -/
theorem induction_on_members (value : ArgumentValue) : motive value := by
  cases value with
  | literal value => exact literal value
  | var name => exact var name
  | list items => exact list items (induction_on_items items)
  | object fields => exact object fields (induction_on_fields fields)

theorem induction_on_items (items : List ArgumentValue) : ∀ item ∈ items, motive item := by
  cases items with
  | nil => exact List.forall_mem_nil _
  | cons item items =>
    exact List.forall_mem_cons.2 ⟨induction_on_members item, induction_on_items items⟩

theorem induction_on_fields (fields : List (String × ArgumentValue)) :
    ∀ field ∈ fields, motive field.2 := by
  cases fields with
  | nil => exact List.forall_mem_nil _
  | cons field fields =>
    obtain ⟨key, value⟩ := field
    exact List.forall_mem_cons.2 ⟨induction_on_members value, induction_on_fields fields⟩

end

end Induction

theorem sameItems_iff {as bs : List ArgumentValue} :
    sameItems as bs = true ↔ List.Forall₂ (fun a b ↦ a.same b = true) as bs := by
  induction as generalizing bs with
  | nil => cases bs <;> simp [sameItems]
  | cons a as ih => cases bs <;> simp [sameItems, ih]

theorem sameFields_iff {as bs : List (String × ArgumentValue)} :
    sameFields as bs = true ↔
      List.Forall₂ (fun a b ↦ a.1 = b.1 ∧ a.2.same b.2 = true) as bs := by
  induction as generalizing bs with
  | nil => cases bs <;> simp [sameFields]
  | cons a as ih => cases bs <;> simp [sameFields, ih]

theorem same_refl {a : ArgumentValue} (ha : a.WellFormed) : a.same a = true := by
  induction a using induction_on_members with
  | literal value => exact Json.same_refl ha
  | var name => exact beq_self_eq_true name
  | list items ih =>
    have hitems := (wellFormedItems_iff items).1 ha
    exact sameItems_iff.2 (List.forall₂_same.2 fun item hmem ↦ ih item hmem (hitems item hmem))
  | object fields ih =>
    have hfields := (wellFormedFields_iff fields).1 ha
    exact sameFields_iff.2
      (List.forall₂_same.2 fun field hmem ↦ ⟨rfl, ih field hmem (hfields field hmem)⟩)

theorem same_symm {a b : ArgumentValue} (ha : a.WellFormed) (hb : b.WellFormed)
    (h : a.same b = true) : b.same a = true := by
  induction a using induction_on_members generalizing b with
  | literal value =>
    cases b with
    | literal other => exact Json.same_symm ha hb h
    | _ => cases h
  | var name =>
    cases b with
    | var other => exact beq_iff_eq.2 (beq_iff_eq.1 h).symm
    | _ => cases h
  | list items ih =>
    cases b with
    | list others =>
      have hitems := (wellFormedItems_iff items).1 ha
      have hothers := (wellFormedItems_iff others).1 hb
      exact sameItems_iff.2 (forall₂_symm_of (fun item hitem other hother ↦
        ih item hitem (hitems item hitem) (hothers other hother)) (sameItems_iff.1 h))
    | _ => cases h
  | object fields ih =>
    cases b with
    | object others =>
      have hfields := (wellFormedFields_iff fields).1 ha
      have hothers := (wellFormedFields_iff others).1 hb
      exact sameFields_iff.2 (forall₂_symm_of (fun field hfield other hother hsame ↦
        ⟨hsame.1.symm, ih field hfield (hfields field hfield) (hothers other hother) hsame.2⟩)
        (sameFields_iff.1 h))
    | _ => cases h

theorem same_trans {a b c : ArgumentValue} (ha : a.WellFormed) (hb : b.WellFormed)
    (hc : c.WellFormed) (hab : a.same b = true) (hbc : b.same c = true) : a.same c = true := by
  induction a using induction_on_members generalizing b c with
  | literal value =>
    cases b with
    | literal other =>
      cases c with
      | literal last => exact Json.same_trans ha hb hc hab hbc
      | _ => cases hbc
    | _ => cases hab
  | var name =>
    cases b with
    | var other => exact (beq_iff_eq.1 hab) ▸ hbc
    | _ => cases hab
  | list items ih =>
    cases b with
    | list others =>
      cases c with
      | list lasts =>
        have hitems := (wellFormedItems_iff items).1 ha
        have hothers := (wellFormedItems_iff others).1 hb
        have hlasts := (wellFormedItems_iff lasts).1 hc
        exact sameItems_iff.2 (forall₂_trans_of (fun item hitem other hother last hlast ↦
          ih item hitem (hitems item hitem) (hothers other hother) (hlasts last hlast))
          (sameItems_iff.1 hab) (sameItems_iff.1 hbc))
      | _ => cases hbc
    | _ => cases hab
  | object fields ih =>
    cases b with
    | object others =>
      cases c with
      | object lasts =>
        have hfields := (wellFormedFields_iff fields).1 ha
        have hothers := (wellFormedFields_iff others).1 hb
        have hlasts := (wellFormedFields_iff lasts).1 hc
        exact sameFields_iff.2 (forall₂_trans_of
          (fun field hfield other hother last hlast hsame hsame' ↦
            ⟨hsame.1.trans hsame'.1, ih field hfield (hfields field hfield) (hothers other hother)
              (hlasts last hlast) hsame.2 hsame'.2⟩)
          (sameFields_iff.1 hab) (sameFields_iff.1 hbc))
      | _ => cases hbc
    | _ => cases hab

section Arguments

variable {a b c : Arguments} (ha : WellFormedFields a) (hb : WellFormedFields b)
  (hc : WellFormedFields c)

include ha

theorem sameFields_refl : sameFields a a = true :=
  -- the arguments of a field are compared as the fields of an object are
  same_refl (a := object a) ha

include hb

theorem sameFields_symm (h : sameFields a b = true) : sameFields b a = true :=
  same_symm (a := object a) (b := object b) ha hb h

include hc

theorem sameFields_trans (hab : sameFields a b = true) (hbc : sameFields b c = true) :
    sameFields a c = true :=
  same_trans (a := object a) (b := object b) (c := object c) ha hb hc hab hbc

end Arguments

end ArgumentValue

end GraphCache
