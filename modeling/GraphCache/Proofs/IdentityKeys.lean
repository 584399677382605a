import GraphCache.Proofs.IdentifiedRecords
import GraphCache.Proofs.KeyOrder
import Mathlib.Tactic

/-!
# The keys of equal objects

Equal objects have an identity together, and the same type. The key tells the values of the key
fields by their texts, and these values are not sorted: so equal objects have the same key exactly
if the values of their key fields are written alike, with the keys of all objects in them in the
same order. Then writing one of the objects after the other adds no record.

## Main definitions

* `Json.outline`: what equality of values leaves open.
* `identifyingFields`: the fields that identify an object of a type.
* `WritesKeysAlike`: the key fields of two objects have values that are written alike.

## Main results

* `Json.chars_eq_iff_of_same`: equal values have the same text if their outlines are the same.
* `identify?_of_same`: what becomes of equal objects.
* `identify?_tells_order`: equal objects may have different keys.
-/

namespace GraphCache

/-! ### The texts of equal values -/

namespace Json

mutual

/-- What equality of values leaves open: the order of the keys of every object, and the texts of
numbers, since both zeros are equal. -/
def outline : Json → Json
  | .number n => .string (String.ofList n.chars)
  | .array items => .array (outlines items)
  | .object fields => .object (fieldOutlines fields)
  | _ => .null

/-- What equality of lists of values leaves open. -/
def outlines : List Json → List Json
  | [] => []
  | value :: values => outline value :: outlines values

/-- What equality of the values of fields leaves open. -/
def fieldOutlines : List (String × Json) → List (String × Json)
  | [] => []
  | (key, value) :: fields => (key, outline value) :: fieldOutlines fields

end

theorem outlines_eq_map (values : List Json) : outlines values = values.map outline := by
  induction values with
  | nil => rfl
  | cons value values ih => rw [outlines, ih, List.map_cons]

theorem fieldOutlines_eq_map (fields : List (String × Json)) :
    fieldOutlines fields = fields.map fun field ↦ (field.1, field.2.outline) := by
  induction fields with
  | nil => rfl
  | cons field fields ih => rw [fieldOutlines, ih, List.map_cons]

theorem outline_array_eq_iff {items others : List Json} :
    (array items).outline = (array others).outline ↔
      List.Forall₂ (fun a b ↦ a.outline = b.outline) items others := by
  rw [outline, outline, Json.array.injEq, outlines_eq_map, outlines_eq_map, ← List.forall₂_eq_eq_eq,
    List.forall₂_map_left_iff, List.forall₂_map_right_iff]

theorem outline_object_eq_iff {fields others : Object} (hfields : (Dict.keys fields).Nodup) :
    (object fields).outline = (object others).outline ↔
      Dict.keys fields = Dict.keys others ∧
        ∀ key value other, Dict.get? fields key = some value → Dict.get? others key = some other →
          value.outline = other.outline := by
  rw [← Dict.forall₂_iff (R := fun (a b : Json) ↦ a.outline = b.outline) hfields, outline, outline,
    Json.object.injEq, fieldOutlines_eq_map, fieldOutlines_eq_map, ← List.forall₂_eq_eq_eq,
    List.forall₂_map_left_iff, List.forall₂_map_right_iff]
  simp only [Prod.mk.injEq]

/-- Equal values have the same text exactly if equality leaves nothing open between them. -/
theorem chars_eq_iff_of_same {value other : Json} (hvalue : value.WellFormed)
    (hother : other.WellFormed) (h : value.same other = true) :
    value.chars = other.chars ↔ value.outline = other.outline := by
  induction value using induction_on_members generalizing other with
  | null =>
    cases other with
    | null => exact iff_of_true rfl rfl
    | _ => cases h
  | bool value =>
    cases other with
    | bool other =>
      obtain rfl : value = other := beq_iff_eq.1 h
      exact iff_of_true rfl rfl
    | _ => cases h
  | number n =>
    cases other with
    | number other => rw [chars, chars, outline, outline, Json.string.injEq, String.ofList_inj]
    | _ => cases h
  | string text =>
    cases other with
    | string other =>
      obtain rfl : text = other := beq_iff_eq.1 h
      exact iff_of_true rfl rfl
    | _ => cases h
  | array items ih =>
    cases other with
    | array others =>
      have hitems := (wellFormedItems_iff items).1 hvalue
      have hothers := (wellFormedItems_iff others).1 hother
      rw [chars_array_eq_iff, outline_array_eq_iff]
      refine forall₂_congr_of_zip fun item other hmem ↦ ?_
      obtain ⟨hitem, hother⟩ := List.of_mem_zip hmem
      exact ih item hitem (hitems item hitem) (hothers other hother)
        ((List.forall₂_iff_zip.1 (sameItems_iff.1 h)).2 hmem)
    | _ => cases h
  | object fields ih =>
    cases other with
    | object others =>
      have hvalues := ((same_object_iff hvalue.1 hother.1).1 h).2
      rw [chars_object_eq_iff_of_nodup hvalue.1, outline_object_eq_iff hvalue.1]
      refine and_congr_right fun _ ↦ forall₃_congr fun key value other ↦
        imp_congr_right fun hget ↦ imp_congr_right fun hget' ↦ ?_
      exact ih _ (Dict.mem_of_get? hget) (hvalue.of_get? hget) (hother.of_get? hget')
        (hvalues key value other hget hget')
    | _ => cases h

end Json

/-! ### Key fields -/

/-- All key fields are needed for the key object, which is made of their values. -/
theorem keyObject?_eq_some_iff {object : Object} {fields : List String} {key : Object} :
    keyObject? object fields = some key ↔
      (∀ field ∈ fields, (presentField? object field).isSome) ∧
        Dict.ofPairs (fields.map fun field ↦ (field, (presentField? object field).getD .null))
          = key := by
  have hentries (entries : Object) :
      (fields.mapM fun field ↦ (presentField? object field).map (field, ·)) = some entries ↔
        (∀ field ∈ fields, (presentField? object field).isSome) ∧
          (fields.map fun field ↦ (field, (presentField? object field).getD .null)) = entries := by
    induction fields generalizing entries with
    | nil => simp
    | cons field fields ih =>
      cases hfield : presentField? object field with
      | none => simp [hfield]
      | some value => simp [hfield, Option.bind_eq_some_iff, ih]
  rw [keyObject?, Option.map_eq_some_iff]
  constructor
  · rintro ⟨entries, hfound, rfl⟩
    obtain ⟨hall, rfl⟩ := (hentries entries).1 hfound
    exact ⟨hall, rfl⟩
  · rintro ⟨hall, rfl⟩
    exact ⟨_, (hentries _).2 ⟨hall, rfl⟩, rfl⟩

/-- The fields that identify an object of a type: those that the policy of the type lists, or else
the first default one that is present. -/
def identifyingFields (policies : TypePolicies) (typename : String) (object : Object) :
    List String :=
  match Dict.get? policies typename with
  | some fields => fields
  | none => (defaultKeyFields.find? fun field => (presentField? object field).isSome).toList

/-- The key fields of two objects have values that are written alike. -/
def WritesKeysAlike (policies : TypePolicies) (a b : Object) : Prop :=
  ∀ typename, typename? a = some typename → ∀ field ∈ identifyingFields policies typename a,
    (Dict.get? a field).map Json.outline = (Dict.get? b field).map Json.outline

/-! ### Equal objects -/

theorem rel_filter {α β : Type} {R : α → β → Prop} {p : α → Bool} {q : β → Bool} {o : Option α}
    {o' : Option β} (h : Option.Rel R o o') (hpq : ∀ a b, R a b → p a = q b) :
    Option.Rel R (o.filter p) (o'.filter q) := by
  cases h with
  | none => exact .none
  | some hrel =>
    rw [Option.filter_some, Option.filter_some, hpq _ _ hrel]
    split
    · exact .some hrel
    · exact .none

theorem bind_eq_of_rel {α β γ : Type} {R : α → β → Prop} {f : α → Option γ} {g : β → Option γ}
    {o : Option α} {o' : Option β} (h : Option.Rel R o o') (hfg : ∀ a b, R a b → f a = g b) :
    o.bind f = o'.bind g := by
  cases h with
  | none => rfl
  | some hrel => exact hfg _ _ hrel

theorem isSome_eq_of_rel {α β : Type} {R : α → β → Prop} {o : Option α} {o' : Option β}
    (h : Option.Rel R o o') : o.isSome = o'.isSome := by
  cases h <;> rfl

theorem findSome?_eq_find?_bind {α β : Type} (f : α → Option β) (as : List α) :
    as.findSome? f = (as.find? fun a ↦ (f a).isSome).bind f := by
  induction as with
  | nil => rfl
  | cons a as ih =>
    rw [List.findSome?_cons, List.find?_cons]
    cases ha : f a with
    | none => simpa [ha] using ih
    | some value => simp [ha]

/-- For equal values, the texts inside a key are the same exactly if the texts are. -/
theorem identityText_eq_iff_of_same {value other : Json} (h : value.same other = true) :
    identityText value = identityText other ↔ value.chars = other.chars := by
  cases value with
  | string text =>
    cases other with
    | string other =>
      obtain rfl : text = other := beq_iff_eq.1 h
      exact iff_of_true rfl rfl
    | _ => cases h
  | _ =>
    cases other with
    | string other => cases h
    | _ => exact String.ofList_inj

section Same

variable {policies : TypePolicies} {a b : Object} (ha : (Json.object a).WellFormed)
  (hb : (Json.object b).WellFormed) (hsame : (Json.object a).same (.object b) = true)

include ha hb hsame

/-- Equal objects have equal fields. -/
theorem get?_rel_of_same (field : String) :
    Option.Rel (fun value other ↦ value.same other = true) (Dict.get? a field)
      (Dict.get? b field) := by
  obtain ⟨hkeys, hvalues⟩ := (Json.same_object_iff ha.1 hb.1).1 hsame
  have hpresent : (Dict.get? a field).isSome ↔ (Dict.get? b field).isSome := by
    rw [Dict.get?_isSome_iff, Dict.get?_isSome_iff, hkeys]
  cases hvalue : Dict.get? a field with
  | none =>
    cases hother : Dict.get? b field with
    | none => exact .none
    | some other => simp [hvalue, hother] at hpresent
  | some value =>
    cases hother : Dict.get? b field with
    | none => simp [hvalue, hother] at hpresent
    | some other => exact .some (hvalues field value other hvalue hother)

theorem presentField?_rel_of_same (field : String) :
    Option.Rel (fun value other ↦ value.same other = true) (presentField? a field)
      (presentField? b field) := by
  refine rel_filter (get?_rel_of_same ha hb hsame field) fun value other hequal ↦ ?_
  cases value <;> cases other <;> first | rfl | cases hequal

theorem typename?_eq_of_same : typename? a = typename? b := by
  refine bind_eq_of_rel (get?_rel_of_same ha hb hsame typenameField) fun value other hequal ↦ ?_
  cases value <;> cases other <;> first | rfl | cases hequal | skip
  exact congrArg some (beq_iff_eq.1 hequal)

/-- The values of a field that is present in equal objects have the same text exactly if they are
written alike. -/
theorem exists_presentField?_of_same {field : String} {value : Json}
    (hvalue : presentField? a field = some value) :
    ∃ other, presentField? b field = some other ∧ value.same other = true ∧
      (value.chars = other.chars ↔
        (Dict.get? a field).map Json.outline = (Dict.get? b field).map Json.outline) := by
  have hrel := presentField?_rel_of_same ha hb hsame field
  rw [hvalue] at hrel
  cases hother : presentField? b field with
  | none =>
    rw [hother] at hrel
    cases hrel
  | some other =>
    rw [hother] at hrel
    obtain ⟨hget, -⟩ := Option.filter_eq_some_iff.1 hvalue
    obtain ⟨hget', -⟩ := Option.filter_eq_some_iff.1 hother
    cases hrel with
    | some hequal =>
      refine ⟨other, rfl, hequal, ?_⟩
      rw [hget, hget', Option.map_some, Option.map_some, Option.some.injEq]
      exact Json.chars_eq_iff_of_same (ha.of_get? hget) (hb.of_get? hget') hequal

/-- Key objects of equal objects exist together, and have the same text exactly if the values of the
key fields are written alike. -/
theorem exists_keyObject?_of_same {fields : List String} {key : Object}
    (hkey : keyObject? a fields = some key) :
    ∃ other, keyObject? b fields = some other ∧
      ((Json.object key).text = (Json.object other).text ↔ ∀ field ∈ fields,
        (Dict.get? a field).map Json.outline = (Dict.get? b field).map Json.outline) := by
  obtain ⟨hall, rfl⟩ := keyObject?_eq_some_iff.1 hkey
  have hall' : ∀ field ∈ fields, (presentField? b field).isSome := by
    intro field hfield
    rw [← isSome_eq_of_rel (presentField?_rel_of_same ha hb hsame field)]
    exact hall field hfield
  refine ⟨_, keyObject?_eq_some_iff.2 ⟨hall', rfl⟩, ?_⟩
  have hkeys : Dict.keys (Dict.ofPairs
        (fields.map fun field ↦ (field, (presentField? a field).getD .null)))
      = Dict.keys (Dict.ofPairs
        (fields.map fun field ↦ (field, (presentField? b field).getD .null))) := by
    refine Dict.keys_merge_congr rfl ?_
    rw [Dict.keys, Dict.keys, List.map_map, List.map_map]
    rfl
  rw [Json.text, Json.text, String.ofList_inj,
    Json.chars_object_eq_iff_of_nodup (Dict.nodup_keys_ofPairs _), and_iff_right hkeys]
  simp only [Dict.get?_ofPairs_map]
  refine forall_congr' fun field ↦ ?_
  by_cases hfield : field ∈ fields
  · obtain ⟨value, hvalue⟩ := Option.isSome_iff_exists.1 (hall field hfield)
    obtain ⟨other, hother, -, htext⟩ := exists_presentField?_of_same ha hb hsame hvalue
    simp [hfield, hvalue, hother, htext]
  · simp [hfield]

/-- What identifies equal objects among those of a type exists together, and is the same exactly if
the values of the key fields are written alike. -/
theorem exists_identityText?_of_same {typename text : String}
    (htext : identityText? policies typename a = some text) :
    ∃ other, identityText? policies typename b = some other ∧
      (text = other ↔ ∀ field ∈ identifyingFields policies typename a,
        (Dict.get? a field).map Json.outline = (Dict.get? b field).map Json.outline) := by
  rw [identityText?] at htext ⊢
  rw [identifyingFields]
  cases hpolicy : Dict.get? policies typename with
  | some fields =>
    rw [hpolicy] at htext
    obtain ⟨key, hkey, rfl⟩ := Option.map_eq_some_iff.1 htext
    obtain ⟨other, hother, hiff⟩ := exists_keyObject?_of_same ha hb hsame hkey
    exact ⟨_, by simp only [hother, Option.map_some], hiff⟩
  | none =>
    rw [hpolicy] at htext
    obtain ⟨value, hvalue, rfl⟩ := Option.map_eq_some_iff.1 htext
    rw [findSome?_eq_find?_bind] at hvalue
    obtain ⟨field, hfield, hvalue⟩ := Option.bind_eq_some_iff.1 hvalue
    obtain ⟨other, hother, hequal, hiff⟩ := exists_presentField?_of_same ha hb hsame hvalue
    have hfield' : defaultKeyFields.find? (fun field ↦ (presentField? b field).isSome)
        = some field := by
      simpa only [isSome_eq_of_rel (presentField?_rel_of_same ha hb hsame _)] using hfield
    refine ⟨identityText other, ?_, ?_⟩
    · simp only [findSome?_eq_find?_bind, hfield', Option.bind_some, hother, Option.map_some]
    · rw [identityText_eq_iff_of_same hequal, hiff]
      simp only [hfield, Option.toList_some, List.forall_mem_singleton]

/-- Keys of equal objects exist together, and are the same exactly if the values of the key fields
are written alike. -/
theorem exists_identify?_of_same {key : String} (hkey : identify? policies a = some key) :
    ∃ other, identify? policies b = some other ∧ (key = other ↔ WritesKeysAlike policies a b) := by
  obtain ⟨typename, text, htypename, htext, rfl⟩ := identify?_eq_some_iff.1 hkey
  obtain ⟨other, hother, hiff⟩ := exists_identityText?_of_same ha hb hsame htext
  have htypename' : typename? b = some typename := typename?_eq_of_same ha hb hsame ▸ htypename
  refine ⟨_, identify?_eq_some_iff.2 ⟨typename, other, htypename', hother, rfl⟩, ?_⟩
  simp only [WritesKeysAlike, htypename, Option.some.injEq, forall_eq', ← hiff,
    String.append_right_inj]

theorem identify?_eq_none_iff_of_same :
    identify? policies a = none ↔ identify? policies b = none := by
  have hforward {a b : Object} (ha : (Json.object a).WellFormed) (hb : (Json.object b).WellFormed)
      (hsame : (Json.object a).same (.object b) = true) (hnone : identify? policies b = none) :
      identify? policies a = none := by
    refine Option.eq_none_iff_forall_ne_some.2 fun key hkey ↦ ?_
    obtain ⟨other, hother, -⟩ := exists_identify?_of_same ha hb hsame hkey
    cases hnone.symm.trans hother
  exact ⟨hforward hb ha (Json.same_symm ha hb hsame), hforward ha hb hsame⟩

end Same

/-! ### Writing equal objects -/

/-- The content after a record has been written, if it has an identity. -/
def Snapshot.place (snapshot : Snapshot) (normalizer : Normalizer) (record : Object) : Snapshot :=
  snapshot.assignAll (normalizer.place record []).2

theorem Snapshot.place_of_identify?_eq_none {normalizer : Normalizer} {record : Object}
    (snapshot : Snapshot) (h : identify? normalizer.policies record = none) :
    snapshot.place normalizer record = snapshot := by
  rw [place, Normalizer.place, h]
  rfl

theorem Snapshot.place_of_identify?_eq_some {normalizer : Normalizer} {record : Object}
    {key : String} (snapshot : Snapshot) (h : identify? normalizer.policies record = some key) :
    snapshot.place normalizer record = snapshot.assign (key, record) := by
  rw [place, Normalizer.place, h]
  rfl

theorem Snapshot.keys_assign (snapshot : Snapshot) (assignment : Assignment) :
    Dict.keys (snapshot.assign assignment) = if assignment.1 ∈ Dict.keys snapshot
      then Dict.keys snapshot else Dict.keys snapshot ++ [assignment.1] :=
  Dict.keys_insert _ _ _

/-- Of two objects that have identities, the second one adds no record to any content exactly if
they have the same key. -/
theorem keys_place_place_iff (normalizer : Normalizer) {a b : Object} {key other : String}
    (ha : identify? normalizer.policies a = some key)
    (hb : identify? normalizer.policies b = some other) :
    (∀ snapshot : Snapshot, Dict.keys ((snapshot.place normalizer a).place normalizer b)
      = Dict.keys (snapshot.place normalizer a)) ↔ key = other := by
  simp only [Snapshot.place_of_identify?_eq_some _ ha, Snapshot.place_of_identify?_eq_some _ hb]
  constructor
  · intro h
    have hempty := h []
    rw [Snapshot.keys_assign, ite_eq_left_iff] at hempty
    have hmem : other ∈ Dict.keys (Snapshot.assign [] (key, a)) := by
      by_contra hnot
      simpa using hempty hnot
    exact (List.mem_singleton.1 hmem).symm
  · rintro rfl snapshot
    have hmem : key ∈ Dict.keys (snapshot.assign (key, a)) := Dict.mem_keys_insert_self _ _ _
    rw [Snapshot.keys_assign, if_pos hmem]

/-- Of two objects that are equal up to the order of keys, either both have an identity or none.
They have the same key, and are kept in one record, exactly if the values of their key fields are
written alike. -/
theorem identify?_of_same {policies : TypePolicies} {a b : Object}
    (ha : (Json.object a).WellFormed) (hb : (Json.object b).WellFormed)
    (hsame : (Json.object a).same (.object b) = true) (vars : Object) :
    (identify? policies a = none ↔ identify? policies b = none) ∧
      (identify? policies a = identify? policies b ↔
        (identify? policies a ≠ none → WritesKeysAlike policies a b)) ∧
      ((∀ snapshot : Snapshot,
          Dict.keys ((snapshot.place ⟨policies, vars⟩ a).place ⟨policies, vars⟩ b)
            = Dict.keys (snapshot.place ⟨policies, vars⟩ a)) ↔
        (identify? policies a ≠ none → WritesKeysAlike policies a b)) := by
  have hnone : identify? policies a = none ↔ identify? policies b = none :=
    identify?_eq_none_iff_of_same ha hb hsame
  refine ⟨hnone, ?_⟩
  cases hkey : identify? policies a with
  | none =>
    have hother := hnone.1 hkey
    have hplace (snapshot : Snapshot) : snapshot.place ⟨policies, vars⟩ b = snapshot :=
      snapshot.place_of_identify?_eq_none hother
    simp [hother, hplace]
  | some key =>
    obtain ⟨other, hother, hiff⟩ := exists_identify?_of_same ha hb hsame hkey
    rw [hother, keys_place_place_iff ⟨policies, vars⟩ hkey hother, Option.some.injEq, hiff]
    simp

/-- An object with an embedded object for its key. -/
def spot : Object :=
  [("__typename", .string "Spot"), ("id", .object [("x", .ofNat 1), ("y", .ofNat 2)]),
    ("name", .string "here")]

/-- `spot` with its fields in another order. -/
def reorderedSpot : Object :=
  [("name", .string "here"), ("id", .object [("x", .ofNat 1), ("y", .ofNat 2)]),
    ("__typename", .string "Spot")]

/-- `spot` with the keys of its `id` in another order. -/
def turnedSpot : Object :=
  [("__typename", .string "Spot"), ("id", .object [("y", .ofNat 2), ("x", .ofNat 1)]),
    ("name", .string "here")]

theorem wellFormed_spot : (Json.object spot).WellFormed :=
  ⟨by decide, trivial, ⟨by decide, trivial, trivial, trivial⟩, trivial, trivial⟩

theorem identify?_of_same_spot :
    (Json.object spot).WellFormed ∧ (Json.object reorderedSpot).WellFormed ∧
      (Json.object spot).same (.object reorderedSpot) = true ∧
      identify? [] spot = some "Spot:\x7b\"x\":1,\"y\":2\x7d" ∧
      WritesKeysAlike [] spot reorderedSpot ∧
      identify? [] spot = identify? [] reorderedSpot ∧
      ∀ snapshot : Snapshot,
        Dict.keys ((snapshot.place ⟨[], []⟩ spot).place ⟨[], []⟩ reorderedSpot)
          = Dict.keys (snapshot.place ⟨[], []⟩ spot) := by
  have hreordered : (Json.object reorderedSpot).WellFormed :=
    ⟨by decide, trivial, ⟨by decide, trivial, trivial, trivial⟩, trivial, trivial⟩
  have hsame : (Json.object spot).same (.object reorderedSpot) = true := by decide
  have halike : WritesKeysAlike [] spot reorderedSpot := by
    rintro typename - field hfield
    have hid : field ∈ ["id"] := hfield
    rw [List.mem_singleton.1 hid]
    rfl
  obtain ⟨-, hkeys, hrecords⟩ :=
    @identify?_of_same [] spot reorderedSpot wellFormed_spot hreordered hsame []
  exact ⟨wellFormed_spot, hreordered, hsame, by decide +kernel, halike, hkeys.2 fun _ ↦ halike,
    hrecords.2 fun _ ↦ halike⟩

/-- Objects that are equal up to the order of keys may have different keys, and are then kept in two
records. -/
theorem identify?_tells_order :
    (Json.object spot).WellFormed ∧ (Json.object turnedSpot).WellFormed ∧
      (Json.object spot).EqUpToOrder (.object turnedSpot) ∧
      (Json.object spot).same (.object turnedSpot) = true ∧
      identify? [] spot = some "Spot:\x7b\"x\":1,\"y\":2\x7d" ∧
      identify? [] turnedSpot = some "Spot:\x7b\"y\":2,\"x\":1\x7d" ∧
      identify? [] spot ≠ identify? [] turnedSpot ∧
      (Dict.keys ((Snapshot.place [] ⟨[], []⟩ spot).place ⟨[], []⟩ turnedSpot)).length = 2 := by
  have hturned : (Json.object turnedSpot).WellFormed :=
    ⟨by decide, trivial, ⟨by decide, trivial, trivial, trivial⟩, trivial, trivial⟩
  have hsorted : (Json.object spot).sorted.chars = (Json.object turnedSpot).sorted.chars := by cbv
  refine ⟨wellFormed_spot, hturned,
    (Json.chars_sorted_eq_iff wellFormed_spot hturned).1 hsorted, by decide, by decide +kernel,
    by decide +kernel, ?_, by decide +kernel⟩
  have hkey : identify? [] spot = some "Spot:\x7b\"x\":1,\"y\":2\x7d" := by decide +kernel
  have hkey' : identify? [] turnedSpot = some "Spot:\x7b\"y\":2,\"x\":1\x7d" := by decide +kernel
  rw [hkey, hkey']
  decide

end GraphCache
