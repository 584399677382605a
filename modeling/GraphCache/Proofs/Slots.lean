import GraphCache.Json.Path

/-!
# Slots that are filled later

While an execution is under way, the data holds `null` in the slots of the fields that are not
finished. What the data will be in the end is the data with these slots filled.

## Main definitions

* `Path.Apart`: neither path leads to a part of the slot of the other.
* `Json.Awaits`: a path leads to a slot that holds `null`.
* `Json.fill`: a value with some slots filled.

## Main results

* `Json.fill_replaceAt?`: if a slot is replaced by a value with slots of its own, then filling these
  comes to the same as filling the slot.
-/

namespace GraphCache

/-- Neither path leads to a part of the slot of the other. -/
def Path.Apart (p q : Path) : Prop :=
  ¬ p <+: q ∧ ¬ q <+: p

namespace Path.Apart

theorem symm {p q : Path} (h : Apart p q) : Apart q p :=
  ⟨h.2, h.1⟩

theorem ne {p q : Path} (h : Apart p q) : p ≠ q := by
  rintro rfl
  exact h.1 (List.prefix_refl p)

theorem append_left {p q : Path} (h : Apart p q) (r : Path) : Apart (p ++ r) q := by
  refine ⟨fun hp ↦ h.1 ((List.prefix_append p r).trans hp), fun hq ↦ ?_⟩
  rcases List.prefix_or_prefix_of_prefix hq (List.prefix_append p r) with hqp | hpq
  · exact h.2 hqp
  · exact h.1 hpq

theorem append_right {p q : Path} (h : Apart p q) (r : Path) : Apart p (q ++ r) :=
  (h.symm.append_left r).symm

@[simp] theorem prefix_append_iff (r p q : Path) : Apart (r ++ p) (r ++ q) ↔ Apart p q := by
  simp [Apart, List.prefix_append_right_inj]

theorem cons_iff (s : PathElement) (p q : Path) : Apart (s :: p) (s :: q) ↔ Apart p q :=
  prefix_append_iff [s] p q

theorem of_head_ne {s t : PathElement} (h : s ≠ t) (p q : Path) : Apart (s :: p) (t :: q) := by
  simp [Apart, List.cons_prefix_cons, h, h.symm]

end Path.Apart

namespace Json

/-- No key of the value itself is repeated, if it is an object. -/
def KeysOnce : Json → Prop
  | .object fields => (Dict.keys fields).Nodup
  | _ => True

/-- A path leads to a slot that holds `null`, and no object on the way repeats a key. -/
def Awaits (value : Json) : Path → Prop
  | [] => value = .null
  | step :: path => value.KeysOnce ∧ ∃ inner, value.child? step = some inner ∧ Awaits inner path

mutual

/-- The value with the slots filled for which there is a value. -/
def fill (later : Path → Option Json) : Json → Json
  | .array items => (later []).getD (.array (fillItems later 0 items))
  | .object fields => (later []).getD (.object (fillFields later fields))
  | value => (later []).getD value

/-- Fills slots in the items of a list, of which the first has the given index. -/
def fillItems (later : Path → Option Json) (position : Nat) : List Json → List Json
  | [] => []
  | item :: items =>
    fill (fun path => later (.index position :: path)) item :: fillItems later (position + 1) items

/-- Fills slots in the fields of an object. -/
def fillFields (later : Path → Option Json) : List (String × Json) → List (String × Json)
  | [] => []
  | (key, value) :: fields =>
    (key, fill (fun path => later (.key key :: path)) value) :: fillFields later fields

end

theorem fill_of_root {later : Path → Option Json} {filling : Json}
    (h : later [] = some filling) (value : Json) : fill later value = filling := by
  cases value <;> simp [fill, h]

mutual

/-- Without slots to fill a value stays as it is. -/
theorem fill_eq_self {later : Path → Option Json} (h : ∀ path, later path = none) (value : Json) :
    fill later value = value := by
  cases value with
  | null => simp [fill, h]
  | bool _ => simp [fill, h]
  | number _ => simp [fill, h]
  | string _ => simp [fill, h]
  | array items => rw [fill, h, Option.getD_none, fillItems_eq_self h]
  | object fields => rw [fill, h, Option.getD_none, fillFields_eq_self h]

theorem fillItems_eq_self {later : Path → Option Json} (h : ∀ path, later path = none)
    (position : Nat) (items : List Json) : fillItems later position items = items := by
  cases items with
  | nil => rfl
  | cons item items =>
    have hitem : fill (fun path ↦ later (.index position :: path)) item = item :=
      fill_eq_self (fun path ↦ h _) item
    rw [fillItems, hitem, fillItems_eq_self h _ items]

theorem fillFields_eq_self {later : Path → Option Json} (h : ∀ path, later path = none)
    (fields : List (String × Json)) : fillFields later fields = fields := by
  cases fields with
  | nil => rfl
  | cons field fields =>
    obtain ⟨key, value⟩ := field
    have hvalue : fill (fun path ↦ later (.key key :: path)) value = value :=
      fill_eq_self (fun path ↦ h _) value
    rw [fillFields, hvalue, fillFields_eq_self h fields]

end

section Fill

variable {later later' : Path → Option Json}

theorem keys_fillFields (later : Path → Option Json) (fields : Object) :
    Dict.keys (fillFields later fields) = Dict.keys fields := by
  induction fields with
  | nil => rfl
  | cons field fields ih =>
    obtain ⟨key, value⟩ := field
    rw [fillFields, Dict.keys, List.map_cons]
    exact congrArg (key :: ·) ih

theorem get?_fillFields (later : Path → Option Json) (fields : Object) (key : String) :
    Dict.get? (fillFields later fields) key
      = (Dict.get? fields key).map (fill fun path => later (.key key :: path)) := by
  induction fields with
  | nil => rfl
  | cons field fields ih =>
    obtain ⟨name, value⟩ := field
    rw [fillFields, Dict.get?_cons, Dict.get?_cons, ih]
    split
    · next hname =>
      subst hname
      rfl
    · rfl

/-- Only the slots in the items of a list count for filling them. -/
theorem fillItems_congr {position : Nat} (items : List Json)
    (h : ∀ index path, position ≤ index →
      later (.index index :: path) = later' (.index index :: path)) :
    fillItems later position items = fillItems later' position items := by
  induction items generalizing position with
  | nil => rfl
  | cons item items ih =>
    have hitem : (fun path ↦ later (.index position :: path))
        = fun path ↦ later' (.index position :: path) :=
      funext fun path ↦ h position path (Nat.le_refl _)
    rw [fillItems, fillItems, hitem, ih fun index path hle ↦ h index path (by omega)]

/-- Only the slots in the fields of an object count for filling them. -/
theorem fillFields_congr {fields : List (String × Json)}
    (h : ∀ key ∈ Dict.keys fields, ∀ path, later (.key key :: path) = later' (.key key :: path)) :
    fillFields later fields = fillFields later' fields := by
  induction fields with
  | nil => rfl
  | cons field fields ih =>
    obtain ⟨key, value⟩ := field
    have hvalue : (fun path ↦ later (.key key :: path)) = fun path ↦ later' (.key key :: path) :=
      funext fun path ↦ h key List.mem_cons_self path
    rw [fillFields, fillFields, hvalue,
      ih fun other hother ↦ h other (List.mem_cons_of_mem key hother)]

/-- Setting a field and filling slots can be exchanged if the slots in the other fields are the
same. -/
theorem fillFields_insert {fields : Object} (hnodup : (Dict.keys fields).Nodup) (key : String)
    (value : Json)
    (h : ∀ other, other ≠ key → ∀ path,
      later' (.key other :: path) = later (.key other :: path)) :
    fillFields later' (Dict.insert fields key value)
      = Dict.insert (fillFields later fields) key
          (fill (fun path => later' (.key key :: path)) value) := by
  induction fields with
  | nil => rfl
  | cons field fields ih =>
    obtain ⟨k, v⟩ := field
    have hrest := (List.nodup_cons.1 hnodup).2
    by_cases hk : k = key
    · subst hk
      have hcongr : fillFields later' fields = fillFields later fields :=
        fillFields_congr fun other hother ↦
          h other fun heq ↦ (List.nodup_cons.1 hnodup).1 (heq ▸ hother)
      simp [Dict.insert, fillFields, hcongr]
    · have hv : (fun path ↦ later' (.key k :: path)) = fun path ↦ later (.key k :: path) :=
        funext fun path ↦ h k hk path
      simp [Dict.insert, fillFields, hk, ih hrest, hv]

/-- Setting a field to the value that it has after filling changes nothing. -/
theorem insert_fillFields_of_get? {fields : Object} {name : String} {inner : Json}
    (h : Dict.get? fields name = some inner) :
    Dict.insert (fillFields later fields) name (fill (fun path => later (.key name :: path)) inner)
      = fillFields later fields := by
  induction fields with
  | nil => simp at h
  | cons field fields ih =>
    obtain ⟨k, v⟩ := field
    rw [Dict.get?_cons] at h
    by_cases hk : k = name
    · subst hk
      simp only [ite_true, Option.some.injEq] at h
      subst h
      simp [fillFields, Dict.insert]
    · simp only [hk, ite_false] at h
      simp [fillFields, Dict.insert, hk, ih h]

theorem fillItems_set {items : List Json} {position index : Nat} {inner value : Json}
    (hinner : items[index]? = some inner)
    (hvalue : fill (fun path => later' (.index (position + index) :: path)) value
      = fill (fun path => later (.index (position + index) :: path)) inner)
    (h : ∀ other, other ≠ position + index → ∀ path,
      later' (.index other :: path) = later (.index other :: path)) :
    fillItems later' position (items.set index value) = fillItems later position items := by
  induction items generalizing position index with
  | nil => simp at hinner
  | cons item items ih =>
    cases index with
    | zero =>
      simp only [List.getElem?_cons_zero, Option.some.injEq] at hinner
      subst hinner
      rw [List.set_cons_zero, fillItems, fillItems,
        fillItems_congr items fun other path hle ↦ h other (by omega) path]
      exact congrArg (· :: _) hvalue
    | succ index =>
      rw [List.getElem?_cons_succ] at hinner
      have heq : position + (index + 1) = position + 1 + index := by omega
      have hitem : (fun path ↦ later' (.index position :: path))
          = fun path ↦ later (.index position :: path) :=
        funext fun path ↦ h position (by omega) path
      rw [List.set_cons_succ, fillItems, fillItems, hitem,
        ih hinner (heq ▸ hvalue) fun other hne path ↦ h other (heq ▸ hne) path]

end Fill

section Child

variable {target inner value : Json} {step : PathElement}

theorem child?_setChild (h : target.child? step = some inner) (value : Json) :
    (target.setChild step value).child? step = some value := by
  cases target <;> cases step <;> simp only [child?, setChild, reduceCtorEq] at h ⊢
  · exact List.getElem?_set_self (List.getElem?_eq_some_iff.1 h).1
  · exact Dict.get?_insert_self _ _ _

theorem child?_setChild_of_ne {other : PathElement} (hne : other ≠ step) (value : Json) :
    (target.setChild step value).child? other = target.child? other := by
  cases target <;> cases step <;> cases other <;> simp_all [child?, setChild]
  · exact List.getElem?_set_ne (Ne.symm hne)
  · exact Dict.get?_insert_of_ne _ _ (Ne.symm hne)

theorem KeysOnce.setChild (h : target.KeysOnce) (step : PathElement) (value : Json) :
    (target.setChild step value).KeysOnce := by
  cases target <;> cases step <;> simp_all [KeysOnce, Json.setChild]
  exact Dict.nodup_keys_insert h _ _

/-- Filling does not see a change of one part if it fills both versions of the part alike. -/
theorem fill_setChild {later later' : Path → Option Json} (honce : target.KeysOnce)
    (hinner : target.child? step = some inner) (hroot : later [] = none) (hroot' : later' [] = none)
    (hvalue : fill (fun path => later' (step :: path)) value
      = fill (fun path => later (step :: path)) inner)
    (h : ∀ other, other ≠ step → ∀ path, later' (other :: path) = later (other :: path)) :
    fill later' (target.setChild step value) = fill later target := by
  cases target with
  | null => simp [child?] at hinner
  | bool _ => simp [child?] at hinner
  | number _ => simp [child?] at hinner
  | string _ => simp [child?] at hinner
  | array items =>
    cases step with
    | key name => simp [child?] at hinner
    | index position =>
      simp only [setChild, fill, hroot, hroot', Option.getD_none, array.injEq]
      have hzero : 0 + position = position := Nat.zero_add position
      exact fillItems_set hinner (hzero.symm ▸ hvalue) fun other hne path ↦
        h (.index other) (fun heq ↦ hne (by cases heq; omega)) path
  | object fields =>
    cases step with
    | index position => simp [child?] at hinner
    | key name =>
      simp only [setChild, fill, hroot, hroot', Option.getD_none, object.injEq]
      rw [fillFields_insert honce name value fun other hne path ↦
        h (.key other) (fun heq ↦ hne (by cases heq; rfl)) path, hvalue]
      exact insert_fillFields_of_get? hinner

end Child

/-- A path that leads to a slot can be used for writing, and slots elsewhere stay slots. -/
theorem Awaits.replaceAt? {target : Json} {path : Path} (h : target.Awaits path) (value : Json) :
    ∃ target', target.replaceAt? path value = some target' ∧
      (∀ other, path.Apart other → target.Awaits other → target'.Awaits other) ∧
      ∀ inner, value.Awaits inner → target'.Awaits (path ++ inner) := by
  induction path generalizing target with
  | nil => exact ⟨value, rfl, fun other hother ↦ (hother.1 List.nil_prefix).elim, fun _ h ↦ h⟩
  | cons step path ih =>
    obtain ⟨honce, inner, hinner, hawaits⟩ := h
    obtain ⟨inner', hreplace, helse, hbelow⟩ := ih hawaits
    refine ⟨target.setChild step inner', by simp [Json.replaceAt?, hinner, hreplace], ?_, ?_⟩
    · intro other hapart hother
      cases other with
      | nil => exact (hapart.2 List.nil_prefix).elim
      | cons step' other =>
        obtain ⟨_, inner'', hinner'', hother⟩ := hother
        refine ⟨honce.setChild step inner', ?_⟩
        by_cases hstep : step' = step
        · subst hstep
          rw [hinner] at hinner''
          cases hinner''
          exact ⟨inner', child?_setChild hinner inner',
            helse other ((Path.Apart.cons_iff _ _ _).1 hapart) hother⟩
        · exact ⟨inner'', by rw [child?_setChild_of_ne hstep, hinner''], hother⟩
    · intro below hbelow'
      exact ⟨honce.setChild step inner', inner', child?_setChild hinner inner',
        hbelow below hbelow'⟩

/-- If a slot is replaced by a value with slots of its own, then filling these comes to the same as
filling the slot. -/
theorem fill_replaceAt? {target target' value : Json} {path : Path}
    {later later' more : Path → Option Json} (h : target.Awaits path)
    (htarget' : target.replaceAt? path value = some target')
    (hpath : later path = some (fill more value))
    (habove : ∀ other, other <+: path → other ≠ path → later other = none)
    (hbelow : ∀ inner, later' (path ++ inner) = more inner)
    (helse : ∀ other, ¬ path <+: other → later' other = later other) :
    fill later' target' = fill later target := by
  induction path generalizing target target' later later' with
  | nil =>
    cases htarget'
    rw [fill_of_root hpath]
    exact congrArg (fill · value) (funext hbelow)
  | cons step path ih =>
    obtain ⟨honce, inner, hinner, hawaits⟩ := h
    simp only [Json.replaceAt?, hinner, bind, Option.bind] at htarget'
    cases hreplace : inner.replaceAt? path value with
    | none => rw [hreplace] at htarget'; cases htarget'
    | some inner' =>
      rw [hreplace] at htarget'
      cases htarget'
      have hroot : later [] = none := habove [] List.nil_prefix (by simp)
      have hroot' : later' [] = none := by rw [helse [] (by simp), hroot]
      refine fill_setChild honce hinner hroot hroot' ?_ fun other hne rest ↦
        helse _ fun hprefix ↦ hne (List.cons_prefix_cons.1 hprefix).1.symm
      refine ih hawaits hreplace hpath ?_ hbelow ?_
      · intro other hprefix hne
        exact habove _ (List.cons_prefix_cons.2 ⟨rfl, hprefix⟩) fun heq ↦ hne (List.cons.inj heq).2
      · intro other hnot
        exact helse _ fun hprefix ↦ hnot (List.cons_prefix_cons.1 hprefix).2

end Json

end GraphCache
