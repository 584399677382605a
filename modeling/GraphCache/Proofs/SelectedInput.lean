import GraphCache.Proofs.WritePass

/-!
# What the write pass reads

Of a response the write pass reads the types of objects and the remote fields that are selected at
them. Two responses that agree on these are written in the same way, whatever else they hold: under
keys of local fields, of fields that are skipped or apply to another type, or that nothing selects.

The key of an entity is computed from the record that is written, and which fields apply is decided
on the object as it was received. Several fields may read one response key with different nested
selections; then the values have to agree for each of them.

## Main definitions

* `Json.Agree`: values agree if the objects in them do.
* `FieldPlan.ValuesAgree`, `SelectionPlan.Agree`: values agree for a field, and objects for a
  selection set.
* `SelectionPlan.Ignores`: nothing is read from an object under a key.

## Main results

* `Normalizer.written_eq_of_agree`, `Normalizer.writeFields_eq_of_agree`: values and objects that
  agree are written in the same way.
* `Normalizer.normalize_eq_of_agree`: so are whole responses.
-/

namespace GraphCache

/-! ### Values that agree -/

namespace Json

mutual

/-- Two values agree if the objects in them do: lists of the same length item by item, and what is
neither a list nor an object only with itself. -/
def Agree (objects : Object → Object → Prop) : Json → Json → Prop
  | .array items, .array others => AgreeItems objects items others
  | .object fields, .object others => objects fields others
  | a, b => a = b

/-- Two lists have the same length, and their items agree one by one. -/
def AgreeItems (objects : Object → Object → Prop) : List Json → List Json → Prop
  | [], [] => True
  | item :: items, other :: others => Agree objects item other ∧ AgreeItems objects items others
  | _, _ => False

end

section Reflexivity

variable {objects : Object → Object → Prop} (hobjects : ∀ object, objects object object)

include hobjects

-- Each theorem of the block needs the assumptions of the others.
set_option linter.unusedSectionVars false in
mutual

theorem agree_refl (value : Json) : value.Agree objects value := by
  cases value with
  | array items => exact agreeItems_refl items
  | object fields => exact hobjects fields
  | _ => rfl

theorem agreeItems_refl (items : List Json) : AgreeItems objects items items := by
  cases items with
  | nil => trivial
  | cons item items => exact ⟨agree_refl item, agreeItems_refl items⟩

end

end Reflexivity

end Json

namespace FieldPlan

variable (vars : Object)

mutual

/-- Two values agree for a field: they are equal, or the objects in them have the same type and
agree on the nested selections. -/
def ValuesAgree : FieldPlan → Json → Json → Prop
  | .leaf _, a, b => a = b
  | .nested _ _ fields, a, b =>
    a.Agree (fun inner other =>
      Dict.get? inner typenameField = Dict.get? other typenameField ∧
        listAgree fields inner other) b

/-- Two objects of one type agree on those of the listed fields that are remote and selected: both
lack the response key, or both have it with values that agree. -/
def listAgree : List FieldPlan → Object → Object → Prop
  | [], _, _ => True
  | plan :: plans, a, b =>
    (plan.field.isLocal = false → plan.field.isSelected vars (typename? a) = true →
      Option.Rel (ValuesAgree plan) (Dict.get? a plan.field.responseKey)
        (Dict.get? b plan.field.responseKey)) ∧
    listAgree plans a b

end

variable {vars}

theorem listAgree_iff {plans : List FieldPlan} {a b : Object} :
    listAgree vars plans a b ↔ ∀ plan ∈ plans, plan.field.isLocal = false →
      plan.field.isSelected vars (typename? a) = true →
        Option.Rel (ValuesAgree vars plan) (Dict.get? a plan.field.responseKey)
          (Dict.get? b plan.field.responseKey) := by
  induction plans with
  | nil => simp [listAgree]
  | cons plan plans ih => simp [listAgree, ih]

mutual

theorem valuesAgree_refl (plan : FieldPlan) (value : Json) : plan.ValuesAgree vars value value := by
  cases plan with
  | leaf field => rfl
  | nested field id fields =>
    exact Json.agree_refl (fun object ↦ ⟨rfl, listAgree_refl fields object⟩) value

theorem listAgree_refl (plans : List FieldPlan) (object : Object) :
    listAgree vars plans object object := by
  cases plans with
  | nil => trivial
  | cons plan plans =>
    refine ⟨fun _ _ ↦ ?_, listAgree_refl plans object⟩
    cases Dict.get? object plan.field.responseKey with
    | none => exact .none
    | some value => exact .some (valuesAgree_refl plan value)

end

end FieldPlan

/-- Two objects agree for a selection set: they have the same type, or neither has one, and they
agree on the fields. -/
def SelectionPlan.Agree (vars : Object) (selection : SelectionPlan) (a b : Object) : Prop :=
  Dict.get? a typenameField = Dict.get? b typenameField ∧
    FieldPlan.listAgree vars selection.fields a b

/-- Nothing is read from an object under the key: it does not tell the type, and no remote field
that is selected at the object has it as its response key. -/
def SelectionPlan.Ignores (vars : Object) (selection : SelectionPlan) (object : Object)
    (key : String) : Prop :=
  key ≠ typenameField ∧ ∀ plan ∈ selection.fields, plan.field.isLocal = false →
    plan.field.isSelected vars (typename? object) = true → plan.field.responseKey ≠ key

/-- Objects agree if they differ only under a key that is ignored. -/
theorem SelectionPlan.Ignores.agree {vars : Object} {selection : SelectionPlan} {object : Object}
    {key : String} (h : selection.Ignores vars object key) (value : Json) :
    selection.Agree vars object (Dict.insert object key value) := by
  refine ⟨(Dict.get?_insert_of_ne _ _ h.1).symm,
    FieldPlan.listAgree_iff.2 fun plan hmem hremote hselected ↦ ?_⟩
  rw [Dict.get?_insert_of_ne _ _ (h.2 plan hmem hremote hselected).symm]
  exact FieldPlan.listAgree_iff.1 (FieldPlan.listAgree_refl selection.fields object) plan hmem
    hremote hselected

/-! ### Writing values that agree -/

namespace Normalizer

variable {normalizer : Normalizer}

section Values

variable {writeObject : Object → Object × List Assignment} {objects : Object → Object → Prop}
  (hobjects : ∀ inner other, objects inner other → writeObject inner = writeObject other)

include hobjects

-- Each theorem of the block needs the assumptions of the others.
set_option linter.unusedSectionVars false in
mutual

/-- Values that agree are written in the same way if the objects in them are. -/
theorem writeValue_eq_of_agree (a b : Json) (h : a.Agree objects b) :
    normalizer.writeValue writeObject a = normalizer.writeValue writeObject b := by
  cases a with
  | array items =>
    cases b with
    | array others =>
      have hitems := writeItems_eq_of_agree items others h
      simp only [writeValue, hitems]
    | _ => cases h
  | object fields =>
    cases b with
    | object others =>
      have hfields := hobjects fields others h
      simp only [writeValue, hfields]
    | _ => cases h
  | _ =>
    obtain rfl := h
    rfl

theorem writeItems_eq_of_agree (items others : List Json)
    (h : Json.AgreeItems objects items others) :
    normalizer.writeItems writeObject items = normalizer.writeItems writeObject others := by
  cases items with
  | nil =>
    cases others with
    | nil => rfl
    | cons other others => cases h
  | cons item items =>
    cases others with
    | nil => cases h
    | cons other others =>
      have hfirst := writeValue_eq_of_agree item other h.1
      have hrest := writeItems_eq_of_agree items others h.2
      simp only [writeItems, hfirst, hrest]

end

end Values

theorem startRecord_congr {a b : Object}
    (h : Dict.get? a typenameField = Dict.get? b typenameField) :
    startRecord a = startRecord b := by
  rw [startRecord, startRecord, h]

/-- What a field reads from objects of one type agrees if they agree on the field. -/
theorem source?_agree {field : PlannedField} {a b : Object} {values : Json → Json → Prop}
    (htypename : typename? a = typename? b)
    (h : field.isLocal = false →
      field.isSelected normalizer.variableValues (typename? a) = true →
        Option.Rel values (Dict.get? a field.responseKey) (Dict.get? b field.responseKey)) :
    Option.Rel values (normalizer.source? field a) (normalizer.source? field b) := by
  unfold source?
  rw [← htypename]
  split
  · exact .none
  · next hwritten => exact h (by simp_all) (by simp_all)

mutual

/-- Values that agree for a field are written in the same way, and so are the objects in them. -/
theorem written_eq_of_agree (plan : FieldPlan) {a b : Json}
    (h : plan.ValuesAgree normalizer.variableValues a b) :
    normalizer.written plan a = normalizer.written plan b := by
  cases plan with
  | leaf field => exact congrArg _ h
  | nested field id fields =>
    refine writeValue_eq_of_agree (fun inner other hagree ↦ ?_) a b h
    rw [writeObject, writeObject, startRecord_congr hagree.1]
    exact writeFields_eq_of_agree fields hagree.1 hagree.2 _

/-- Objects of one type that agree on fields are written in the same way. -/
theorem writeFields_eq_of_agree (plans : List FieldPlan) {a b : Object}
    (htypename : Dict.get? a typenameField = Dict.get? b typenameField)
    (h : FieldPlan.listAgree normalizer.variableValues plans a b) (record : Object) :
    normalizer.writeFields plans a record = normalizer.writeFields plans b record := by
  cases plans with
  | nil => rfl
  | cons plan plans =>
    have htype : typename? a = typename? b := by rw [typename?, typename?, htypename]
    have hfirst : normalizer.writeField plan a record = normalizer.writeField plan b record := by
      have hsource : Option.Rel (plan.ValuesAgree normalizer.variableValues)
          (normalizer.source? plan.field a) (normalizer.source? plan.field b) :=
        source?_agree htype h.1
      cases ha : normalizer.source? plan.field a with
      | none =>
        rw [ha] at hsource
        cases hb : normalizer.source? plan.field b with
        | none => rw [writeField_of_source_none ha, writeField_of_source_none hb]
        | some value => rw [hb] at hsource; cases hsource
      | some value =>
        rw [ha] at hsource
        cases hb : normalizer.source? plan.field b with
        | none => rw [hb] at hsource; cases hsource
        | some other =>
          rw [hb] at hsource
          cases hsource with
          | some hvalues =>
            rw [writeField_of_source ha, writeField_of_source hb,
              written_eq_of_agree plan hvalues]
    have hrest := writeFields_eq_of_agree plans htypename h.2
    simp only [writeFields, hfirst, hrest]

end

/-- The write pass only reads what the plan selects remotely: responses that agree are written in
the same way. So it does not matter what a response holds under a key that is ignored. -/
theorem normalize_eq_of_agree (normalizer : Normalizer) (plan : QueryPlan) :
    (∀ a b, plan.selection.Agree normalizer.variableValues a b →
      normalize normalizer plan a = normalize normalizer plan b) ∧
    ∀ data key value, plan.selection.Ignores normalizer.variableValues data key →
      normalize normalizer plan (Dict.insert data key value) = normalize normalizer plan data := by
  have hagree : ∀ a b, plan.selection.Agree normalizer.variableValues a b →
      normalize normalizer plan a = normalize normalizer plan b := by
    intro a b h
    have hroot : normalizer.writeObject plan.selection.fields a
        = normalizer.writeObject plan.selection.fields b := by
      rw [writeObject, writeObject, startRecord_congr h.1]
      exact writeFields_eq_of_agree plan.selection.fields h.1 h.2 _
    rw [normalize, normalize, hroot]
  exact ⟨hagree, fun data key value h ↦ (hagree _ _ (h.agree value)).symm⟩

section Sample

/-- A remote field without arguments, with the types and the conditions of the fragments around
it. -/
def guardedField (name : String) (typeConditions : List String := [])
    (conditions : List IncludeSkip := []) : PlannedField :=
  ⟨name, name, false, [], some [], some name, none, typeConditions, conditions⟩

/-- Asks for the members of a team: for their identifiers, for the level of those that are
administrators, for their phone numbers under a condition, and whether they are online, which is
computed locally. -/
def teamPlan : QueryPlan where
  kind := .query
  operationName := none
  rootType := "Query"
  variableDefaults := []
  selection := ⟨0, [.nested (guardedField "members") 1
    [.leaf (guardedField "id"),
      .leaf (guardedField "level" ["Admin"]),
      .leaf (guardedField "phone" [] [⟨.var "contact", .no⟩]),
      .leaf { guardedField "online" with isLocal := true }]]⟩

/-- The phone numbers are not wanted. -/
def teamNormalizer : Normalizer :=
  ⟨[], [("contact", .bool false)]⟩

/-- An administrator, and a guest about whom more or less is told. -/
def teamData (more : Object) : Object :=
  [("members", .array
    [.object [(typenameField, .string "Admin"), ("id", .string "1"), ("level", .ofNat 3)],
      .object ([(typenameField, .string "Guest"), ("id", .string "2")] ++ more)])]

/-- Nothing that is told about the guest is written, and neither is what no field selects. -/
theorem normalize_eq_of_agree_teamData :
    teamPlan.selection.Agree teamNormalizer.variableValues (teamData [])
        (teamData [("level", .ofNat 9), ("phone", .string "555"), ("online", .bool true)]) ∧
      normalize teamNormalizer teamPlan (teamData []) = normalize teamNormalizer teamPlan
        (teamData [("level", .ofNat 9), ("phone", .string "555"), ("online", .bool true)]) ∧
      teamPlan.selection.Ignores teamNormalizer.variableValues (teamData []) "total" ∧
      normalize teamNormalizer teamPlan (Dict.insert (teamData []) "total" (.ofNat 2))
        = normalize teamNormalizer teamPlan (teamData []) ∧
      (normalize teamNormalizer teamPlan (teamData [])).map Prod.fst
        = ["Admin:1", "Guest:2", "ROOT_QUERY"] := by
  have hagree : teamPlan.selection.Agree teamNormalizer.variableValues (teamData [])
      (teamData [("level", .ofNat 9), ("phone", .string "555"), ("online", .bool true)]) := by
    refine ⟨rfl, fun _ _ ↦ .some ⟨⟨rfl, FieldPlan.listAgree_refl _ _⟩, ⟨rfl, ?_⟩, trivial⟩, trivial⟩
    -- of the guest only the identifier is read
    exact ⟨fun _ _ ↦ .some rfl, ⟨fun _ hselected ↦ absurd hselected (by decide),
      ⟨fun _ hselected ↦ absurd hselected (by decide),
        ⟨fun hremote _ ↦ absurd hremote (by decide), trivial⟩⟩⟩⟩
  have hignores : teamPlan.selection.Ignores teamNormalizer.variableValues (teamData []) "total" :=
    ⟨by decide, List.forall_mem_singleton.2 fun _ _ ↦ by decide⟩
  have h := normalize_eq_of_agree teamNormalizer teamPlan
  exact ⟨hagree, h.1 _ _ hagree, hignores, h.2 _ _ _ hignores, by rfl⟩

end Sample

end Normalizer

end GraphCache
