import GraphCache.Proofs.Sameness
import GraphCache.Proofs.WrittenFields

/-!
# Queries without repeated keys

No object in a literal of a query that is read from a text repeats a key, so the arguments of its
fields are compared by an equivalence.

## Main definitions

* `Selection.WellFormed`, `Fragments.WellFormed`, `Query.WellFormed`: the arguments of all fields
  are well-formed.

## Main results

* `ArgumentValue.wellFormed_ofValue`: what is read of an argument is well-formed.
* `Query.wellFormed_ofText`: queries that are read from a text are well-formed.
-/

namespace GraphCache

private theorem forall_mem_of_mapM {α β : Type} {f : α → Option β} {p : β → Prop} {as : List α}
    {found : List β}
    (h : ∀ a ∈ as, ∀ b, f a = some b → p b) (hfound : as.mapM f = some found) :
    ∀ b ∈ found, p b := by
  induction as generalizing found with
  | nil =>
    cases hfound
    exact List.forall_mem_nil _
  | cons a as ih =>
    simp only [List.mapM_cons, Option.bind_eq_bind, Option.bind_eq_some_iff] at hfound
    obtain ⟨b, hb, rest, hrest, hcons⟩ := hfound
    cases hcons
    obtain ⟨hfirst, hothers⟩ := List.forall_mem_cons.1 h
    exact List.forall_mem_cons.2 ⟨hfirst b hb, ih hothers hrest⟩

/-- An object that is made of well-formed values is well-formed. -/
theorem Json.wellFormed_ofPairs {pairs : List (String × Json)}
    (h : ∀ entry ∈ pairs, entry.2.WellFormed) : (Json.object (Dict.ofPairs pairs)).WellFormed :=
  ⟨Dict.nodup_keys_ofPairs pairs, (wellFormedFields_iff _).2 fun entry hentry ↦
    h entry (Dict.mem_of_mem_ofPairs hentry)⟩

namespace Document.Value

mutual

/-- The value of a constant repeats no key. -/
theorem wellFormed_constant? (value : Value) {json : Json} (h : value.constant? = some json) :
    json.WellFormed := by
  cases value with
  | var name => cases h
  | int value =>
    obtain ⟨number, -, rfl⟩ := Option.map_eq_some_iff.1 h
    trivial
  | float literal =>
    obtain ⟨number, -, rfl⟩ := Option.map_eq_some_iff.1 h
    trivial
  | string text =>
    cases h
    trivial
  | boolean value =>
    cases h
    trivial
  | null =>
    cases h
    trivial
  | enum name =>
    cases h
    trivial
  | list items =>
    obtain ⟨values, hvalues, rfl⟩ := Option.map_eq_some_iff.1 h
    exact (Json.wellFormedItems_iff values).2 (wellFormed_constants? items hvalues)
  | object fields =>
    obtain ⟨values, hvalues, rfl⟩ := Option.map_eq_some_iff.1 h
    exact Json.wellFormed_ofPairs (wellFormed_constantFields? fields hvalues)

theorem wellFormed_constants? (items : List Value) {values : List Json}
    (h : constants? items = some values) : ∀ value ∈ values, value.WellFormed := by
  cases items with
  | nil =>
    cases h
    exact List.forall_mem_nil _
  | cons item items =>
    simp only [constants?, Option.bind_eq_bind, Option.bind_eq_some_iff] at h
    obtain ⟨first, hfirst, rest, hrest, hvalues⟩ := h
    cases hvalues
    exact List.forall_mem_cons.2
      ⟨wellFormed_constant? item hfirst, wellFormed_constants? items hrest⟩

theorem wellFormed_constantFields? (fields : List (String × Value))
    {values : List (String × Json)} (h : constantFields? fields = some values) :
    ∀ value ∈ values, value.2.WellFormed := by
  cases fields with
  | nil =>
    cases h
    exact List.forall_mem_nil _
  | cons field fields =>
    obtain ⟨name, value⟩ := field
    simp only [constantFields?, Option.bind_eq_bind, Option.bind_eq_some_iff] at h
    obtain ⟨first, hfirst, rest, hrest, hvalues⟩ := h
    cases hvalues
    exact List.forall_mem_cons.2
      ⟨wellFormed_constant? value hfirst, wellFormed_constantFields? fields hrest⟩

end

end Document.Value

namespace ArgumentValue

theorem wellFormed_scalar (value : Document.Value) :
    (literal (value.constant?.getD .null)).WellFormed := by
  cases hvalue : value.constant? with
  | none => trivial
  | some json => exact value.wellFormed_constant? hvalue

theorem WellFormed.of_literal? {argument : ArgumentValue} (h : argument.WellFormed) {value : Json}
    (hvalue : argument.literal? = some value) : value.WellFormed := by
  cases argument with
  | literal value =>
    cases hvalue
    exact h
  | _ => cases hvalue

theorem wellFormed_ofItems {items : List ArgumentValue} (h : WellFormedItems items) :
    (ofItems items).WellFormed := by
  rw [ofItems]
  split
  · next values hvalues =>
    refine (Json.wellFormedItems_iff values).2 (forall_mem_of_mapM ?_ hvalues)
    intro item hitem value hvalue
    exact ((wellFormedItems_iff items).1 h item hitem).of_literal? hvalue
  · exact h

theorem wellFormed_ofFields {fields : List (String × ArgumentValue)} (h : WellFormedFields fields) :
    (ofFields fields).WellFormed := by
  rw [ofFields]
  split
  · next values hvalues =>
    have hall : ∀ entry ∈ values, entry.2.WellFormed := by
      refine forall_mem_of_mapM ?_ hvalues
      rintro ⟨name, field⟩ hfield entry hentry
      obtain ⟨value, hvalue, rfl⟩ := Option.map_eq_some_iff.1 hentry
      exact ((wellFormedFields_iff fields).1 h _ hfield).of_literal? hvalue
    exact Json.wellFormed_ofPairs hall
  · exact h

mutual

/-- What is read of an argument is well-formed. -/
theorem wellFormed_ofValue (value : Document.Value) : (ofValue value).WellFormed := by
  cases value with
  | var name => trivial
  | list items => exact wellFormed_ofItems (wellFormed_ofValues items)
  | object fields => exact wellFormed_ofFields (wellFormed_ofFieldValues fields)
  | null => trivial
  | string text => trivial
  | boolean value => trivial
  | enum name => trivial
  | int value => exact wellFormed_scalar (.int value)
  | float literal => exact wellFormed_scalar (.float literal)

theorem wellFormed_ofValues (values : List Document.Value) :
    WellFormedItems (ofValues values) := by
  cases values with
  | nil => trivial
  | cons value values => exact ⟨wellFormed_ofValue value, wellFormed_ofValues values⟩

theorem wellFormed_ofFieldValues (fields : List (String × Document.Value)) :
    WellFormedFields (ofFieldValues fields) := by
  cases fields with
  | nil => trivial
  | cons field fields =>
    obtain ⟨name, value⟩ := field
    exact ⟨wellFormed_ofValue value, wellFormed_ofFieldValues fields⟩

end

end ArgumentValue

namespace Selection

mutual

/-- The arguments of the field, and of the fields inside the selection, are well-formed. -/
def WellFormed : Selection → Prop
  | leaf field => ArgumentValue.WellFormedFields field.arguments
  | nested field selections =>
    ArgumentValue.WellFormedFields field.arguments ∧ listWellFormed selections
  | inlineFragment _ _ selections => listWellFormed selections
  | fragmentSpread _ _ => True

/-- The arguments of all fields in the listed selections are well-formed. -/
def listWellFormed : List Selection → Prop
  | [] => True
  | selection :: selections => WellFormed selection ∧ listWellFormed selections

end

theorem listWellFormed_iff (selections : List Selection) :
    listWellFormed selections ↔ ∀ selection ∈ selections, selection.WellFormed := by
  induction selections with
  | nil => simp [listWellFormed]
  | cons selection selections ih => simp [listWellFormed, ih]

mutual

/-- A selection is well-formed if the arguments of its fields are. -/
theorem wellFormed_iff_fields (selection : Selection) :
    selection.WellFormed ↔
      ∀ field ∈ selection.fields, ArgumentValue.WellFormedFields field.arguments := by
  cases selection with
  | leaf field => simp [WellFormed, fields]
  | nested field selections =>
    rw [WellFormed, fields, List.forall_mem_cons, listWellFormed_iff_fields selections]
  | inlineFragment _ _ selections => exact listWellFormed_iff_fields selections
  | fragmentSpread name conditions => simp [WellFormed, fields]

theorem listWellFormed_iff_fields (selections : List Selection) :
    listWellFormed selections ↔
      ∀ field ∈ listFields selections, ArgumentValue.WellFormedFields field.arguments := by
  cases selections with
  | nil => simp [listWellFormed, listFields]
  | cons selection selections =>
    rw [listWellFormed, listFields, List.forall_mem_append, wellFormed_iff_fields selection,
      listWellFormed_iff_fields selections]

end

theorem listWellFormed_flatten {selectionSets : List (List Selection)} :
    listWellFormed selectionSets.flatten ↔
      ∀ selections ∈ selectionSets, listWellFormed selections := by
  simp only [listWellFormed_iff]
  exact List.forall_mem_flatten

end Selection

/-- The arguments of all fields in the fragments are well-formed. -/
def Fragments.WellFormed (fragments : Fragments) : Prop :=
  ∀ entry ∈ fragments, Selection.listWellFormed entry.2.selections

theorem Fragments.WellFormed.forall_fields {fragments : Fragments} (h : fragments.WellFormed) :
    ∀ field ∈ fragments.fields, ArgumentValue.WellFormedFields field.arguments := by
  intro field hmem
  obtain ⟨entry, hentry, hmem⟩ := List.mem_flatMap.1 hmem
  exact (Selection.listWellFormed_iff_fields _).1 (h entry hentry) field hmem

/-- The arguments of all fields in the query are well-formed. -/
structure Query.WellFormed (query : Query) : Prop where
  /-- The selections of the operations are well-formed. -/
  operations : ∀ operation ∈ query.operations, Selection.listWellFormed operation.selections
  /-- The selections of the fragments are well-formed. -/
  fragments : query.fragments.WellFormed

namespace Query

theorem mem_of_operation {query : Query} {operationName : Option String} {operation : Operation}
    (h : query.operation operationName = .ok operation) : operation ∈ query.operations := by
  cases operationName with
  | some name =>
    rw [Query.operation] at h
    split at h
    · next hfind =>
      cases h
      exact List.mem_of_find?_eq_some hfind
    · cases h
  | none =>
    rw [Query.operation] at h
    split at h
    · cases h
    · next hoperations =>
      cases h
      rw [hoperations]
      exact List.mem_singleton_self _
    · cases h

/-- The selections of the selected operation are well-formed. -/
theorem WellFormed.of_operation {query : Query} (h : query.WellFormed)
    {operationName : Option String} {operation : Operation}
    (hoperation : query.operation operationName = .ok operation) :
    Selection.listWellFormed operation.selections :=
  h.operations operation (mem_of_operation hoperation)

/-- Queries that are read from a text are well-formed. -/
theorem wellFormed_ofText {text localDirective : String} {query : Query}
    (h : ofText text localDirective = .ok query) : query.WellFormed := by
  obtain ⟨document, -, hwritten⟩ := isWritten_ofText h
  have hfields : ∀ field ∈ query.fields, ArgumentValue.WellFormedFields field.arguments := by
    intro field hmem
    obtain ⟨arguments, -, harguments⟩ := hwritten field hmem
    rw [harguments]
    exact ArgumentValue.wellFormed_ofFieldValues arguments
  refine ⟨fun operation hoperation ↦ ?_, fun entry hentry ↦ ?_⟩
  · refine (Selection.listWellFormed_iff_fields _).2 fun field hmem ↦ hfields field ?_
    exact mem_fields.2 (.inl ⟨operation, hoperation, hmem⟩)
  · refine (Selection.listWellFormed_iff_fields _).2 fun field hmem ↦ hfields field ?_
    exact mem_fields.2 (.inr (List.mem_flatMap.2 ⟨entry, hentry, hmem⟩))

end Query

end GraphCache
