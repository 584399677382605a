import GraphCache.Proofs.Entries
import GraphCache.Proofs.Numbering

/-!
# The fields of documents, queries and plans

A query is read from a document and a plan is made from a query. On this way selections are dropped,
merged and taken apart, but no field is made up: every field of a query stands in the document, at
some depth, and every field of a plan stands in the query.

## Main definitions

* `Document.fields`, `Query.fields`: the fields of a document and of a query, at every depth.
* `SelectedField.IsWritten`: the field has the name and the arguments of one that is written.

## Main results

* `Query.isWritten_ofText`: the fields of a query are written in the document that was read.
-/

namespace GraphCache

namespace Document

mutual

/-- The fields of a selection, at every depth, with their arguments. -/
def Selection.fields : Selection → List (String × List (String × Value))
  | .field name _ arguments _ selections => (name, arguments) :: Selection.listFields selections
  | .inlineFragment _ _ selections => Selection.listFields selections
  | .fragmentSpread _ _ => []

/-- The fields of the listed selections. -/
def Selection.listFields : List Selection → List (String × List (String × Value))
  | [] => []
  | selection :: selections => Selection.fields selection ++ Selection.listFields selections

end

/-- The fields of a definition. -/
def Definition.fields : Definition → List (String × List (String × Value))
  | .operation definition => Selection.listFields definition.selections
  | .fragment definition => Selection.listFields definition.selections
  | .typeSystem => []

/-- The fields of a document. -/
def fields (document : Document) : List (String × List (String × Value)) :=
  document.flatMap Definition.fields

end Document

namespace Selection

mutual

/-- The fields of a selection, at every depth. -/
def fields : Selection → List SelectedField
  | leaf field => [field]
  | nested field selections => field :: listFields selections
  | inlineFragment _ _ selections => listFields selections
  | fragmentSpread _ _ => []

/-- The fields of the listed selections. -/
def listFields : List Selection → List SelectedField
  | [] => []
  | selection :: selections => fields selection ++ listFields selections

end

theorem mem_listFields {selections : List Selection} {field : SelectedField} :
    field ∈ listFields selections ↔ ∃ selection ∈ selections, field ∈ selection.fields := by
  induction selections with
  | nil => simp [listFields]
  | cons selection selections ih => simp [listFields, ih]

theorem listFields_append (selections others : List Selection) :
    listFields (selections ++ others) = listFields selections ++ listFields others := by
  induction selections with
  | nil => rfl
  | cons selection selections ih => rw [List.cons_append, listFields, listFields, ih,
      List.append_assoc]

end Selection

/-- The fields of the fragments. -/
def Fragments.fields (fragments : Fragments) : List SelectedField :=
  fragments.flatMap fun entry ↦ Selection.listFields entry.2.selections

/-- The fields of a query, of its operations and of its fragments. -/
def Query.fields (query : Query) : List SelectedField :=
  (query.operations.flatMap fun operation ↦ Selection.listFields operation.selections) ++
    query.fragments.fields

/-! ### From documents to queries -/

/-- The field has the name of one that is written, and its arguments are what is read of those. -/
def SelectedField.IsWritten (written : List (String × List (String × Document.Value)))
    (field : SelectedField) : Prop :=
  ∃ arguments, (field.name, arguments) ∈ written ∧
    field.arguments = ArgumentValue.ofFieldValues arguments

theorem SelectedField.IsWritten.mono {field : SelectedField}
    {written others : List (String × List (String × Document.Value))}
    (h : field.IsWritten written) (hsubset : written ⊆ others) : field.IsWritten others := by
  obtain ⟨arguments, hmem, harguments⟩ := h
  exact ⟨arguments, hsubset hmem, harguments⟩

namespace Selection

variable {localDirective : String}

mutual

/-- What is read of a selection has fields that are written there. -/
theorem isWritten_ofDocument? (depth : Nat) (selection : Document.Selection)
    {found : Option Selection} (h : ofDocument? localDirective depth selection = .ok found) :
    ∀ prepared ∈ found, ∀ field ∈ prepared.fields, field.IsWritten selection.fields := by
  cases selection with
  | field name aliasName arguments directives selections =>
    have hfield : (fieldOfDocument localDirective name aliasName arguments directives).IsWritten
        (Document.Selection.field name aliasName arguments directives selections).fields :=
      ⟨arguments, List.mem_cons_self, rfl⟩
    rw [ofDocument?] at h
    split at h
    · cases h
    · dsimp only at h
      split at h
      · cases h
        exact nofun
      · split at h
        · cases h
          rintro _ ⟨⟩ field hmem
          exact List.mem_singleton.1 hmem ▸ hfield
        · obtain ⟨inner, hinner, h⟩ := Planner.bind_eq_ok_iff.1 h
          cases h
          rintro _ ⟨⟩ field hmem
          rcases List.mem_cons.1 hmem with rfl | hmem
          · exact hfield
          · exact (isWritten_ofDocumentSet (depth + 1) selections hinner field hmem).mono
              (List.subset_cons_self _ _)
  | inlineFragment typeCondition directives selections =>
    rw [ofDocument?] at h
    split at h
    · cases h
    · dsimp only at h
      split at h
      · cases h
        exact nofun
      · obtain ⟨inner, hinner, h⟩ := Planner.bind_eq_ok_iff.1 h
        cases h
        split
        · exact nofun
        · rintro _ ⟨⟩ field hmem
          exact isWritten_ofDocumentSet (depth + 1) selections hinner field hmem
  | fragmentSpread name directives =>
    rw [ofDocument?] at h
    split at h
    · cases h
    · cases h
      split
      · exact nofun
      · rintro _ ⟨⟩ field hmem
        cases hmem

/-- What is read of a selection set has fields that are written there. -/
theorem isWritten_ofDocumentSet (depth : Nat) (selections : List Document.Selection)
    {found : List Selection} (h : ofDocumentSet localDirective depth selections = .ok found) :
    ∀ field ∈ listFields found, field.IsWritten (Document.Selection.listFields selections) := by
  cases selections with
  | nil =>
    cases h
    exact List.forall_mem_nil _
  | cons selection selections =>
    rw [ofDocumentSet] at h
    obtain ⟨first, hfirst, h⟩ := Planner.bind_eq_ok_iff.1 h
    obtain ⟨rest, hrest, h⟩ := Planner.bind_eq_ok_iff.1 h
    cases h
    rw [listFields_append]
    refine List.forall_mem_append.2 ⟨fun field hmem ↦ ?_, fun field hmem ↦ ?_⟩
    · obtain ⟨prepared, hprepared, hmem⟩ := mem_listFields.1 hmem
      exact (isWritten_ofDocument? depth selection hfirst prepared
        (Option.mem_toList.1 hprepared) field hmem).mono (List.subset_append_left _ _)
    · exact (isWritten_ofDocumentSet depth selections hrest field hmem).mono
        (List.subset_append_right _ _)

end

end Selection

namespace Query

theorem mem_fields {query : Query} {field : SelectedField} :
    field ∈ query.fields ↔
      (∃ operation ∈ query.operations, field ∈ Selection.listFields operation.selections) ∨
        field ∈ query.fragments.fields := by
  rw [fields, List.mem_append, List.mem_flatMap]

theorem isWritten_addDefinition {localDirective : String}
    {written : List (String × List (String × Document.Value))} {query extended : Query}
    (hquery : ∀ field ∈ query.fields, field.IsWritten written) {definition : Document.Definition}
    (hsubset : definition.fields ⊆ written)
    (h : query.addDefinition localDirective definition = .ok extended) :
    ∀ field ∈ extended.fields, field.IsWritten written := by
  intro field hmem
  cases definition with
  | operation definition =>
    rw [addDefinition, Operation.ofDocument] at h
    obtain ⟨operation, hoperation, h⟩ := Planner.bind_eq_ok_iff.1 h
    obtain ⟨selections, hselections, hoperation⟩ := Planner.bind_eq_ok_iff.1 hoperation
    cases hoperation
    cases h
    rcases mem_fields.1 hmem with ⟨other, hother, hmem⟩ | hmem
    · rcases List.mem_append.1 hother with hother | hother
      · exact hquery field (mem_fields.2 (.inl ⟨other, hother, hmem⟩))
      · rw [List.mem_singleton.1 hother] at hmem
        exact (Selection.isWritten_ofDocumentSet 0 _ hselections field hmem).mono hsubset
    · exact hquery field (mem_fields.2 (.inr hmem))
  | fragment definition =>
    rw [addDefinition] at h
    obtain ⟨selections, hselections, h⟩ := Planner.bind_eq_ok_iff.1 h
    cases h
    rcases mem_fields.1 hmem with hmem | hmem
    · exact hquery field (mem_fields.2 (.inl hmem))
    · obtain ⟨entry, hentry, hmem⟩ := List.mem_flatMap.1 hmem
      rcases Dict.eq_or_mem_of_mem_insert hentry with rfl | hentry
      · exact (Selection.isWritten_ofDocumentSet 0 _ hselections field hmem).mono hsubset
      · exact hquery field (mem_fields.2 (.inr (List.mem_flatMap.2 ⟨entry, hentry, hmem⟩)))
  | typeSystem =>
    cases h
    exact hquery field hmem

theorem isWritten_addDefinitions {localDirective : String}
    {written : List (String × List (String × Document.Value))} {query extended : Query}
    (hquery : ∀ field ∈ query.fields, field.IsWritten written) {document : Document}
    (hsubset : document.fields ⊆ written)
    (h : document.foldlM (addDefinition localDirective) query = .ok extended) :
    ∀ field ∈ extended.fields, field.IsWritten written := by
  induction document generalizing query with
  | nil =>
    cases h
    exact hquery
  | cons definition document ih =>
    rw [List.foldlM_cons] at h
    obtain ⟨first, hfirst, h⟩ := Planner.bind_eq_ok_iff.1 h
    obtain ⟨hdefinition, hrest⟩ := List.append_subset.1 hsubset
    exact ih (isWritten_addDefinition hquery hdefinition hfirst) hrest h

/-- The fields of a query are written in the document that was read. -/
theorem isWritten_ofText {text localDirective : String} {query : Query}
    (h : ofText text localDirective = .ok query) :
    ∃ document, Document.ofText? text = some document ∧
      ∀ field ∈ query.fields, field.IsWritten document.fields := by
  rw [ofText] at h
  split at h
  · next document hdocument =>
    exact ⟨document, hdocument,
      isWritten_addDefinitions (List.forall_mem_nil _) (List.Subset.refl _) h⟩
  · cases h

end Query

end GraphCache
