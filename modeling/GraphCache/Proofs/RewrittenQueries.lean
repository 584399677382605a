import GraphCache.Proofs.RewrittenPlans

/-!
# Rewriting documents

A document can be revised: the directives of its selections are replaced, and so are the arguments
of its fields. The query that is prepared from the revised document is a rewriting of the original
one. So if an operation of the document has a plan, the operation of the revised document has one,
and both plans read alike, as long as the revision does not change which fields become one.

## Main definitions

* `Document.Revision`: what becomes of a document.
* `Rewriting.RewritesQuery`: a query is rewritten.
* `Query.MergesAlike`: fields of an operation that are alike have become one.

## Main results

* `Rewriting.RewritesQuery.plan`: the plans of a query and of a rewritten one read alike.
* `Document.Revision.ofText_revised`: the query of a revised document is a rewriting.
* `Document.Revision.execute_revised`: executions of a document and of a revised one give the same
  response.
-/

namespace GraphCache

/-! ### Rewritten queries -/

namespace Rewriting

variable (rewriting : Rewriting)

/-- An operation is rewritten to another one. -/
structure RewritesOperation (a b : Operation) : Prop where
  /-- The name stays. -/
  name : a.name = b.name
  /-- The kind stays. -/
  kind : a.kind = b.kind
  /-- The default values stay. -/
  variableDefaults : a.variableDefaults = b.variableDefaults
  /-- The selections are rewritten. -/
  selections : rewriting.Rewrites a.selections b.selections

/-- A query is rewritten to another one. -/
structure RewritesQuery (a b : Query) : Prop where
  /-- The operations are rewritten one by one. -/
  operations : List.Forall₂ rewriting.RewritesOperation a.operations b.operations
  /-- The fragments are rewritten. -/
  fragments : rewriting.RewritesFragments a.fragments b.fragments

end Rewriting

/-- Fields that count and are alike have become one in the selection sets of an operation. -/
def Query.MergesAlike (counts : FieldKey → Bool) (alike : FieldKey → FieldKey → Prop)
    (query : Query) (operationName : Option String) : Prop :=
  ∀ operation, query.operation operationName = .ok operation →
    Planner.MergesAlike counts alike query.fragments (recursionLimit + 1) [operation.selections]
      { parentType := some operation.kind.rootType }

namespace Rewriting.RewritesQuery

variable {rewriting : Rewriting} {query query' : Query}

/-- The operation with a name is rewritten. -/
theorem operation (h : rewriting.RewritesQuery query query') {name : Option String}
    {operation : Operation} (hoperation : query.operation name = .ok operation) :
    ∃ operation', query'.operation name = .ok operation' ∧
      rewriting.RewritesOperation operation operation' := by
  have hoperations := h.operations
  unfold Query.operation at hoperation ⊢
  cases name with
  | none =>
    dsimp only at hoperation ⊢
    generalize query.operations = operations at hoperations hoperation
    generalize query'.operations = operations' at hoperations
    match operations, operations', hoperations with
    | [first], [first'], .cons hfirst .nil =>
      cases hoperation
      exact ⟨first', rfl, hfirst⟩
    | [], _, _ => cases hoperation
    | _ :: _ :: _, _, _ => cases hoperation
  | some name =>
    dsimp only at hoperation ⊢
    generalize query.operations = operations at hoperations hoperation
    generalize query'.operations = operations' at hoperations
    induction hoperations with
    | nil => cases hoperation
    | @cons first first' rest rest' hfirst _ ih =>
      rw [List.find?_cons] at hoperation ⊢
      rw [← hfirst.name]
      cases hname : first.name == some name with
      | true =>
        rw [hname] at hoperation
        cases hoperation
        exact ⟨first', rfl, hfirst⟩
      | false =>
        rw [hname] at hoperation
        exact ih hoperation

/-- Where an operation has a plan, the rewritten operation has one, and both read alike. -/
theorem plan (h : rewriting.RewritesQuery query query') (hwell : query.WellFormed)
    (hwell' : query'.WellFormed) {operationName : Option String} {plan : QueryPlan}
    (hplan : query.plan operationName = .ok plan) {provided : Object}
    (hfaithful : rewriting.Faithful (plan.variableValues provided))
    {alike alike' : FieldKey → FieldKey → Prop} (hrespects : rewriting.RespectsMerging alike alike')
    (hmerges : query.MergesAlike rewriting.keepsKey alike operationName)
    (hmerges' : query'.MergesAlike (fun _ ↦ true) alike' operationName) :
    ∃ plan', query'.plan operationName = .ok plan' ∧ plan.ReadsAs provided plan' := by
  obtain ⟨operation, selection, hoperation, hkind, hroot, rfl⟩ := Query.plan_eq_ok_iff.1 hplan
  obtain ⟨last, hselection⟩ := Planner.planRoot_eq_ok_iff.1 hroot
  obtain ⟨operation', hoperation', hrewritten⟩ := h.operation hoperation
  have hsets := List.forall_mem_singleton.2 (hwell.of_operation hoperation)
  have hsets' := List.forall_mem_singleton.2 (hwell'.of_operation hoperation')
  have hthere := hmerges' operation' hoperation'
  rw [← hrewritten.kind] at hthere
  obtain ⟨selection', last', hselection', hreads⟩ := planSelection_rewritten hfaithful hrespects
    h.fragments hwell.fragments hwell'.fragments (.cons hrewritten.selections .nil) hsets hsets'
    (hmerges operation hoperation) hthere hselection 0
  rw [hrewritten.kind] at hkind hselection'
  exact ⟨_, Query.plan_eq_ok_iff.2
      ⟨operation', selection', hoperation', hkind,
        Planner.planRoot_eq_ok_iff.2 ⟨last', hselection'⟩, rfl⟩, hrewritten.kind,
    congrArg OperationKind.rootType hrewritten.kind, hrewritten.variableDefaults, hreads⟩

end Rewriting.RewritesQuery

/-! ### Revised documents -/

/-- A way to revise documents. -/
structure Document.Revision where
  /-- The directives that take the place of others. -/
  directives : List Document.Directive → List Document.Directive
  /-- Whether arguments may take the place of others. -/
  arguments : List (String × Document.Value) → List (String × Document.Value) → Prop

namespace Document.Revision

variable (revision : Revision)

/-- Selections are revised to others. -/
inductive Revises : List Document.Selection → List Document.Selection → Prop where
  | nil : Revises [] []
  | field {name : String} {aliasName : Option String} {arguments arguments' : List (String × Value)}
      {directives : List Directive} {inner inner' as bs : List Document.Selection}
      (harguments : revision.arguments arguments arguments') (hinner : Revises inner inner')
      (hrest : Revises as bs) :
      Revises (.field name aliasName arguments directives inner :: as)
        (.field name aliasName arguments' (revision.directives directives) inner' :: bs)
  | inlineFragment {typeCondition : Option String} {directives : List Directive}
      {inner inner' as bs : List Document.Selection} (hinner : Revises inner inner')
      (hrest : Revises as bs) :
      Revises (.inlineFragment typeCondition directives inner :: as)
        (.inlineFragment typeCondition (revision.directives directives) inner' :: bs)
  | fragmentSpread {name : String} {directives : List Directive} {as bs : List Document.Selection}
      (hrest : Revises as bs) :
      Revises (.fragmentSpread name directives :: as)
        (.fragmentSpread name (revision.directives directives) :: bs)

/-- A definition is revised to another one. -/
inductive RevisesDefinition : Definition → Definition → Prop where
  | operation {operation : Document.Operation} {selections : List Document.Selection}
      (h : revision.Revises operation.selections selections) :
      RevisesDefinition (.operation operation) (.operation { operation with selections })
  | fragment {fragment : Document.Fragment} {selections : List Document.Selection}
      (h : revision.Revises fragment.selections selections) :
      RevisesDefinition (.fragment fragment) (.fragment { fragment with selections })
  | typeSystem : RevisesDefinition .typeSystem .typeSystem

/-- Revised documents are prepared to rewritten queries. -/
structure LeadsTo (revision : Revision) (localDirective : String) (rewriting : Rewriting) :
    Prop where
  /-- The conditions in revised directives are the rewritten ones. -/
  conditions : ∀ directives, IncludeSkip.ofDirectives (revision.directives directives)
    = rewriting.conditions (.ofDirectives directives)
  /-- What is skipped for all variables stays so. -/
  staticallySkipped : ∀ conditions : IncludeSkip, conditions.staticallySkipped = true →
    (rewriting.conditions conditions).staticallySkipped = true
  /-- Fields stay local or remote. -/
  isLocal : ∀ directives, (revision.directives directives).any (·.name == localDirective)
    = directives.any (·.name == localDirective)
  /-- The prepared arguments are rewritten. -/
  arguments : ∀ {a b}, revision.arguments a b →
    rewriting.arguments (ArgumentValue.ofFieldValues a) (ArgumentValue.ofFieldValues b)

variable {revision} {localDirective : String} {rewriting : Rewriting}

theorem Revises.isEmpty_eq {as bs : List Document.Selection} (h : revision.Revises as bs) :
    as.isEmpty = bs.isEmpty := by
  cases h <;> rfl

theorem LeadsTo.field (h : revision.LeadsTo localDirective rewriting) (name : String)
    (aliasName : Option String) {arguments arguments' : List (String × Value)}
    (harguments : revision.arguments arguments arguments') (directives : List Directive) :
    rewriting.RewritesField
      (Selection.fieldOfDocument localDirective name aliasName arguments directives)
      (Selection.fieldOfDocument localDirective name aliasName arguments'
        (revision.directives directives)) :=
  ⟨rfl, rfl, h.arguments harguments, (h.isLocal directives).symm, h.conditions directives⟩

/-- Where selections can be prepared, those that take their place can be, too, and they are
rewritten. -/
def Prepares (localDirective : String) (rewriting : Rewriting) (as bs : List Document.Selection) :
    Prop :=
  ∀ {depth : Nat} {found : List GraphCache.Selection},
    GraphCache.Selection.ofDocumentSet localDirective depth as = .ok found →
      ∃ found', GraphCache.Selection.ofDocumentSet localDirective depth bs = .ok found' ∧
        rewriting.Rewrites found found'

/-- Selections are prepared one after the other. -/
theorem Prepares.cons {a b : Document.Selection} {as bs : List Document.Selection}
    (hfirst : ∀ {depth : Nat} {found : Option GraphCache.Selection},
      GraphCache.Selection.ofDocument? localDirective depth a = .ok found →
        ∃ found', GraphCache.Selection.ofDocument? localDirective depth b = .ok found' ∧
          rewriting.Rewrites found.toList found'.toList)
    (hrest : Prepares localDirective rewriting as bs) :
    Prepares localDirective rewriting (a :: as) (b :: bs) := by
  intro depth found hfound
  rw [GraphCache.Selection.ofDocumentSet] at hfound
  obtain ⟨first, hprepared, hfound⟩ := Planner.bind_eq_ok_iff.1 hfound
  obtain ⟨rest, hothers, heq⟩ := Planner.bind_eq_ok_iff.1 hfound
  cases heq
  obtain ⟨first', hprepared', hrewrites⟩ := hfirst hprepared
  obtain ⟨rest', hothers', hrewrites'⟩ := hrest hothers
  refine ⟨first'.toList ++ rest', ?_, hrewrites.append hrewrites'⟩
  rw [GraphCache.Selection.ofDocumentSet]
  exact Planner.bind_eq_ok_iff.2 ⟨first', hprepared',
    Planner.bind_eq_ok_iff.2 ⟨rest', hothers', rfl⟩⟩

section Prepared

variable (hleads : revision.LeadsTo localDirective rewriting)

include hleads

theorem LeadsTo.staticallySkipped_ofDirectives {directives : List Directive}
    (h : (IncludeSkip.ofDirectives directives).staticallySkipped = true) :
    (IncludeSkip.ofDirectives (revision.directives directives)).staticallySkipped = true := by
  rw [hleads.conditions]
  exact hleads.staticallySkipped _ h

theorem LeadsTo.keeps_ofDirectives (directives : List Directive) :
    rewriting.keeps (.ofDirectives directives)
      = !(IncludeSkip.ofDirectives (revision.directives directives)).staticallySkipped := by
  rw [Rewriting.keeps, hleads.conditions]

/-- What is prepared of a selection is dropped, if all variables skip the revised one. -/
theorem LeadsTo.dropped {directives : List Directive}
    (h : (IncludeSkip.ofDirectives (revision.directives directives)).staticallySkipped = true)
    {selection : GraphCache.Selection}
    (hselection : selection.conditions = .ofDirectives directives) :
    rewriting.Rewrites [selection] [] := by
  refine .dropped ?_ .nil
  rw [hselection, hleads.keeps_ofDirectives, h]
  rfl

/-- A revised field is prepared to a rewritten one. -/
theorem LeadsTo.prepares_field (name : String) (aliasName : Option String)
    {arguments arguments' : List (String × Value)}
    (harguments : revision.arguments arguments arguments') (directives : List Directive)
    {inner inner' : List Document.Selection} (hempty : inner.isEmpty = inner'.isEmpty)
    (hinner : Prepares localDirective rewriting inner inner') {depth : Nat}
    {found : Option GraphCache.Selection}
    (h : GraphCache.Selection.ofDocument? localDirective depth
      (.field name aliasName arguments directives inner) = .ok found) :
    ∃ found', GraphCache.Selection.ofDocument? localDirective depth
        (.field name aliasName arguments' (revision.directives directives) inner') = .ok found' ∧
      rewriting.Rewrites found.toList found'.toList := by
  have hfield := hleads.field name aliasName harguments directives
  have hkeeps := hleads.keeps_ofDirectives directives
  rw [GraphCache.Selection.ofDocument?] at h ⊢
  split at h
  · cases h
  · next hdepth =>
    rw [if_neg hdepth]
    dsimp only [GraphCache.Selection.fieldOfDocument] at h hfield ⊢
    split at h
    · next hskipped =>
      cases h
      exact ⟨none, if_pos (hleads.staticallySkipped_ofDirectives hskipped), .nil⟩
    · cases hskipped :
          (IncludeSkip.ofDirectives (revision.directives directives)).staticallySkipped with
      | true =>
        refine ⟨none, if_pos rfl, ?_⟩
        split at h
        · cases h
          exact hleads.dropped hskipped rfl
        · obtain ⟨_, _, heq⟩ := Planner.bind_eq_ok_iff.1 h
          cases heq
          exact hleads.dropped hskipped rfl
      | false =>
        rw [hskipped] at hkeeps
        rw [if_neg Bool.false_ne_true, ← hempty]
        split at h
        · next hleaf =>
          cases h
          exact ⟨_, if_pos hleaf, .leaf hkeeps hfield .nil⟩
        · next hleaf =>
          obtain ⟨prepared, hprepared, heq⟩ := Planner.bind_eq_ok_iff.1 h
          cases heq
          obtain ⟨prepared', hprepared', hrewrites⟩ := hinner hprepared
          rw [if_neg hleaf, hprepared']
          exact ⟨_, rfl, .nested hkeeps hfield hrewrites .nil⟩

/-- A revised inline fragment is prepared to a rewritten one. -/
theorem LeadsTo.prepares_inlineFragment (typeCondition : Option String)
    (directives : List Directive) {inner inner' : List Document.Selection}
    (hinner : Prepares localDirective rewriting inner inner') {depth : Nat}
    {found : Option GraphCache.Selection}
    (h : GraphCache.Selection.ofDocument? localDirective depth
      (.inlineFragment typeCondition directives inner) = .ok found) :
    ∃ found', GraphCache.Selection.ofDocument? localDirective depth
        (.inlineFragment typeCondition (revision.directives directives) inner') = .ok found' ∧
      rewriting.Rewrites found.toList found'.toList := by
  have hkeeps := hleads.keeps_ofDirectives directives
  rw [GraphCache.Selection.ofDocument?] at h ⊢
  split at h
  · cases h
  · next hdepth =>
    rw [if_neg hdepth]
    dsimp only at h ⊢
    split at h
    · next hskipped =>
      cases h
      exact ⟨none, if_pos (hleads.staticallySkipped_ofDirectives hskipped), .nil⟩
    · obtain ⟨prepared, hprepared, heq⟩ := Planner.bind_eq_ok_iff.1 h
      cases heq
      cases hskipped :
          (IncludeSkip.ofDirectives (revision.directives directives)).staticallySkipped with
      | true =>
        refine ⟨none, if_pos rfl, ?_⟩
        split
        · exact .nil
        · exact hleads.dropped hskipped rfl
      | false =>
        rw [hskipped] at hkeeps
        obtain ⟨prepared', hprepared', hrewrites⟩ := hinner hprepared
        rw [if_neg Bool.false_ne_true, hprepared']
        refine ⟨_, rfl, ?_⟩
        -- the fragment is dropped where nothing remains inside, before or after the revision
        cases prepared' with
        | nil =>
          split
          · exact .nil
          · exact .emptied hrewrites .nil
        | cons first' rest' =>
          cases prepared with
          | nil => cases hrewrites
          | cons first rest =>
            rw [hleads.conditions]
            exact .inlineFragment hkeeps hrewrites .nil

/-- A revised spread is prepared to a rewritten one. -/
theorem LeadsTo.prepares_fragmentSpread (name : String) (directives : List Directive) {depth : Nat}
    {found : Option GraphCache.Selection}
    (h : GraphCache.Selection.ofDocument? localDirective depth
      (.fragmentSpread name directives) = .ok found) :
    ∃ found', GraphCache.Selection.ofDocument? localDirective depth
        (.fragmentSpread name (revision.directives directives)) = .ok found' ∧
      rewriting.Rewrites found.toList found'.toList := by
  have hkeeps := hleads.keeps_ofDirectives directives
  rw [GraphCache.Selection.ofDocument?] at h ⊢
  split at h
  · cases h
  · next hdepth =>
    rw [if_neg hdepth]
    dsimp only at h ⊢
    refine ⟨_, rfl, ?_⟩
    cases h
    split
    · next hskipped =>
      rw [if_pos (hleads.staticallySkipped_ofDirectives hskipped)]
      exact .nil
    · split
      · next hskipped => exact hleads.dropped hskipped rfl
      · next hskipped =>
        rw [Bool.eq_false_iff.2 hskipped] at hkeeps
        rw [hleads.conditions]
        exact .fragmentSpread hkeeps .nil

/-- Revised selections are prepared to rewritten ones. -/
theorem Revises.prepares {as bs : List Document.Selection} (h : revision.Revises as bs) :
    Prepares localDirective rewriting as bs := by
  induction h with
  | nil =>
    intro depth found hfound
    cases hfound
    exact ⟨[], rfl, .nil⟩
  | field harguments hinner _ ihinner ihrest =>
    exact Prepares.cons (hleads.prepares_field _ _ harguments _ hinner.isEmpty_eq ihinner) ihrest
  | inlineFragment _ _ ihinner ihrest =>
    exact Prepares.cons (hleads.prepares_inlineFragment _ _ ihinner) ihrest
  | fragmentSpread _ ihrest => exact Prepares.cons (hleads.prepares_fragmentSpread _ _) ihrest

/-- Adding a revised definition to a rewritten query leads to a rewritten query. -/
theorem RevisesDefinition.addDefinition {definition definition' : Definition}
    (h : revision.RevisesDefinition definition definition') {query query' : Query}
    (hquery : rewriting.RewritesQuery query query') {extended : Query}
    (hextended : query.addDefinition localDirective definition = .ok extended) :
    ∃ extended', query'.addDefinition localDirective definition' = .ok extended' ∧
      rewriting.RewritesQuery extended extended' := by
  cases h with
  | operation hselections =>
    rw [Query.addDefinition, Operation.ofDocument] at hextended ⊢
    obtain ⟨operation, hoperation, heq⟩ := Planner.bind_eq_ok_iff.1 hextended
    cases heq
    obtain ⟨selections, hprepared, heq⟩ := Planner.bind_eq_ok_iff.1 hoperation
    cases heq
    obtain ⟨selections', hprepared', hrewrites⟩ := hselections.prepares hleads hprepared
    rw [hprepared']
    exact ⟨_, rfl, List.rel_append hquery.operations (.cons ⟨rfl, rfl, rfl, hrewrites⟩ .nil),
      hquery.fragments⟩
  | fragment hselections =>
    rw [Query.addDefinition] at hextended ⊢
    obtain ⟨selections, hprepared, heq⟩ := Planner.bind_eq_ok_iff.1 hextended
    cases heq
    obtain ⟨selections', hprepared', hrewrites⟩ := hselections.prepares hleads hprepared
    rw [hprepared']
    refine ⟨_, rfl, hquery.operations, fun name ↦ ?_⟩
    rw [Dict.get?_insert, Dict.get?_insert]
    split
    · exact .some ⟨rfl, hrewrites⟩
    · exact hquery.fragments name
  | typeSystem =>
    cases hextended
    exact ⟨query', rfl, hquery⟩

theorem addDefinitions {document document' : Document}
    (h : List.Forall₂ revision.RevisesDefinition document document') {query query' : Query}
    (hquery : rewriting.RewritesQuery query query') {extended : Query}
    (hextended : document.foldlM (Query.addDefinition localDirective) query = .ok extended) :
    ∃ extended', document'.foldlM (Query.addDefinition localDirective) query' = .ok extended' ∧
      rewriting.RewritesQuery extended extended' := by
  induction h generalizing query query' with
  | nil =>
    cases hextended
    exact ⟨query', rfl, hquery⟩
  | cons hdefinition _ ih =>
    rw [List.foldlM_cons] at hextended
    obtain ⟨middle, hmiddle, hrest⟩ := Planner.bind_eq_ok_iff.1 hextended
    obtain ⟨middle', hmiddle', hrewrites⟩ := hdefinition.addDefinition hleads hquery hmiddle
    obtain ⟨extended', hextended', hdone⟩ := ih hrewrites hrest
    refine ⟨extended', ?_, hdone⟩
    rw [List.foldlM_cons]
    exact Planner.bind_eq_ok_iff.2 ⟨middle', hmiddle', hextended'⟩

/-- The query that is read from a revised document is a rewriting of the original one. -/
theorem ofText_revised {text text' : String} {document document' : Document}
    (hdocument : Document.ofText? text = some document)
    (hdocument' : Document.ofText? text' = some document')
    (h : List.Forall₂ revision.RevisesDefinition document document') {query : Query}
    (hquery : Query.ofText text localDirective = .ok query) :
    ∃ query', Query.ofText text' localDirective = .ok query' ∧
      rewriting.RewritesQuery query query' := by
  have hempty : rewriting.RewritesQuery ⟨text, [], []⟩ ⟨text', [], []⟩ := ⟨.nil, fun _ ↦ .none⟩
  rw [Query.ofText, hdocument] at hquery
  rw [Query.ofText, hdocument']
  exact addDefinitions hleads h hempty hquery

end Prepared

/-! ### Executions of revised documents -/

/-- An execution without local fields gives the same response, or fails in the same way, after the
document is revised, if the revision does not change which fields become one. -/
theorem execute_revised {World : Type} (hleads : revision.LeadsTo localDirective rewriting)
    {text text' : String} {document document' : Document}
    (hdocument : Document.ofText? text = some document)
    (hdocument' : Document.ofText? text' = some document')
    (h : List.Forall₂ revision.RevisesDefinition document document') {query : Query}
    (hquery : Query.ofText text localDirective = .ok query) {operationName : Option String}
    {executor : Executor World} (hplan : query.plan operationName = .ok executor.plan)
    (hlocal : executor.plan.hasLocalField = false)
    (hfaithful : rewriting.Faithful executor.execution.variableValues)
    {alike alike' : FieldKey → FieldKey → Prop} (hrespects : rewriting.RespectsMerging alike alike')
    (hmerges : query.MergesAlike rewriting.keepsKey alike operationName)
    (hmerges' : ∀ query', Query.ofText text' localDirective = .ok query' →
      query'.MergesAlike (fun _ ↦ true) alike' operationName) :
    ∃ query' plan', Query.ofText text' localDirective = .ok query' ∧
      query'.plan operationName = .ok plan' ∧
      ∀ root world, ((executor.withPlan plan').execute root world).1
        = (executor.execute root world).1 := by
  obtain ⟨query', hquery', hrewrites⟩ := ofText_revised hleads hdocument hdocument' h hquery
  obtain ⟨plan', hplan', hreads⟩ := hrewrites.plan (Query.wellFormed_ofText hquery)
    (Query.wellFormed_ofText hquery') hplan hfaithful hrespects hmerges (hmerges' query' hquery')
  exact ⟨query', plan', hquery', hplan', fun root world ↦
    Executor.execute_eq_of_readsAs hreads hlocal (.ofQuery hplan) (.ofQuery hplan') root world⟩

end Document.Revision

end GraphCache
