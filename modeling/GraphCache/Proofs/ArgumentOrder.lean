import GraphCache.Proofs.KeyOrder
import GraphCache.Proofs.RewrittenQueries
import Mathlib.Tactic

/-!
# The order of arguments

The names of fields in records list the arguments in increasing order of their names, so there the
order in which they are written does not matter. Fields are merged only if their arguments are
written in the same order, though. So a document and one in which arguments change places lead to
the same response as long as no fields differ in the order of their arguments only.

## Main definitions

* `Document.Revision.reordering`: the arguments of fields change places.
* `FieldKey.AgreesUpToOrder`: fields that differ at most in the order of their arguments.

## Main results

* `storageName_of_perm`: the name of a field in a record does not depend on the order.
* `Executor.execute_reordered`: the response does not depend on the order.
* `Executor.reordered_merges`: fields that are merged because of the order of their arguments.
-/

namespace GraphCache

/-! ### Names in records -/

theorem Json.sorted_object_of_perm {d e : Object} (hd : (Dict.keys d).Nodup) (h : d.Perm e) :
    (Json.object d).sorted = (Json.object e).sorted := by
  rw [Json.sorted, Json.sorted, Json.sortedFields_eq_map, Json.sortedFields_eq_map]
  refine congrArg Json.object (Dict.sortKeys_eq_of_perm ?_ (h.map _))
  rw [Dict.keys, List.map_map]
  exact hd

/-- The name of a field in a record does not depend on the order of the arguments. -/
theorem storageName_of_perm (name : String) {a b : Object} (ha : (Dict.keys a).Nodup)
    (h : a.Perm b) : storageName name a = storageName name b := by
  have hempty : a.isEmpty = b.isEmpty := by
    rw [Bool.eq_iff_iff, List.isEmpty_iff, List.isEmpty_iff]
    exact ⟨fun heq ↦ (heq ▸ h).nil_eq.symm, fun heq ↦ (heq ▸ h).eq_nil⟩
  rw [storageName, storageName, hempty, Json.sorted_object_of_perm ha h]

/-! ### Arguments in another order -/

namespace ArgumentValue

theorem ofFieldValues_eq_map (arguments : List (String × Document.Value)) :
    ofFieldValues arguments = arguments.map fun argument ↦ (argument.1, ofValue argument.2) := by
  induction arguments with
  | nil => rfl
  | cons argument arguments ih => rw [ofFieldValues, ih, List.map_cons]

theorem bindFields_perm (vars : Object) {a b : Arguments} (h : a.Perm b) :
    (bindFields vars a).Perm (bindFields vars b) := by
  rw [bindFields_eq_filterMap, bindFields_eq_filterMap]
  exact h.filterMap _

theorem keys_bindFields_sublist (vars : Object) (arguments : Arguments) :
    (Dict.keys (bindFields vars arguments)).Sublist (Dict.keys arguments) := by
  induction arguments with
  | nil => exact .slnil
  | cons argument arguments ih =>
    rw [bindFields]
    split
    · exact ih.cons_cons _
    · exact ih.cons _

/-- The values of arguments with distinct names are bound in the order of the arguments. -/
theorem bindAll_perm (vars : Object) {a b : Arguments} (ha : (Dict.keys a).Nodup) (h : a.Perm b) :
    (bindAll vars a).Perm (bindAll vars b) := by
  have hb : (Dict.keys b).Nodup := (h.map Prod.fst).nodup_iff.1 ha
  rw [bindAll, bindAll, Dict.ofPairs, Dict.ofPairs,
    Dict.merge_nil_left ((keys_bindFields_sublist vars a).nodup ha),
    Dict.merge_nil_left ((keys_bindFields_sublist vars b).nodup hb)]
  exact bindFields_perm vars h

/-- Arguments are the same up to their order. -/
def SameUpToOrder (a b : Arguments) : Prop :=
  ∃ c, a.Perm c ∧ sameFields c b = true

/-- Instead of the second arguments, the first ones can change places. -/
theorem exists_perm_of_same {a b c : Arguments} (hab : sameFields a b = true) (hbc : b.Perm c) :
    SameUpToOrder a c := by
  have hcomp : Relation.Comp (List.Forall₂ fun a b ↦ a.1 = b.1 ∧ a.2.same b.2 = true) List.Perm
      a c := ⟨b, sameFields_iff.1 hab, hbc⟩
  rw [List.forall₂_comp_perm_eq_perm_comp_forall₂] at hcomp
  obtain ⟨d, hperm, hsame⟩ := hcomp
  exact ⟨d, hperm, sameFields_iff.2 hsame⟩

theorem WellFormedFields.of_perm {a b : Arguments} (ha : WellFormedFields a) (h : a.Perm b) :
    WellFormedFields b :=
  (wellFormedFields_iff b).2 fun argument hmem ↦
    (wellFormedFields_iff a).1 ha argument (h.mem_iff.2 hmem)

namespace SameUpToOrder

variable {a b c : Arguments}

theorem perm_left (hab : a.Perm b) (hbc : SameUpToOrder b c) : SameUpToOrder a c := by
  obtain ⟨d, hperm, hsame⟩ := hbc
  exact ⟨d, hab.trans hperm, hsame⟩

variable (ha : WellFormedFields a) (hb : WellFormedFields b) (hc : WellFormedFields c)

include ha hb hc

theorem same_right (hab : SameUpToOrder a b) (hbc : sameFields b c = true) :
    SameUpToOrder a c := by
  obtain ⟨d, hperm, hsame⟩ := hab
  exact ⟨d, hperm, sameFields_trans (ha.of_perm hperm) hb hc hsame hbc⟩

theorem same_left (hab : sameFields a b = true) (hbc : SameUpToOrder b c) : SameUpToOrder a c := by
  obtain ⟨d, hperm, hsame⟩ := hbc
  exact .same_right ha (hb.of_perm hperm) hc (exists_perm_of_same hab hperm) hsame

end SameUpToOrder

end ArgumentValue

/-! ### Fields with arguments in another order -/

namespace FieldKey

/-- Two fields differ at most in the order of their arguments and in their nested selections. -/
structure AgreesUpToOrder (a b : FieldKey) : Prop where
  /-- They have the same response key and name, they are local or remote, leaves or not, and depend
  on the same types. -/
  shape : a.shape = b.shape
  /-- They have the same arguments, perhaps in another order. -/
  arguments : ArgumentValue.SameUpToOrder a.arguments b.arguments
  /-- They have the same conditions. -/
  conditions : a.conditions = b.conditions

theorem AgreesUpToOrder.congruent : Congruent AgreesUpToOrder := by
  intro a b c d ha hb hc hd hab hcd h
  obtain ⟨hshape, harguments, hconditions⟩ := same_iff_shape.1 hab
  obtain ⟨hshape', harguments', hconditions'⟩ := same_iff_shape.1 hcd
  refine ⟨hshape.trans (h.shape.trans hshape'.symm), ?_,
    hconditions.trans (h.conditions.trans hconditions'.symm)⟩
  exact .same_right ha hd hc (.same_left ha hb hd harguments h.arguments)
    (ArgumentValue.sameFields_symm hc hd harguments')

/-- The arguments of a field have changed places. -/
structure Reorders (a b : FieldKey) : Prop where
  /-- Response key, name, kind and types stay. -/
  shape : a.shape = b.shape
  /-- The arguments are in another order. -/
  arguments : a.arguments.Perm b.arguments
  /-- The conditions stay. -/
  conditions : a.conditions = b.conditions

theorem Reorders.symm {a b : FieldKey} (h : a.Reorders b) : b.Reorders a :=
  ⟨h.shape.symm, h.arguments.symm, h.conditions.symm⟩

/-- Fields that become one when arguments change places differ in the order of arguments only. -/
theorem Reorders.agreesUpToOrder {a b c d : FieldKey} (hab : a.Reorders b) (hcd : c.Reorders d)
    (h : b.same d = true) : a.AgreesUpToOrder c := by
  obtain ⟨hshape, harguments, hconditions⟩ := same_iff_shape.1 h
  refine ⟨hab.shape.trans (hshape.trans hcd.shape.symm), ?_,
    hab.conditions.trans (hconditions.trans hcd.conditions.symm)⟩
  exact .perm_left hab.arguments
    (ArgumentValue.exists_perm_of_same harguments hcd.arguments.symm)

end FieldKey

/-- Arguments may change places if their names are distinct. -/
def Arguments.MayReorder {α : Type} (a b : List (String × α)) : Prop :=
  a = b ∨ a.Perm b ∧ (Dict.keys a).Nodup

theorem Arguments.MayReorder.perm {α : Type} {a b : List (String × α)} (h : MayReorder a b) :
    a.Perm b := by
  rcases h with rfl | ⟨h, -⟩
  · exact .refl a
  · exact h

namespace Rewriting

/-- The rewriting in which arguments change places. -/
def reordering : Rewriting :=
  ⟨id, Arguments.MayReorder⟩

/-- The names in records are the same if arguments change places. -/
theorem faithful_reordering (vars : Object) : reordering.Faithful vars where
  conditions_unconditional := rfl
  shouldSkip_conditions _ := rfl
  storageName {a b} h name := by
    rcases h with rfl | ⟨hperm, hnodup⟩
    · rfl
    · exact storageName_of_perm name (Dict.nodup_keys_ofPairs _)
        (ArgumentValue.bindAll_perm vars hnodup hperm)

theorem reorders_of_rewritesKey {a b : FieldKey} (h : reordering.RewritesKey a b) :
    a.Reorders b where
  shape := h.shape
  arguments := Arguments.MayReorder.perm h.arguments
  conditions := by
    rw [h.conditions, reordering, List.map_id, List.filter_eq_self.2]
    exact fun conditions hmem ↦ by rw [h.conditional conditions hmem]; rfl

theorem respectsMerging_reordering :
    reordering.RespectsMerging FieldKey.AgreesUpToOrder FieldKey.AgreesUpToOrder where
  congruent := FieldKey.AgreesUpToOrder.congruent
  congruent' := FieldKey.AgreesUpToOrder.congruent
  back hab hcd h :=
    (reorders_of_rewritesKey hab).agreesUpToOrder (reorders_of_rewritesKey hcd) h
  forth hab hcd h :=
    .inr ((reorders_of_rewritesKey hab).symm.agreesUpToOrder (reorders_of_rewritesKey hcd).symm h)

end Rewriting

/-! ### Documents with arguments in another order -/

namespace Document

/-- The revision in which the arguments of fields change places. -/
def Revision.reordering : Revision :=
  ⟨id, Arguments.MayReorder⟩

theorem Revision.leadsTo_reordering (localDirective : String) :
    reordering.LeadsTo localDirective .reordering where
  conditions _ := rfl
  staticallySkipped _ h := h
  isLocal _ := rfl
  arguments {a b} h := by
    rcases h with rfl | ⟨hperm, hnodup⟩
    · exact .inl rfl
    · refine .inr ?_
      rw [ArgumentValue.ofFieldValues_eq_map, ArgumentValue.ofFieldValues_eq_map]
      refine ⟨hperm.map _, ?_⟩
      rw [Dict.keys, List.map_map]
      exact hnodup

/-- In another document the arguments of fields have changed places. Where they have, their names
are distinct. -/
def Reorders (document document' : Document) : Prop :=
  List.Forall₂ Revision.reordering.RevisesDefinition document document'

end Document

/-! ### Executions -/

/-- If arguments of fields change places, then the operation is planned as before, and the execution
gives the same response or fails in the same way. No field of the plan may be local. No two fields
in a selection set may differ in the order of their arguments only, before or after. -/
theorem Executor.execute_reordered {World : Type} {executor : Executor World}
    {text text' localDirective : String} {document document' : Document} {query : Query}
    {operationName : Option String} (hdocument : Document.ofText? text = some document)
    (hdocument' : Document.ofText? text' = some document')
    (hreorders : document.Reorders document')
    (hquery : Query.ofText text localDirective = .ok query)
    (hplan : query.plan operationName = .ok executor.plan)
    (hlocal : executor.plan.hasLocalField = false)
    (hmerges : query.MergesAlike (fun _ ↦ true) FieldKey.AgreesUpToOrder operationName)
    (hmerges' : ∀ query', Query.ofText text' localDirective = .ok query' →
      query'.MergesAlike (fun _ ↦ true) FieldKey.AgreesUpToOrder operationName) :
    ∃ query' plan', Query.ofText text' localDirective = .ok query' ∧
      query'.plan operationName = .ok plan' ∧
      ∀ root world, ((executor.withPlan plan').execute root world).1
        = (executor.execute root world).1 := by
  refine Document.Revision.execute_revised (Document.Revision.leadsTo_reordering localDirective)
    hdocument hdocument' hreorders hquery hplan hlocal (Rewriting.faithful_reordering _)
    Rewriting.respectsMerging_reordering ?_ hmerges'
  exact fun operation hoperation ↦ (hmerges operation hoperation).mono fun _ _ ↦ rfl

/-! ### Sample documents -/

namespace Document

/-- A query in which a field with arguments is selected twice, each time in the same order. -/
def orderedText : String :=
  "{ a: x(p: true, q: false) { id } a: x(p: true, q: false) { name } }"

/-- `orderedText` with all arguments in another order. -/
def reversedText : String :=
  "{ a: x(q: false, p: true) { id } a: x(q: false, p: true) { name } }"

/-- `orderedText` with the arguments of the second field in another order. -/
def mixedText : String :=
  "{ a: x(p: true, q: false) { id } a: x(q: false, p: true) { name } }"

/-- A document in which a field is selected twice, with given arguments. -/
def rangeDocument (first second : List (String × Value)) : Document :=
  [.operation ⟨none, .query, [],
    [.field "x" (some "a") first [] [.field "id" none [] [] []],
      .field "x" (some "a") second [] [.field "name" none [] [] []]]⟩]

/-- The arguments in `orderedText`. -/
def rangeArguments : List (String × Value) :=
  [("p", .boolean true), ("q", .boolean false)]

theorem ofText_orderedText :
    Document.ofText? orderedText = some (rangeDocument rangeArguments rangeArguments) := by
  cbv

theorem ofText_reversedText :
    Document.ofText? reversedText
      = some (rangeDocument rangeArguments.reverse rangeArguments.reverse) := by
  cbv

theorem ofText_mixedText :
    Document.ofText? mixedText = some (rangeDocument rangeArguments rangeArguments.reverse) := by
  cbv

theorem rangeDocument_reorders {first second first' second' : List (String × Value)}
    (h : Arguments.MayReorder first first') (h' : Arguments.MayReorder second second') :
    (rangeDocument first second).Reorders (rangeDocument first' second') := by
  refine .cons (.operation (.field h ?_ (.field h' ?_ .nil))) .nil
  · exact .field (.inl rfl) .nil .nil
  · exact .field (.inl rfl) .nil .nil

theorem mayReorder_range : Arguments.MayReorder rangeArguments rangeArguments.reverse := by
  refine .inr ⟨(List.reverse_perm _).symm, ?_⟩
  decide

end Document

/-- Selects a field twice, with given arguments. -/
def rangeSelections (first second : Arguments) : List Selection :=
  [.nested { name := "x", aliasName := some "a", arguments := first } [.leaf { name := "id" }],
    .nested { name := "x", aliasName := some "a", arguments := second } [.leaf { name := "name" }]]

/-- The query that selects a field twice, with given arguments. -/
def rangeQuery (text : String) (first second : Arguments) : Query where
  text
  operations := [⟨none, .query, [], rangeSelections first second⟩]
  fragments := []

/-- The prepared arguments in `Document.orderedText`. -/
def preparedRange : Arguments :=
  [("p", .literal (.bool true)), ("q", .literal (.bool false))]

/-- What is collected from occurrences that are one field. -/
def joinedRange (arguments : Arguments) : CollectedField where
  field := { name := "x", aliasName := some "a", arguments }
  isLeaf := false
  selectionSets := [[.leaf { name := "id" }], [.leaf { name := "name" }]]
  scope := { parentType := some "Query" }

/-- What is collected from the leaves below it: they have different names. -/
def joinedLeaves : List CollectedField :=
  ["id", "name"].map fun name ↦ ⟨{ name }, true, [], {}⟩

theorem joinedRange_mergesAlike (arguments : Arguments) :
    Planner.MergesAlike (fun _ ↦ true) FieldKey.AgreesUpToOrder [] recursionLimit
      (joinedRange arguments).selectionSets {} := by
  have hcollect : (joinedRange arguments).selectionSets.foldlM (fun found selections =>
      Planner.collect [] (127 + 1) selections {} found) [] = .ok joinedLeaves := rfl
  have hshape : ∀ a ∈ joinedLeaves, ∀ b ∈ joinedLeaves,
      a.key.shape = b.key.shape → a.key.same b.key = true := by
    decide
  have hleaf : ∀ field ∈ joinedLeaves, field.isLeaf = true := by
    decide
  refine .of_collect hcollect (fun a ha b hb h ↦ hshape a ha b hb h.shape) ?_
  intro field hfield hnested
  cases (hleaf field hfield).symm.trans hnested

theorem rangeQuery_mergesAlike {text : String} {arguments : Arguments}
    (harguments : ArgumentValue.WellFormedFields arguments)
    (hcollect : [rangeSelections arguments arguments].foldlM (fun found selections =>
      Planner.collect [] (recursionLimit + 1) selections { parentType := some "Query" } found) []
        = .ok [joinedRange arguments]) :
    (rangeQuery text arguments arguments).MergesAlike (fun _ ↦ true) FieldKey.AgreesUpToOrder
      none := by
  intro operation hoperation
  cases hoperation
  refine .of_collect hcollect ?_ ?_
  · intro a ha b hb _
    rw [List.mem_singleton.1 ha, List.mem_singleton.1 hb]
    exact FieldKey.same_refl harguments
  · intro field hfield _
    rw [List.mem_singleton.1 hfield]
    exact joinedRange_mergesAlike arguments

/-- The name of the field in records, whatever the order of the arguments. -/
def rangeName : String :=
  "x(\x7b\"p\":true,\"q\":false\x7d)"

/-- The plan of the field, with the names of the nested fields. -/
def rangePlan (id : Nat) (arguments : Arguments) (names : List String) : FieldPlan :=
  .nested ⟨"x", "a", false, arguments, some (ArgumentValue.bindAll [] arguments), some rangeName,
      some "Query", [], []⟩ id
    (names.map fun name ↦ .leaf ⟨name, name, false, [], some [], some name, none, [], []⟩)

/-- The plan of a query in which the occurrences are planned as the given fields. -/
def rangesPlan (fields : List FieldPlan) : QueryPlan where
  kind := .query
  operationName := none
  rootType := "Query"
  variableDefaults := []
  selection := ⟨0, fields⟩

/-- The plans are executed with a record that has all nested fields. -/
def rangesExecutor (fields : List FieldPlan) : Executor Nat where
  plan := rangesPlan fields
  registry := []
  store := [("ROOT_QUERY", [(rangeName, .object [("id", .bool true), ("name", .bool true)])])]

/-- The executor for `Document.orderedText`. -/
def orderedExecutor : Executor Nat :=
  rangesExecutor [rangePlan 1 preparedRange ["id", "name"]]

theorem query_orderedText :
    Query.ofText Document.orderedText "client"
      = .ok (rangeQuery Document.orderedText preparedRange preparedRange) := by
  rw [Query.ofText, Document.ofText_orderedText]
  rfl

theorem plan_orderedText :
    (rangeQuery Document.orderedText preparedRange preparedRange).plan none
      = .ok orderedExecutor.plan := by
  cbv

theorem orderedExecutor_execute_reordered :
    Document.ofText? Document.orderedText
        = some (Document.rangeDocument Document.rangeArguments Document.rangeArguments) ∧
      Document.ofText? Document.reversedText
        = some (Document.rangeDocument Document.rangeArguments.reverse
          Document.rangeArguments.reverse) ∧
      (Document.rangeDocument Document.rangeArguments Document.rangeArguments).Reorders
        (Document.rangeDocument Document.rangeArguments.reverse Document.rangeArguments.reverse) ∧
      Query.ofText Document.orderedText "client"
        = .ok (rangeQuery Document.orderedText preparedRange preparedRange) ∧
      (rangeQuery Document.orderedText preparedRange preparedRange).plan none
        = .ok orderedExecutor.plan ∧
      orderedExecutor.plan.hasLocalField = false ∧
      (rangeQuery Document.orderedText preparedRange preparedRange).MergesAlike (fun _ ↦ true)
        FieldKey.AgreesUpToOrder none ∧
      (∀ query', Query.ofText Document.reversedText "client" = .ok query' →
        query'.MergesAlike (fun _ ↦ true) FieldKey.AgreesUpToOrder none) ∧
      ∃ query' plan', Query.ofText Document.reversedText "client" = .ok query' ∧
        query'.plan none = .ok plan' ∧
        ∀ root world, ((orderedExecutor.withPlan plan').execute root world).1
          = (orderedExecutor.execute root world).1 := by
  have hreorders := Document.rangeDocument_reorders Document.mayReorder_range
    Document.mayReorder_range
  have hquery' : Query.ofText Document.reversedText "client"
      = .ok (rangeQuery Document.reversedText preparedRange.reverse preparedRange.reverse) := by
    rw [Query.ofText, Document.ofText_reversedText]
    rfl
  have hmerges : (rangeQuery Document.orderedText preparedRange preparedRange).MergesAlike
      (fun _ ↦ true) FieldKey.AgreesUpToOrder none :=
    rangeQuery_mergesAlike ⟨trivial, trivial, trivial⟩ rfl
  have hmerges' (query' : Query) (h : Query.ofText Document.reversedText "client" = .ok query') :
      query'.MergesAlike (fun _ ↦ true) FieldKey.AgreesUpToOrder none := by
    obtain rfl := Except.ok.inj (hquery'.symm.trans h)
    exact rangeQuery_mergesAlike ⟨trivial, trivial, trivial⟩ rfl
  exact ⟨Document.ofText_orderedText, Document.ofText_reversedText, hreorders,
    query_orderedText, plan_orderedText, rfl, hmerges, hmerges',
    Executor.execute_reordered Document.ofText_orderedText Document.ofText_reversedText hreorders
      query_orderedText plan_orderedText rfl hmerges hmerges'⟩

/-- The executor for `Document.mixedText`. -/
def mixedExecutor : Executor Nat :=
  rangesExecutor [rangePlan 1 preparedRange ["id"], rangePlan 2 preparedRange.reverse ["name"]]

theorem plan_mixedText :
    (rangeQuery Document.mixedText preparedRange preparedRange.reverse).plan none
      = .ok mixedExecutor.plan := by
  cbv

/-- Fields may be merged after arguments change places: as long as the orders differ, the second
field replaces the first one, although both are read from the same place. -/
theorem Executor.reordered_merges :
    Document.ofText? Document.mixedText
        = some (Document.rangeDocument Document.rangeArguments Document.rangeArguments.reverse) ∧
      Document.ofText? Document.orderedText
        = some (Document.rangeDocument Document.rangeArguments Document.rangeArguments) ∧
      (Document.rangeDocument Document.rangeArguments Document.rangeArguments.reverse).Reorders
        (Document.rangeDocument Document.rangeArguments Document.rangeArguments) ∧
      Query.ofText Document.mixedText "client"
        = .ok (rangeQuery Document.mixedText preparedRange preparedRange.reverse) ∧
      (rangeQuery Document.mixedText preparedRange preparedRange.reverse).plan none
        = .ok mixedExecutor.plan ∧
      mixedExecutor.plan.hasLocalField = false ∧
      Query.ofText Document.orderedText "client"
        = .ok (rangeQuery Document.orderedText preparedRange preparedRange) ∧
      (rangeQuery Document.orderedText preparedRange preparedRange).plan none
        = .ok orderedExecutor.plan ∧
      (mixedExecutor.execute .query 0).1
        = .ok ⟨some (.object [("a", .object [("name", .bool true)])]), []⟩ ∧
      ((mixedExecutor.withPlan orderedExecutor.plan).execute .query 0).1
        = .ok ⟨some (.object [("a", .object [("id", .bool true), ("name", .bool true)])]), []⟩ := by
  have hreverse : Arguments.MayReorder Document.rangeArguments.reverse Document.rangeArguments :=
    .inr ⟨List.reverse_perm _, by decide⟩
  have hquery : Query.ofText Document.mixedText "client"
      = .ok (rangeQuery Document.mixedText preparedRange preparedRange.reverse) := by
    rw [Query.ofText, Document.ofText_mixedText]
    rfl
  have hstart : mixedExecutor.start .query { world := 0 }
      = (.ok (.object [("a", .object [("name", .bool true)])], {}), { world := 0 }) := by
    rfl
  have hstart' : (mixedExecutor.withPlan orderedExecutor.plan).start .query { world := 0 }
      = (.ok (.object [("a", .object [("id", .bool true), ("name", .bool true)])], {}),
        { world := 0 }) := by
    rfl
  refine ⟨Document.ofText_mixedText, Document.ofText_orderedText,
    Document.rangeDocument_reorders (.inl rfl) hreverse, hquery, plan_mixedText, rfl,
    query_orderedText, plan_orderedText, ?_, ?_⟩
  · rw [execute_of_start (Registry.validate_of_remote _ rfl) hstart rfl]
    simp [respond, Fault.inOrder]
  · rw [execute_of_start (Registry.validate_of_remote _ rfl) hstart' rfl]
    simp [respond, Fault.inOrder]

end GraphCache
