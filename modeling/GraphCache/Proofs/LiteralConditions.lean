import GraphCache.Proofs.RewrittenQueries
import Mathlib.Tactic

/-!
# Literal conditions

A variable in a condition can be replaced by the truth value that it has in a request. What depends
on a literal condition is settled when the document is read: it is dropped, or it becomes
unconditional. What depends on a variable is settled in the execution. Both ways lead to the same
response as long as the fields that remain are merged in the same way. Fields are merged only if
their conditions are the same, and literal conditions are the same more often.

## Main definitions

* `Document.resolveConditions`: the document with truth values for variables in conditions.
* `QueryPlan.ConditionsAgree`: in a plan, fields that the variables do not exclude do not differ in
  their conditions only.

## Main results

* `IncludeSkip.ofDirectives_resolveCondition`: conditions are resolved in the document or later.
* `Executor.execute_resolveConditions`: literal and variable conditions lead to the same response.
* `Executor.literalConditions_merge`: fields that are merged because of literal conditions.
-/

namespace GraphCache

/-! ### Resolved conditions -/

namespace Document

/-- The truth value of a variable takes its place; other values stay. -/
def Value.resolveCondition (vars : Object) : Value → Value
  | .var name =>
    match (Dict.get? vars name).bind Json.bool? with
    | some value => .boolean value
    | none => .var name
  | value => value

/-- Resolves the value of an argument `if`; other arguments stay. -/
def resolveArgument (vars : Object) (argument : String × Value) : String × Value :=
  (argument.1, if argument.1 = "if" then argument.2.resolveCondition vars else argument.2)

/-- Resolves the condition of a directive `@include` or `@skip`; other directives stay. -/
def Directive.resolveCondition (vars : Object) (directive : Directive) : Directive :=
  if directive.name = "include" ∨ directive.name = "skip" then
    { directive with arguments := directive.arguments.map (resolveArgument vars) }
  else directive

theorem Directive.name_resolveCondition (vars : Object) (directive : Directive) :
    (directive.resolveCondition vars).name = directive.name := by
  rw [resolveCondition]
  split <;> rfl

mutual

/-- Resolves the conditions of a selection and of those inside it. -/
def Selection.resolveConditions (vars : Object) : Selection → Selection
  | .field name aliasName arguments directives selections =>
    .field name aliasName arguments (directives.map (Directive.resolveCondition vars))
      (resolveAllConditions vars selections)
  | .inlineFragment typeCondition directives selections =>
    .inlineFragment typeCondition (directives.map (Directive.resolveCondition vars))
      (resolveAllConditions vars selections)
  | .fragmentSpread name directives =>
    .fragmentSpread name (directives.map (Directive.resolveCondition vars))

/-- Resolves the conditions of the listed selections and of those inside them. -/
def resolveAllConditions (vars : Object) : List Selection → List Selection
  | [] => []
  | selection :: selections =>
    selection.resolveConditions vars :: resolveAllConditions vars selections

end

/-- Resolves the conditions in a definition. -/
def Definition.resolveConditions (vars : Object) : Definition → Definition
  | .operation definition =>
    .operation { definition with
      selections := resolveAllConditions vars definition.selections }
  | .fragment definition =>
    .fragment { definition with
      selections := resolveAllConditions vars definition.selections }
  | .typeSystem => .typeSystem

/-- The document in which variables in conditions are replaced by their truth values, where they
have one. -/
def resolveConditions (vars : Object) (document : Document) : Document :=
  document.map (Definition.resolveConditions vars)

end Document

/-- The truth value of a condition takes its place, if it has one. -/
def Condition.resolve (vars : Object) (condition : Condition) : Condition :=
  match condition.eval? vars with
  | some true => .yes
  | some false => .no
  | none => condition

/-- The conditions, with truth values for variables. -/
def IncludeSkip.resolve (vars : Object) (conditions : IncludeSkip) : IncludeSkip :=
  ⟨conditions.includeIf.resolve vars, conditions.skipIf.resolve vars⟩

section Resolve

variable (vars : Object)

@[simp] theorem Condition.eval?_resolve (condition : Condition) :
    (condition.resolve vars).eval? vars = condition.eval? vars := by
  rw [resolve]
  split
  · next h => rw [h, eval?]
  · next h => rw [h, eval?]
  · rfl

theorem Condition.resolve_eq_yes_iff (condition : Condition) :
    condition.resolve vars = .yes ↔ condition.eval? vars = some true := by
  constructor
  · intro h
    rw [← eval?_resolve, h, eval?]
  · intro h
    rw [resolve, h]

theorem Condition.resolve_eq_no_iff (condition : Condition) :
    condition.resolve vars = .no ↔ condition.eval? vars = some false := by
  constructor
  · intro h
    rw [← eval?_resolve, h, eval?]
  · intro h
    rw [resolve, h]

/-- Resolved conditions exclude a selection for the variables if the original ones do. -/
theorem IncludeSkip.shouldSkip_resolve (conditions : IncludeSkip) :
    (conditions.resolve vars).shouldSkip vars = conditions.shouldSkip vars := by
  simp [shouldSkip, resolve]

/-- What the variables exclude is skipped for all variables after the conditions are resolved. -/
theorem IncludeSkip.staticallySkipped_resolve (conditions : IncludeSkip) :
    (conditions.resolve vars).staticallySkipped = conditions.shouldSkip vars := by
  have hinclude := conditions.includeIf.resolve_eq_no_iff vars
  have hskip := conditions.skipIf.resolve_eq_yes_iff vars
  rw [Bool.eq_iff_iff, staticallySkipped, shouldSkip]
  simp only [resolve, Bool.or_eq_true, beq_iff_eq, hinclude, hskip, Bool.not_eq_true']
  cases conditions.skipIf.eval? vars <;> cases conditions.includeIf.eval? vars <;> simp

theorem IncludeSkip.resolve_unconditional : unconditional.resolve vars = unconditional := rfl

theorem Condition.ofDirective?_resolveCondition {directive : Document.Directive}
    (h : directive.name = "include" ∨ directive.name = "skip") :
    ofDirective? (directive.resolveCondition vars)
      = (ofDirective? directive).map (resolve vars) := by
  have hkey : (fun argument : String × Document.Value ↦ argument.1 == "if") ∘
      Document.resolveArgument vars = fun argument ↦ argument.1 == "if" := rfl
  rw [Document.Directive.resolveCondition, if_pos h, ofDirective?, ofDirective?, List.find?_map,
    hkey]
  cases hfind : directive.arguments.find? (·.1 == "if") with
  | none => rfl
  | some argument =>
    obtain ⟨name, value⟩ := argument
    obtain rfl : name = "if" := by simpa using List.find?_some hfind
    rw [Option.map_some]
    cases value with
    | var name =>
      simp only [Document.resolveArgument, Document.Value.resolveCondition, if_pos, Option.map_some,
        resolve, eval?]
      cases hvalue : (Dict.get? vars name).bind Json.bool? with
      | none => rfl
      | some value => cases value <;> rfl
    | boolean value => cases value <;> rfl
    | _ => rfl

/-- The conditions can be resolved in the document, or when they have been read. -/
theorem IncludeSkip.ofDirectives_resolveCondition (directives : List Document.Directive) :
    ofDirectives (directives.map (Document.Directive.resolveCondition vars))
      = (ofDirectives directives).resolve vars := by
  have hfirst (name : String) (hname : name = "include" ∨ name = "skip") :
      (directives.map (Document.Directive.resolveCondition vars)).findSome? (fun directive ↦
          if directive.name = name then Condition.ofDirective? directive else none)
        = (directives.findSome? fun directive ↦
          if directive.name = name then Condition.ofDirective? directive else none).map
            (Condition.resolve vars) := by
    rw [List.findSome?_map, List.map_findSome?]
    congr 1
    funext directive
    simp only [Function.comp, directive.name_resolveCondition]
    split
    · next heq => exact Condition.ofDirective?_resolveCondition vars (heq ▸ hname)
    · rfl
  have hdefault (condition : Option Condition) (other : Condition)
      (hother : other.resolve vars = other) :
      (condition.map (Condition.resolve vars)).getD other
        = (condition.getD other).resolve vars := by
    cases condition with
    | none => exact hother.symm
    | some condition => rfl
  rw [ofDirectives, ofDirectives, resolve]
  dsimp only
  rw [hfirst "include" (.inl rfl), hfirst "skip" (.inr rfl), hdefault _ .yes rfl,
    hdefault _ .no rfl]

end Resolve

/-! ### Documents with resolved conditions -/

section Revision

variable (vars : Object)

/-- The rewriting that resolves conditions. -/
def Rewriting.resolving : Rewriting :=
  ⟨IncludeSkip.resolve vars, Eq⟩

namespace Document

/-- The revision that resolves conditions. -/
def Revision.resolving : Revision :=
  ⟨List.map (Directive.resolveCondition vars), Eq⟩

theorem Revision.leadsTo_resolving (localDirective : String) :
    (resolving vars).LeadsTo localDirective (.resolving vars) where
  conditions directives := IncludeSkip.ofDirectives_resolveCondition vars directives
  staticallySkipped conditions h := by
    rw [Rewriting.resolving, IncludeSkip.staticallySkipped_resolve]
    exact IncludeSkip.shouldSkip_of_staticallySkipped h vars
  isLocal directives := by
    simp [resolving, List.any_map, Function.comp_def, Directive.name_resolveCondition]
  arguments h := congrArg ArgumentValue.ofFieldValues h

mutual

theorem revises_singleton_resolveConditions (selection : Selection) {as bs : List Selection}
    (h : (Revision.resolving vars).Revises as bs) :
    (Revision.resolving vars).Revises (selection :: as)
      (selection.resolveConditions vars :: bs) := by
  cases selection with
  | field name aliasName arguments directives selections =>
    exact .field rfl (revises_resolveAllConditions selections) h
  | inlineFragment typeCondition directives selections =>
    exact .inlineFragment (revises_resolveAllConditions selections) h
  | fragmentSpread name directives => exact .fragmentSpread h

/-- Selections are revised by resolving their conditions. -/
theorem revises_resolveAllConditions (selections : List Selection) :
    (Revision.resolving vars).Revises selections (resolveAllConditions vars selections) := by
  cases selections with
  | nil => exact .nil
  | cons selection selections =>
    exact revises_singleton_resolveConditions selection (revises_resolveAllConditions selections)

end

/-- A document is revised by resolving its conditions. -/
theorem revises_resolveConditions (document : Document) :
    List.Forall₂ (Revision.resolving vars).RevisesDefinition document
      (resolveConditions vars document) := by
  refine List.forall₂_map_right_iff.2 (List.forall₂_same.2 fun definition _ ↦ ?_)
  cases definition with
  | operation definition => exact .operation (revises_resolveAllConditions vars _)
  | fragment definition => exact .fragment (revises_resolveAllConditions vars _)
  | typeSystem => exact .typeSystem

end Document

/-- Variables exclude the same after conditions are resolved for them. -/
theorem Rewriting.faithful_resolving : (resolving vars).Faithful vars where
  conditions_unconditional := IncludeSkip.resolve_unconditional vars
  shouldSkip_conditions := IncludeSkip.shouldSkip_resolve vars
  storageName h name := by rw [show _ = _ from h]

/-- The fields that are kept are those that the variables do not exclude. -/
theorem Rewriting.keepsKey_resolving (key : FieldKey) :
    (resolving vars).keepsKey key = !key.conditions.any (·.shouldSkip vars) := by
  rw [keepsKey, List.not_any_eq_all_not]
  refine congrArg _ (funext fun conditions ↦ ?_)
  rw [keeps, resolving, IncludeSkip.staticallySkipped_resolve]

end Revision

/-! ### Fields that differ in their conditions -/

/-- Two fields differ at most in their conditions and in their nested selections. -/
def FieldKey.AgreesUpToConditions (a b : FieldKey) : Prop :=
  a.shape = b.shape ∧ ArgumentValue.sameFields a.arguments b.arguments = true

instance (a b : FieldKey) : Decidable (a.AgreesUpToConditions b) :=
  inferInstanceAs (Decidable (_ ∧ _))

/-- Fields that become one when conditions are resolved differ at most in their conditions. -/
theorem Rewriting.respectsMerging_resolving (vars : Object) :
    (resolving vars).RespectsMerging FieldKey.AgreesUpToConditions fun _ _ ↦ False where
  congruent ha hb hc hd hab hcd h := by
    obtain ⟨hshape, harguments, -⟩ := FieldKey.same_iff_shape.1 hab
    obtain ⟨hshape', harguments', -⟩ := FieldKey.same_iff_shape.1 hcd
    refine ⟨hshape.trans (h.1.trans hshape'.symm), ?_⟩
    have hback := ArgumentValue.sameFields_symm hc hd harguments'
    exact ArgumentValue.sameFields_trans ha hb hc harguments
      (ArgumentValue.sameFields_trans hb hd hc h.2 hback)
  congruent' _ _ _ _ _ _ h := h.elim
  back {a b c d} hab hcd h := by
    have harguments : a.arguments = b.arguments := hab.arguments
    have harguments' : c.arguments = d.arguments := hcd.arguments
    obtain ⟨hshape, hsame, -⟩ := FieldKey.same_iff_shape.1 h
    exact ⟨hab.shape.trans (hshape.trans hcd.shape.symm), harguments ▸ harguments' ▸ hsame⟩
  forth {a b c d} hab hcd h := by
    have harguments : a.arguments = b.arguments := hab.arguments
    have harguments' : c.arguments = d.arguments := hcd.arguments
    obtain ⟨hshape, hsame, hconditions⟩ := FieldKey.same_iff_shape.1 h
    refine .inl (FieldKey.same_iff_shape.2
      ⟨hab.shape.symm.trans (hshape.trans hcd.shape), harguments ▸ harguments' ▸ hsame, ?_⟩)
    rw [hab.conditions, hcd.conditions, hconditions]

namespace QueryPlan

/-- The selection sets of a plan that are below no field that the variables exclude. -/
inductive Reaches (plan : QueryPlan) (vars : Object) : SelectionPlan → Prop where
  | root : Reaches plan vars plan.selection
  | nested {field : PlannedField} {id : Nat} {fields : List FieldPlan} {outer : SelectionPlan}
      (houter : Reaches plan vars outer) (hmem : .nested field id fields ∈ outer.fields)
      (hskipped : field.isSkipped vars = false) : Reaches plan vars ⟨id, fields⟩

theorem Reaches.mem_selections {plan : QueryPlan} {vars : Object} {selection : SelectionPlan}
    (h : plan.Reaches vars selection) : selection ∈ plan.selection.selections := by
  induction h with
  | root => exact plan.selection.self_mem_selections
  | nested _ hmem _ ih => exact SelectionPlan.nested_mem_selections ih hmem

/-- In each selection set, fields that the variables do not exclude and that agree except for their
conditions and nested selections have the same conditions. What is below an excluded field does not
matter. -/
def ConditionsAgree (plan : QueryPlan) (vars : Object) : Prop :=
  ∀ selection, plan.Reaches vars selection → ∀ a ∈ selection.fields, ∀ b ∈ selection.fields,
    a.field.isSkipped vars = false → b.field.isSkipped vars = false →
      a.key.AgreesUpToConditions b.key → a.field.conditions = b.field.conditions

end QueryPlan

section ConditionsAgree

variable {plan : QueryPlan} {vars : Object} (h : plan.ConditionsAgree vars)

include h

/-- Of fields whose plans have the same conditions if they agree otherwise, those that the variables
do not exclude have become one. -/
theorem Planner.mergesAlike_of_planSelection {fragments : Fragments} {levels : Nat}
    {sets : List (List Selection)} {scope : Scope} {next last : Nat} {selection : SelectionPlan}
    (hplan : planSelection fragments levels sets scope next = .ok (selection, last))
    (hreaches : plan.Reaches vars selection) :
    MergesAlike (Rewriting.resolving vars).keepsKey FieldKey.AgreesUpToConditions fragments levels
      sets scope := by
  induction levels generalizing sets scope next last selection with
  | zero => trivial
  | succ levels ih =>
    intro collected hcollect
    obtain ⟨inner, found, hlevels, hfound, -, hfields⟩ := planSelection_ok hplan
    obtain rfl : levels = inner := Nat.succ.inj hlevels
    obtain rfl : found = collected := Except.ok.inj (hfound.symm.trans hcollect)
    have hplanned (field : CollectedField) (hfield : field ∈ found) :
        ∃ fieldPlan ∈ selection.fields,
          PlannedAs (planSelection fragments levels) field fieldPlan :=
      exists_of_forall₂ (planFields_forall₂ hfields).flip hfield
    have hskipped {field : CollectedField} {fieldPlan : FieldPlan}
        (hkey : fieldPlan.key = field.key)
        (hkeeps : (Rewriting.resolving vars).keepsKey field.key = true) :
        fieldPlan.field.isSkipped vars = false := by
      rw [Rewriting.keepsKey_resolving, ← hkey, Bool.not_eq_true'] at hkeeps
      exact hkeeps
    refine ⟨fun a ha b hb hkeepsA hkeepsB halike ↦ ?_, fun field hfield hkeeps hleaf ↦ ?_⟩
    · obtain ⟨planA, hplanA, hplannedA⟩ := hplanned a ha
      obtain ⟨planB, hplanB, hplannedB⟩ := hplanned b hb
      have hconditions := h _ hreaches planA hplanA planB hplanB
        (hskipped hplannedA.key_eq hkeepsA) (hskipped hplannedB.key_eq hkeepsB)
        (by rwa [hplannedA.key_eq, hplannedB.key_eq])
      have hsame : planA.key.conditions = planB.key.conditions := hconditions
      rw [hplannedA.key_eq, hplannedB.key_eq] at hsame
      exact FieldKey.same_iff_shape.2 ⟨halike.1, halike.2, hsame⟩
    · obtain ⟨fieldPlan, hmem, hplannedAs⟩ := hplanned field hfield
      have hkept := hskipped hplannedAs.key_eq hkeeps
      cases hplannedAs with
      | leaf hleaf' => cases hleaf.symm.trans hleaf'
      | nested _ hinner => exact ih hinner (hreaches.nested hmem hkept)

theorem QueryPlan.ConditionsAgree.mergesAlike {query : Query} {operationName : Option String}
    (hplan : query.plan operationName = .ok plan) :
    query.MergesAlike (Rewriting.resolving vars).keepsKey FieldKey.AgreesUpToConditions
      operationName := by
  intro operation hoperation
  obtain ⟨found, selection, hfound, -, hroot, rfl⟩ := Query.plan_eq_ok_iff.1 hplan
  obtain ⟨last, hselection⟩ := Planner.planRoot_eq_ok_iff.1 hroot
  obtain rfl : found = operation := Except.ok.inj (hfound.symm.trans hoperation)
  exact Planner.mergesAlike_of_planSelection h hselection .root

end ConditionsAgree

/-! ### Executions -/

/-- If each variable in a condition is replaced by the truth value that it has in a request, the
operation is planned as before, and the execution gives the same response or fails in the same way.
No field of the plan may be local. Of the fields in a selection set that the variables do not
exclude, no two may differ in their conditions only. -/
theorem Executor.execute_resolveConditions {World : Type} {executor : Executor World}
    {text text' localDirective : String} {document : Document} {query : Query}
    {operationName : Option String} (hdocument : Document.ofText? text = some document)
    (hresolved : Document.ofText? text'
      = some (document.resolveConditions executor.execution.variableValues))
    (hquery : Query.ofText text localDirective = .ok query)
    (hplan : query.plan operationName = .ok executor.plan)
    (hlocal : executor.plan.hasLocalField = false)
    (hconditions : executor.plan.ConditionsAgree executor.execution.variableValues) :
    ∃ query' plan', Query.ofText text' localDirective = .ok query' ∧
      query'.plan operationName = .ok plan' ∧
      ∀ root world, ((executor.withPlan plan').execute root world).1
        = (executor.execute root world).1 :=
  Document.Revision.execute_revised (Document.Revision.leadsTo_resolving _ localDirective)
    hdocument hresolved (Document.revises_resolveConditions _ document) hquery hplan hlocal
    (Rewriting.faithful_resolving _) (Rewriting.respectsMerging_resolving _)
    (hconditions.mergesAlike hplan) fun _ _ _ _ ↦ Planner.MergesAlike.of_none _ _ _ _ _

/-! ### Sample documents -/

namespace Document

/-- A query in which one of two fields is selected, as a variable tells. -/
def choiceText : String :=
  "query($v: Boolean) { a { p @include(if: $v) q @skip(if: $v) } }"

/-- `choiceText` with a literal for the variable. -/
def chosenText : String :=
  "query($v: Boolean) { a { p @include(if: true) q @skip(if: true) } }"

/-- What `choiceText` says. -/
def choiceDocument : Document :=
  [.operation ⟨none, .query, [⟨"v", none⟩],
    [.field "a" none [] []
      [.field "p" none [] [⟨"include", [("if", .var "v")]⟩] [],
        .field "q" none [] [⟨"skip", [("if", .var "v")]⟩] []]]⟩]

theorem ofText_choiceText : Document.ofText? choiceText = some choiceDocument := by
  cbv

theorem ofText_chosenText :
    Document.ofText? chosenText = some (choiceDocument.resolveConditions [("v", .bool true)]) := by
  cbv

/-- A query that selects a field twice under one response key, the second time under a condition. -/
def partsText : String :=
  "query($v: Boolean) { a: x { p } a: x @include(if: $v) { q } }"

/-- `partsText` with a literal for the variable. -/
def joinedText : String :=
  "query($v: Boolean) { a: x { p } a: x @include(if: true) { q } }"

/-- What `partsText` says. -/
def partsDocument : Document :=
  [.operation ⟨none, .query, [⟨"v", none⟩],
    [.field "x" (some "a") [] [] [.field "p" none [] [] []],
      .field "x" (some "a") [] [⟨"include", [("if", .var "v")]⟩] [.field "q" none [] [] []]]⟩]

theorem ofText_partsText : Document.ofText? partsText = some partsDocument := by
  cbv

theorem ofText_joinedText :
    Document.ofText? joinedText = some (partsDocument.resolveConditions [("v", .bool true)]) := by
  cbv

end Document

/-- The query that is read from `choiceText`. -/
def choiceQuery : Query where
  text := Document.choiceText
  operations := [⟨none, .query, [],
    [.nested { name := "a" }
      [.leaf { name := "p", conditions := ⟨.var "v", .no⟩ },
        .leaf { name := "q", conditions := ⟨.yes, .var "v"⟩ }]]⟩]
  fragments := []

/-- The plan of `choiceQuery`. -/
def choicePlan : QueryPlan where
  kind := .query
  operationName := none
  rootType := "Query"
  variableDefaults := []
  selection := ⟨0,
    [.nested ⟨"a", "a", false, [], some [], some "a", some "Query", [], []⟩ 1
      [.leaf ⟨"p", "p", false, [], some [], some "p", none, [], [⟨.var "v", .no⟩]⟩,
        .leaf ⟨"q", "q", false, [], some [], some "q", none, [], [⟨.yes, .var "v"⟩]⟩]]⟩

/-- The plan is executed with a record that has both fields. -/
def choiceExecutor : Executor Nat where
  plan := choicePlan
  registry := []
  store := [("ROOT_QUERY", [("a", .object [("p", .string "yes"), ("q", .string "no")])])]
  variableValues := [("v", .bool true)]

theorem choicePlan_conditionsAgree (vars : Object) : choicePlan.ConditionsAgree vars := by
  have hall : ∀ selection ∈ choicePlan.selection.selections, ∀ a ∈ selection.fields,
      ∀ b ∈ selection.fields, a.key.AgreesUpToConditions b.key →
        a.field.conditions = b.field.conditions := by
    decide
  exact fun selection hreaches a ha b hb _ _ ↦ hall selection hreaches.mem_selections a ha b hb

theorem choiceExecutor_execute_resolveConditions :
    Document.ofText? Document.choiceText = some Document.choiceDocument ∧
      Document.ofText? Document.chosenText = some (Document.choiceDocument.resolveConditions
        choiceExecutor.execution.variableValues) ∧
      Query.ofText Document.choiceText "client" = .ok choiceQuery ∧
      choiceQuery.plan none = .ok choiceExecutor.plan ∧
      choiceExecutor.plan.hasLocalField = false ∧
      choiceExecutor.plan.ConditionsAgree choiceExecutor.execution.variableValues ∧
      ∃ query' plan', Query.ofText Document.chosenText "client" = .ok query' ∧
        query'.plan none = .ok plan' ∧
        ∀ root world, ((choiceExecutor.withPlan plan').execute root world).1
          = (choiceExecutor.execute root world).1 := by
  have hresolved : Document.ofText? Document.chosenText = some
      (Document.choiceDocument.resolveConditions choiceExecutor.execution.variableValues) :=
    Document.ofText_chosenText
  have hquery : Query.ofText Document.choiceText "client" = .ok choiceQuery := by
    rw [Query.ofText, Document.ofText_choiceText]
    rfl
  have hplan : choiceQuery.plan none = .ok choiceExecutor.plan := rfl
  have hconditions := choicePlan_conditionsAgree choiceExecutor.execution.variableValues
  exact ⟨Document.ofText_choiceText, hresolved, hquery, hplan, rfl, hconditions,
    Executor.execute_resolveConditions Document.ofText_choiceText hresolved hquery hplan rfl
      hconditions⟩

/-- A query that selects a field twice. The conditions of the second occurrence are given. -/
def partsQuery (text : String) (conditions : IncludeSkip) : Query where
  text
  operations := [⟨none, .query, [],
    [.nested { name := "x", aliasName := some "a" } [.leaf { name := "p" }],
      .nested { name := "x", aliasName := some "a", conditions } [.leaf { name := "q" }]]⟩]
  fragments := []

/-- The plan of the field that is selected, with the names of the nested fields. -/
def partPlan (id : Nat) (conditions : List IncludeSkip) (names : List String) : FieldPlan :=
  .nested ⟨"x", "a", false, [], some [], some "x", some "Query", [], conditions⟩ id
    (names.map fun name ↦ .leaf ⟨name, name, false, [], some [], some name, none, [], []⟩)

/-- The plan in which both occurrences are fields of their own. -/
def partsPlan : QueryPlan where
  kind := .query
  operationName := none
  rootType := "Query"
  variableDefaults := []
  selection := ⟨0, [partPlan 1 [] ["p"], partPlan 2 [⟨.var "v", .no⟩] ["q"]]⟩

/-- The plan in which the occurrences are one field. -/
def joinedPlan : QueryPlan where
  kind := .query
  operationName := none
  rootType := "Query"
  variableDefaults := []
  selection := ⟨0, [partPlan 1 [] ["p", "q"]]⟩

/-- Both plans are executed with a record that has all nested fields. -/
def partsExecutor : Executor Nat where
  plan := partsPlan
  registry := []
  store := [("ROOT_QUERY", [("x", .object [("p", .bool true), ("q", .bool true)])])]
  variableValues := [("v", .bool true)]

/-- A literal may be the reason why two fields are merged: with the variable the second field
replaces the first one. -/
theorem Executor.literalConditions_merge :
    Query.ofText Document.partsText "client"
        = .ok (partsQuery Document.partsText ⟨.var "v", .no⟩) ∧
      (partsQuery Document.partsText ⟨.var "v", .no⟩).plan none = .ok partsExecutor.plan ∧
      partsExecutor.plan.hasLocalField = false ∧
      Document.ofText? Document.partsText = some Document.partsDocument ∧
      Document.ofText? Document.joinedText = some (Document.partsDocument.resolveConditions
        partsExecutor.execution.variableValues) ∧
      Query.ofText Document.joinedText "client"
        = .ok (partsQuery Document.joinedText .unconditional) ∧
      (partsQuery Document.joinedText .unconditional).plan none = .ok joinedPlan ∧
      (partsExecutor.execute .query 0).1
        = .ok ⟨some (.object [("a", .object [("q", .bool true)])]), []⟩ ∧
      ((partsExecutor.withPlan joinedPlan).execute .query 0).1
        = .ok ⟨some (.object [("a", .object [("p", .bool true), ("q", .bool true)])]), []⟩ := by
  have hquery : Query.ofText Document.partsText "client"
      = .ok (partsQuery Document.partsText ⟨.var "v", .no⟩) := by
    rw [Query.ofText, Document.ofText_partsText]
    rfl
  have hquery' : Query.ofText Document.joinedText "client"
      = .ok (partsQuery Document.joinedText .unconditional) := by
    rw [Query.ofText, Document.ofText_joinedText]
    rfl
  have hstart : partsExecutor.start .query { world := 0 }
      = (.ok (.object [("a", .object [("q", .bool true)])], {}), { world := 0 }) := by
    rfl
  have hstart' : (partsExecutor.withPlan joinedPlan).start .query { world := 0 }
      = (.ok (.object [("a", .object [("p", .bool true), ("q", .bool true)])], {}),
        { world := 0 }) := by
    rfl
  refine ⟨hquery, rfl, rfl, Document.ofText_partsText, Document.ofText_joinedText, hquery', rfl,
    ?_, ?_⟩
  · rw [execute_of_start (Registry.validate_of_remote _ rfl) hstart rfl]
    simp [respond, Fault.inOrder]
  · rw [execute_of_start (Registry.validate_of_remote _ rfl) hstart' rfl]
    simp [respond, Fault.inOrder]

end GraphCache
