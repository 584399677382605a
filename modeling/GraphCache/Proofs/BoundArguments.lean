import GraphCache.Proofs.FieldOrigins
import GraphCache.Proofs.PlannedFields
import GraphCache.Proofs.RewrittenPlans
import Mathlib.Tactic

/-!
# Binding arguments

The arguments of a field are evaluated in two steps: what contains no variable when the query is
read, the rest when it is executed; and where nothing is left for the second step, the planner keeps
the arguments and the storage name that the first one leads to. This makes no difference: the
arguments and the storage name of a field are what direct evaluation of the written arguments gives.

## Main definitions

* `Document.Value.evaluate?`: the value of a written value for given variables.
* `Document.Value.evaluateArguments`: the values of written arguments.

## Main results

* `ArgumentValue.bind?_ofValue`: evaluating in two steps is evaluating directly.
* `ArgumentValue.isSome_literal?_ofValue`: the first step leaves nothing if there is no variable.
* `boundArguments_as_written`: the arguments of a planned field are those of the document.
-/

namespace GraphCache

/-! ### Direct evaluation -/

namespace Document.Value

mutual

/-- The value of a written value for given variables. A scalar that has no value is `null`. A
variable without a value has none; inside a list it is `null`, and from an object its field is left
out. Of fields with one name the last one that has a value counts. -/
def evaluate? (vars : Object) : Value → Option Json
  | .var name => Dict.get? vars name
  | .list items => some (.array (evaluateItems vars items))
  | .object fields => some (.object (Dict.ofPairs (evaluateFields vars fields)))
  | scalar => some (scalar.constant?.getD .null)

/-- The values of the listed items, `null` where there is none. -/
def evaluateItems (vars : Object) : List Value → List Json
  | [] => []
  | item :: items => (evaluate? vars item).getD .null :: evaluateItems vars items

/-- The values of the listed fields that have one. -/
def evaluateFields (vars : Object) : List (String × Value) → List (String × Json)
  | [] => []
  | (name, value) :: fields =>
    match evaluate? vars value with
    | some json => (name, json) :: evaluateFields vars fields
    | none => evaluateFields vars fields

end

/-- The values of written arguments. -/
def evaluateArguments (vars : Object) (arguments : List (String × Value)) : Object :=
  Dict.ofPairs (evaluateFields vars arguments)

end Document.Value

/-! ### Evaluation in two steps -/

theorem isSome_mapM {α β : Type} (f : α → Option β) (as : List α) :
    (as.mapM f).isSome = as.all fun a ↦ (f a).isSome := by
  induction as with
  | nil => rfl
  | cons a as ih =>
    rw [List.all_cons, ← ih, List.mapM_cons]
    cases f a with
    | none => rfl
    | some b => cases as.mapM f <;> rfl

namespace ArgumentValue

theorem bindItems_of_literals (vars : Object) {items : List ArgumentValue} {values : List Json}
    (h : items.mapM literal? = some values) : bindItems vars items = values := by
  induction items generalizing values with
  | nil =>
    cases h
    rfl
  | cons item items ih =>
    simp only [List.mapM_cons, Option.bind_eq_bind, Option.bind_eq_some_iff, Option.pure_def,
      Option.some.injEq] at h
    obtain ⟨first, hfirst, rest, hrest, rfl⟩ := h
    cases item with
    | literal value =>
      cases hfirst
      rw [bindItems, ih hrest]
      rfl
    | _ => cases hfirst

/-- It makes no difference whether a list of literals is made a literal. -/
theorem bind?_ofItems (vars : Object) (items : List ArgumentValue) :
    (ofItems items).bind? vars = some (.array (bindItems vars items)) := by
  rw [ofItems]
  cases h : items.mapM literal? with
  | none => rfl
  | some values => rw [bindItems_of_literals vars h, bind?]

/-- It makes no difference whether an object of literals is made a literal. -/
theorem bind?_ofFields (vars : Object) (fields : List (String × ArgumentValue)) :
    (ofFields fields).bind? vars = some (.object (Dict.ofPairs (bindFields vars fields))) := by
  rw [ofFields]
  cases h : literalFields? fields with
  | none => rfl
  | some values => rw [bindFields_of_literalFields? vars h, bind?]

mutual

/-- Evaluating what contains no variable first, and then binding the variables, is evaluating
directly. -/
theorem bind?_ofValue (vars : Object) (value : Document.Value) :
    (ofValue value).bind? vars = value.evaluate? vars := by
  cases value with
  | list items =>
    rw [ofValue, bind?_ofItems, bindItems_ofValues vars items, Document.Value.evaluate?]
  | object fields =>
    rw [ofValue, bind?_ofFields, bindFields_ofFieldValues vars fields, Document.Value.evaluate?]
  | _ => rfl

theorem bindItems_ofValues (vars : Object) (values : List Document.Value) :
    bindItems vars (ofValues values) = Document.Value.evaluateItems vars values := by
  cases values with
  | nil => rfl
  | cons value values =>
    rw [ofValues, bindItems, bind?_ofValue vars value, bindItems_ofValues vars values,
      Document.Value.evaluateItems]

theorem bindFields_ofFieldValues (vars : Object) (fields : List (String × Document.Value)) :
    bindFields vars (ofFieldValues fields) = Document.Value.evaluateFields vars fields := by
  cases fields with
  | nil => rfl
  | cons field fields =>
    obtain ⟨name, value⟩ := field
    rw [ofFieldValues, bindFields, bind?_ofValue vars value, bindFields_ofFieldValues vars fields]
    cases h : value.evaluate? vars <;> simp only [Document.Value.evaluateFields, h]

end

theorem bindAll_ofFieldValues (vars : Object) (arguments : List (String × Document.Value)) :
    bindAll vars (ofFieldValues arguments) = Document.Value.evaluateArguments vars arguments := by
  rw [bindAll, bindFields_ofFieldValues, Document.Value.evaluateArguments]

/-! ### Literals -/

theorem exists_literal_iff {argument : ArgumentValue} :
    (∃ json, argument = .literal json) ↔ argument.literal?.isSome = true := by
  cases argument <;> simp [literal?]

theorem isSome_literal?_ofItems (items : List ArgumentValue) :
    (ofItems items).literal?.isSome = items.all fun item ↦ item.literal?.isSome := by
  rw [← isSome_mapM, ofItems]
  cases items.mapM literal? <;> rfl

theorem isSome_literalFields? (fields : List (String × ArgumentValue)) :
    (literalFields? fields).isSome = fields.all fun field ↦ field.2.literal?.isSome := by
  rw [literalFields?, isSome_mapM]
  simp only [Option.isSome_map]

theorem isSome_literal?_ofFields (fields : List (String × ArgumentValue)) :
    (ofFields fields).literal?.isSome = fields.all fun field ↦ field.2.literal?.isSome := by
  rw [← isSome_literalFields?, ofFields]
  cases literalFields? fields <;> rfl

mutual

/-- A value is read as a literal exactly if it contains no variable. -/
theorem isSome_literal?_ofValue (value : Document.Value) :
    (ofValue value).literal?.isSome = !value.hasVariable := by
  cases value with
  | list items =>
    rw [ofValue, isSome_literal?_ofItems, all_literal?_ofValues items, Document.Value.hasVariable]
  | object fields =>
    rw [ofValue, isSome_literal?_ofFields, all_literal?_ofFieldValues fields,
      Document.Value.hasVariable]
  | _ => rfl

theorem all_literal?_ofValues (values : List Document.Value) :
    (ofValues values).all (fun item ↦ item.literal?.isSome) = !Document.anyVariable values := by
  cases values with
  | nil => rfl
  | cons value values =>
    rw [ofValues, List.all_cons, isSome_literal?_ofValue value, all_literal?_ofValues values,
      Document.anyVariable, Bool.not_or]

theorem all_literal?_ofFieldValues (fields : List (String × Document.Value)) :
    (ofFieldValues fields).all (fun field ↦ field.2.literal?.isSome)
      = !Document.anyFieldVariable fields := by
  cases fields with
  | nil => rfl
  | cons field fields =>
    obtain ⟨name, value⟩ := field
    rw [ofFieldValues, List.all_cons, isSome_literal?_ofValue value,
      all_literal?_ofFieldValues fields, Document.anyFieldVariable, Bool.not_or]

end

end ArgumentValue

/-! ### Planned fields -/

/-- The field was planned from one that is written with the given name and the given arguments. -/
structure PlannedField.IsWrittenAs (field : PlannedField) (name : String)
    (arguments : List (String × Document.Value)) : Prop where
  /-- It was collected from the selections of a query. -/
  isCollected : field.IsCollected
  /-- It has the name that is written. -/
  name_eq : field.name = name
  /-- It has the arguments that are read of those that are written. -/
  arguments_eq : field.arguments = ArgumentValue.ofFieldValues arguments

/-- Every field of a plan is written as some field of the document. -/
theorem QueryPlan.MadeFrom.exists_isWrittenAs {text localDirective : String} {query : Query}
    {plan : QueryPlan} {fieldPlan : FieldPlan} (h : plan.MadeFrom query)
    (hquery : Query.ofText text localDirective = .ok query) (hfield : plan.Has fieldPlan) :
    ∃ document arguments, Document.ofText? text = some document ∧
      (fieldPlan.field.name, arguments) ∈ document.fields ∧
      fieldPlan.field.IsWrittenAs fieldPlan.field.name arguments := by
  obtain ⟨document, hdocument, hwritten⟩ := Query.isWritten_ofText hquery
  obtain ⟨collected, hmem, hplanned⟩ := h.exists_collected hfield
  obtain ⟨arguments, hmem, harguments⟩ := hwritten collected.field hmem
  rw [hplanned]
  exact ⟨document, arguments, hdocument, hmem, ⟨collected, rfl⟩, rfl, harguments⟩

namespace PlannedField.IsWrittenAs

variable {field : PlannedField} {name : String} {arguments : List (String × Document.Value)}

/-- The planner keeps the values of the arguments if none contains a variable. -/
theorem isSome_staticArguments (h : field.IsWrittenAs name arguments) :
    field.staticArguments.isSome = !Document.anyFieldVariable arguments := by
  obtain ⟨⟨collected, rfl⟩, -, harguments⟩ := h
  have hcollected : collected.field.arguments = ArgumentValue.ofFieldValues arguments := harguments
  rw [CollectedField.planned, Option.isSome_map, ArgumentValue.isSome_literalFields?, hcollected,
    ArgumentValue.all_literal?_ofFieldValues]

/-- The arguments of a field are those that are written, evaluated directly. -/
theorem boundArguments (h : field.IsWrittenAs name arguments) (vars : Object) :
    field.boundArguments vars = Document.Value.evaluateArguments vars arguments := by
  obtain ⟨⟨collected, rfl⟩, -, harguments⟩ := h
  have hcollected : collected.field.arguments = ArgumentValue.ofFieldValues arguments := harguments
  rw [collected.boundArguments_planned, hcollected, ArgumentValue.bindAll_ofFieldValues]

/-- The storage name of a field is that of the arguments that are written, evaluated directly. -/
theorem storageNameFor (h : field.IsWrittenAs name arguments) (vars : Object) :
    field.storageNameFor vars
      = storageName name (Document.Value.evaluateArguments vars arguments) := by
  rw [PlannedField.storageNameFor_of_collected h.isCollected, h.name_eq, h.boundArguments]

end PlannedField.IsWrittenAs

/-- Arguments are bound as they are written. Evaluating what contains no variable when the query is
read, and binding the variables later, is evaluating directly; only what contains a variable is left
for later. So the arguments and the storage name of a field of a plan are those that the arguments
in the document lead to, whether or not the planner keeps copies of them. -/
theorem boundArguments_as_written :
    (∀ (value : Document.Value) (vars : Object),
        (ArgumentValue.ofValue value).bind? vars = value.evaluate? vars) ∧
      (∀ value : Document.Value,
        (∃ json, ArgumentValue.ofValue value = .literal json) ↔ value.hasVariable = false) ∧
      ∀ (text localDirective : String) (query : Query) (plan : QueryPlan) (fieldPlan : FieldPlan),
        Query.ofText text localDirective = .ok query → plan.MadeFrom query → plan.Has fieldPlan →
          ∃ document arguments, Document.ofText? text = some document ∧
            (fieldPlan.field.name, arguments) ∈ document.fields ∧
            fieldPlan.field.arguments = ArgumentValue.ofFieldValues arguments ∧
            fieldPlan.field.staticArguments.isSome = !Document.anyFieldVariable arguments ∧
            ∀ vars : Object,
              ArgumentValue.bindAll vars fieldPlan.field.arguments
                  = Document.Value.evaluateArguments vars arguments ∧
                fieldPlan.field.boundArguments vars
                  = Document.Value.evaluateArguments vars arguments ∧
                fieldPlan.field.storageNameFor vars = storageName fieldPlan.field.name
                  (Document.Value.evaluateArguments vars arguments) := by
  refine ⟨fun value vars ↦ ArgumentValue.bind?_ofValue vars value, fun value ↦ ?_, ?_⟩
  · rw [ArgumentValue.exists_literal_iff, ArgumentValue.isSome_literal?_ofValue, Bool.not_eq_true']
  · intro text localDirective query plan fieldPlan hquery hplan hfield
    obtain ⟨document, arguments, hdocument, hmem, hwritten⟩ :=
      hplan.exists_isWrittenAs hquery hfield
    refine ⟨document, arguments, hdocument, hmem, hwritten.arguments_eq,
      hwritten.isSome_staticArguments, fun vars ↦ ⟨?_, hwritten.boundArguments vars,
      hwritten.storageNameFor vars⟩⟩
    rw [hwritten.arguments_eq, ArgumentValue.bindAll_ofFieldValues]

/-- A query with a field whose arguments contain variables. -/
def itemText : String :=
  "query($n: Int) { item(ids: [$n, 1, $gone], filter: {max: 1, min: $gone, max: $n}) { id } }"

/-- The arguments in `itemText`. -/
def itemArguments : List (String × Document.Value) :=
  [("ids", .list [.var "n", .int 1, .var "gone"]),
    ("filter", .object [("max", .int 1), ("min", .var "gone"), ("max", .var "n")])]

/-- The tokens of `itemText`. -/
def itemTokens : List Token.Placed :=
  [⟨.name "query", false⟩, ⟨.openParen, false⟩, ⟨.var "n", false⟩, ⟨.colon, false⟩,
    ⟨.name "Int", false⟩, ⟨.closeParen, false⟩, ⟨.openBrace, false⟩, ⟨.name "item", false⟩,
    ⟨.openParen, false⟩, ⟨.name "ids", false⟩, ⟨.colon, false⟩, ⟨.openBracket, false⟩,
    ⟨.var "n", true⟩, ⟨.int 1, true⟩, ⟨.var "gone", false⟩, ⟨.closeBracket, true⟩,
    ⟨.name "filter", false⟩, ⟨.colon, false⟩, ⟨.openBrace, false⟩, ⟨.name "max", false⟩,
    ⟨.colon, false⟩, ⟨.int 1, true⟩, ⟨.name "min", false⟩, ⟨.colon, false⟩, ⟨.var "gone", true⟩,
    ⟨.name "max", false⟩, ⟨.colon, false⟩, ⟨.var "n", false⟩, ⟨.closeBrace, false⟩,
    ⟨.closeParen, false⟩, ⟨.openBrace, false⟩, ⟨.name "id", false⟩, ⟨.closeBrace, false⟩,
    ⟨.closeBrace, false⟩]

theorem ofText_itemText : Document.ofText? itemText =
    some [.operation ⟨none, .query, [⟨"n", none⟩],
      [.field "item" none itemArguments [] [.field "id" none [] [] []]]⟩] := by
  have htokens : Token.readAll? itemText = some itemTokens := by decide +kernel
  rw [Document.ofText?, htokens]
  cbv

/-- The selections that are read from `itemText`. -/
def itemSelections : List Selection :=
  [.nested { name := "item", arguments := ArgumentValue.ofFieldValues itemArguments }
    [.leaf { name := "id" }]]

/-- The query that is read from `itemText`. -/
def itemQuery : Query where
  text := itemText
  operations := [⟨none, .query, [], itemSelections⟩]
  fragments := []

/-- The field of `itemQuery` with arguments. -/
def itemField : FieldPlan :=
  .nested ⟨"item", "item", false, ArgumentValue.ofFieldValues itemArguments, none, none,
      some "Query", [], []⟩ 1
    [.leaf ⟨"id", "id", false, [], some [], some "id", none, [], []⟩]

/-- The plan of `itemQuery`. -/
def itemPlan : QueryPlan where
  kind := .query
  operationName := none
  rootType := "Query"
  variableDefaults := []
  selection := ⟨0, [itemField]⟩

/-- Variables of which one has no value. -/
def itemVariables : Object :=
  [("n", .ofNat 7)]

theorem boundArguments_as_written_itemField :
    Query.ofText itemText "client" = .ok itemQuery ∧ itemPlan.MadeFrom itemQuery ∧
      itemPlan.Has itemField ∧
      itemField.field.boundArguments itemVariables
        = [("ids", .array [.ofNat 7, .ofNat 1, .null]), ("filter", .object [("max", .ofNat 7)])] ∧
      ∃ document arguments, Document.ofText? itemText = some document ∧
        ("item", arguments) ∈ document.fields ∧
        itemField.field.storageNameFor itemVariables
          = storageName "item" (Document.Value.evaluateArguments itemVariables arguments) := by
  have hquery : Query.ofText itemText "client" = .ok itemQuery := by
    rw [Query.ofText, ofText_itemText]
    rfl
  have hplan : itemPlan.MadeFrom itemQuery :=
    .ofOperation (show itemQuery.plan none = .ok itemPlan from rfl)
  have hfield : itemPlan.Has itemField := QueryPlan.has_root List.mem_cons_self
  obtain ⟨document, arguments, hdocument, hwritten, -, -, hvalues⟩ :=
    boundArguments_as_written.2.2 itemText "client" itemQuery itemPlan itemField hquery hplan hfield
  exact ⟨hquery, hplan, hfield, rfl, document, arguments, hdocument, hwritten,
    (hvalues itemVariables).2.2⟩

end GraphCache
