import GraphCache.Proofs.BoundArguments
import GraphCache.Proofs.StorageNames

/-!
# Integer arguments

An integer in an argument may be written in the query, or come from a variable. As long as it fits a
signed word, this makes no difference, however deep in lists and objects it stands; and fields with
different integers in one place are kept under different names. A variable may also hold integers up
to `2 ^ 64 - 1`, and keeps them, but written ones above `2 ^ 63 - 1` are read as floating-point
numbers, and then different integers may be kept under one name.

## Main definitions

* `Document.Nesting`: a place inside a written value.
* `Document.Nesting.Counts`: no later field overwrites the place.
* `PlannedField.IsWrittenAs`: the planned fields with a name and written arguments.

## Main results

* `Number.integer_chars_inj`: the text of an integer tells its value.
* `Document.Nesting.eqUpToOrder_of_fill`: equal values have equal values in one place.
* `integer_arguments_keep_value`: integers that fit a signed word keep their value.
* `integer_arguments_lose_value`: larger ones do not.
-/

namespace GraphCache

/-! ### The texts of integers -/

theorem Number.integer_chars_inj {m n : Int} {hm : -0x8000000000000000 ≤ m}
    {hm' : m < 0x10000000000000000} {hn : -0x8000000000000000 ≤ n}
    {hn' : n < 0x10000000000000000}
    (h : (Number.integer m hm hm').chars = (Number.integer n hn hn').chars) : m = n := by
  have hdigits {k l : Nat} (h : Nat.toDigits 10 k = Nat.toDigits 10 l) : k = l := by
    rw [← Nat.ofDigitChars_ten_toDigits (n := k), h, Nat.ofDigitChars_ten_toDigits]
  have hsign {k l : Nat} (h : '-' :: Nat.toDigits 10 k = Nat.toDigits 10 l) : False := by
    have hmem : '-' ∈ Nat.toDigits 10 l := h ▸ List.mem_cons_self
    exact absurd (Nat.isDigit_of_mem_toDigits (by decide) (by decide) hmem) (by decide)
  rw [chars, chars] at h
  by_cases hneg : m < 0
  · by_cases hneg' : n < 0
    · rw [if_pos hneg, if_pos hneg'] at h
      have habs := hdigits (List.append_cancel_left h)
      omega
    · rw [if_pos hneg, if_neg hneg'] at h
      exact (hsign h).elim
  · by_cases hneg' : n < 0
    · rw [if_neg hneg, if_pos hneg'] at h
      exact (hsign h.symm).elim
    · rw [if_neg hneg, if_neg hneg'] at h
      have habs := hdigits h
      omega

/-! ### Places in written values -/

namespace Document

/-- A place inside a written value: where the value itself stands, or inside an item of a list or a
field of an object. -/
inductive Nesting where
  | here
  | item (before : List Value) (inner : Nesting) (after : List Value)
  | field (before : List (String × Value)) (name : String) (inner : Nesting)
      (after : List (String × Value))

namespace Nesting

/-- The value with a given one in the place. -/
def fill : Nesting → Value → Value
  | here, value => value
  | item before inner after, value => .list (before ++ inner.fill value :: after)
  | field before name inner after, value => .object (before ++ (name, inner.fill value) :: after)

/-- No later field overwrites the place. -/
def Counts : Nesting → Prop
  | here => True
  | item _ inner _ => inner.Counts
  | field _ name inner after => name ∉ after.map Prod.fst ∧ inner.Counts

end Nesting

end Document

/-! ### Evaluation at a place -/

namespace Document.Value

theorem evaluateItems_append (vars : Object) (values others : List Value) :
    evaluateItems vars (values ++ others)
      = evaluateItems vars values ++ evaluateItems vars others := by
  induction values with
  | nil => rfl
  | cons value values ih => rw [List.cons_append, evaluateItems, evaluateItems, ih,
      List.cons_append]

theorem length_evaluateItems (vars : Object) (values : List Value) :
    (evaluateItems vars values).length = values.length := by
  induction values with
  | nil => rfl
  | cons value values ih => rw [evaluateItems, List.length_cons, List.length_cons, ih]

theorem evaluateFields_eq_filterMap (vars : Object) (fields : List (String × Value)) :
    evaluateFields vars fields
      = fields.filterMap fun field ↦ (evaluate? vars field.2).map (field.1, ·) := by
  induction fields with
  | nil => rfl
  | cons field fields ih =>
    obtain ⟨name, value⟩ := field
    rw [evaluateFields, List.filterMap_cons, ih]
    cases evaluate? vars value <;> rfl

theorem evaluateFields_append (vars : Object) (fields others : List (String × Value)) :
    evaluateFields vars (fields ++ others)
      = evaluateFields vars fields ++ evaluateFields vars others := by
  simp only [evaluateFields_eq_filterMap, List.filterMap_append]

theorem keys_evaluateFields_subset (vars : Object) (fields : List (String × Value)) :
    Dict.keys (evaluateFields vars fields) ⊆ fields.map Prod.fst := by
  intro name hname
  rw [evaluateFields_eq_filterMap] at hname
  obtain ⟨entry, hentry, rfl⟩ := List.mem_map.1 hname
  obtain ⟨field, hfield, hvalue⟩ := List.mem_filterMap.1 hentry
  obtain ⟨json, -, rfl⟩ := Option.map_eq_some_iff.1 hvalue
  exact List.mem_map_of_mem hfield

/-- Of the fields with one name that have a value, the last one counts. -/
theorem get?_evaluateArguments {vars : Object} {before after : List (String × Value)}
    {name : String} {value : Value} {json : Json} (hvalue : value.evaluate? vars = some json)
    (hlast : name ∉ after.map Prod.fst) :
    Dict.get? (evaluateArguments vars (before ++ (name, value) :: after)) name = some json := by
  have hafter : Dict.get? (Dict.ofPairs (evaluateFields vars after)) name = none := by
    rw [← Option.not_isSome_iff_eq_none, Dict.isSome_get?_ofPairs]
    exact fun hmem ↦ hlast (keys_evaluateFields_subset vars after hmem)
  rw [evaluateArguments, evaluateFields_append, evaluateFields, hvalue, Dict.ofPairs,
    Dict.merge_append, Dict.merge_cons, Dict.get?_merge_eq_or, hafter, Option.none_or,
    Dict.get?_insert_self]

mutual

/-- Values repeat no key if those of the variables do not. -/
theorem wellFormed_evaluate? {vars : Object} (hvars : (Json.object vars).WellFormed)
    (value : Value) {json : Json} (h : value.evaluate? vars = some json) : json.WellFormed := by
  cases value with
  | var name => exact hvars.of_get? h
  | list items =>
    cases h
    exact (Json.wellFormedItems_iff _).2 (wellFormed_evaluateItems hvars items)
  | object fields =>
    cases h
    exact Json.wellFormed_ofPairs (wellFormed_evaluateFields hvars fields)
  | int value =>
    cases h
    exact ArgumentValue.wellFormed_scalar (.int value)
  | float literal =>
    cases h
    exact ArgumentValue.wellFormed_scalar (.float literal)
  | _ =>
    cases h
    trivial

theorem wellFormed_evaluateItems {vars : Object} (hvars : (Json.object vars).WellFormed)
    (items : List Value) : ∀ json ∈ evaluateItems vars items, json.WellFormed := by
  cases items with
  | nil => exact List.forall_mem_nil _
  | cons item items =>
    refine List.forall_mem_cons.2 ⟨?_, wellFormed_evaluateItems hvars items⟩
    cases hitem : evaluate? vars item with
    | none => trivial
    | some json => exact wellFormed_evaluate? hvars item hitem

theorem wellFormed_evaluateFields {vars : Object} (hvars : (Json.object vars).WellFormed)
    (fields : List (String × Value)) :
    ∀ entry ∈ evaluateFields vars fields, entry.2.WellFormed := by
  cases fields with
  | nil => exact List.forall_mem_nil _
  | cons field fields =>
    obtain ⟨name, value⟩ := field
    rw [evaluateFields]
    cases hvalue : evaluate? vars value with
    | none => exact wellFormed_evaluateFields hvars fields
    | some json =>
      exact List.forall_mem_cons.2
        ⟨wellFormed_evaluate? hvars value hvalue, wellFormed_evaluateFields hvars fields⟩

end

theorem wellFormed_evaluateArguments {vars : Object} (hvars : (Json.object vars).WellFormed)
    (arguments : List (String × Value)) :
    (Json.object (evaluateArguments vars arguments)).WellFormed :=
  Json.wellFormed_ofPairs (wellFormed_evaluateFields hvars arguments)

end Document.Value

theorem rel_of_forall₂_append {α β : Type} {R : α → β → Prop} {as cs : List α} {bs ds : List β}
    {a : α} {b : β} (hlength : as.length = bs.length)
    (h : List.Forall₂ R (as ++ a :: cs) (bs ++ b :: ds)) : R a b := by
  have hdrop := List.forall₂_drop as.length h
  rw [List.drop_left, hlength, List.drop_left] at hdrop
  exact (List.forall₂_cons.1 hdrop).1

namespace Document.Nesting

/-- Values that evaluate alike may be exchanged in any place. -/
theorem evaluate?_fill_congr (nesting : Nesting) {vars : Object} {a b : Value}
    (h : a.evaluate? vars = b.evaluate? vars) :
    (nesting.fill a).evaluate? vars = (nesting.fill b).evaluate? vars := by
  induction nesting with
  | here => exact h
  | item before inner after ih =>
    simp only [fill, Value.evaluate?, Value.evaluateItems_append, Value.evaluateItems, ih]
  | field before name inner after ih =>
    simp only [fill, Value.evaluate?, Value.evaluateFields_append, Value.evaluateFields, ih]

/-- A value in which a place is filled with one that has a value has one itself. -/
theorem exists_evaluate?_fill (nesting : Nesting) {vars : Object} {value : Value} {json : Json}
    (h : value.evaluate? vars = some json) :
    ∃ outer, (nesting.fill value).evaluate? vars = some outer := by
  cases nesting with
  | here => exact ⟨json, h⟩
  | item before inner after => exact ⟨_, rfl⟩
  | field before name inner after => exact ⟨_, rfl⟩

/-- If two values are equal up to the order of keys, then so are the values in one place in them. -/
theorem eqUpToOrder_of_fill (nesting : Nesting) (hcounts : nesting.Counts) {vars vars' : Object}
    {a b : Value} {x y u v : Json} (ha : a.evaluate? vars = some x)
    (hb : b.evaluate? vars' = some y) (hu : (nesting.fill a).evaluate? vars = some u)
    (hv : (nesting.fill b).evaluate? vars' = some v) (h : u.EqUpToOrder v) : x.EqUpToOrder y := by
  induction nesting generalizing u v with
  | here =>
    rw [fill, ha, Option.some.injEq] at hu
    rw [fill, hb, Option.some.injEq] at hv
    rwa [hu, hv]
  | item before inner after ih =>
    obtain ⟨u', hu'⟩ := inner.exists_evaluate?_fill ha
    obtain ⟨v', hv'⟩ := inner.exists_evaluate?_fill hb
    cases hu
    cases hv
    rw [Value.evaluateItems_append, Value.evaluateItems_append, Value.evaluateItems,
      Value.evaluateItems, hu', hv', Json.eqUpToOrder_array_iff] at h
    refine ih hcounts hu' hv' (rel_of_forall₂_append ?_ h)
    rw [Value.length_evaluateItems, Value.length_evaluateItems]
  | field before name inner after ih =>
    obtain ⟨u', hu'⟩ := inner.exists_evaluate?_fill ha
    obtain ⟨v', hv'⟩ := inner.exists_evaluate?_fill hb
    obtain ⟨hlast, hinner⟩ := hcounts
    cases hu
    cases hv
    exact ih hinner hu' hv' ((Json.eqUpToOrder_object_iff.1 h).2 name u' v'
      (Value.get?_evaluateArguments hu' hlast) (Value.get?_evaluateArguments hv' hlast))

end Document.Nesting

/-! ### Integers in arguments -/

namespace Document.Value

theorem evaluate?_int {n : Int} {number : Number} (h : intNumber? n = some number)
    (vars : Object) : (Value.int n).evaluate? vars = some (.number number) := by
  have hconstant : (Value.int n).constant? = some (.number number) := by
    rw [constant?, h, Option.map_some]
  calc (Value.int n).evaluate? vars = some ((Value.int n).constant?.getD .null) := rfl
    _ = some (.number number) := by rw [hconstant, Option.getD_some]

/-- An integer that fits a signed word is read as the number that holds it. -/
theorem intNumber?_of_ofInt? {n : Int} {number : Number} (hnumber : Number.ofInt? n = some number)
    (hsigned : n < 0x8000000000000000) : intNumber? n = some number := by
  rw [Number.ofInt?] at hnumber
  split at hnumber
  · next hrange =>
    cases hnumber
    rw [intNumber?, dif_pos ⟨hrange.1, hsigned⟩]
  · cases hnumber

end Document.Value

/-- The numbers that hold different integers have different texts. -/
theorem Number.eq_of_ofInt?_chars {m n : Int} {number number' : Number}
    (hm : ofInt? m = some number) (hn : ofInt? n = some number')
    (h : number.chars = number'.chars) : m = n := by
  rw [ofInt?] at hm hn
  split at hm
  · split at hn
    · cases hm
      cases hn
      exact integer_chars_inj h
    · cases hn
  · cases hm

/-- Integers keep their value. A field in which an integer that fits a signed word is written, at
any depth in lists and objects, has the arguments and the storage name of the field in which a
variable with this integer is written instead; and if the place counts, then fields with different
such integers there have different storage names. -/
theorem integer_arguments_keep_value {n : Int} {number : Number}
    (hnumber : Number.ofInt? n = some number) (hsigned : n < 0x8000000000000000)
    {name argument : String} {before after : List (String × Document.Value)}
    {nesting : Document.Nesting} {vars : Object} {x : String}
    (hx : Dict.get? vars x = some (.number number)) {literal variableField : PlannedField}
    (hliteral : literal.IsWrittenAs name (before ++ (argument, nesting.fill (.int n)) :: after))
    (hvariable : variableField.IsWrittenAs name
      (before ++ (argument, nesting.fill (.var x)) :: after)) :
    literal.boundArguments vars = variableField.boundArguments vars ∧
      literal.storageNameFor vars = variableField.storageNameFor vars ∧
      ∀ (m : Int) (number' : Number) (other : PlannedField) (vars' : Object),
        Number.ofInt? m = some number' → m < 0x8000000000000000 →
        other.IsWrittenAs name (before ++ (argument, nesting.fill (.int m)) :: after) →
        nesting.Counts → argument ∉ after.map Prod.fst → (Json.object vars).WellFormed →
        (Json.object vars').WellFormed →
        literal.storageNameFor vars = other.storageNameFor vars' → n = m := by
  have hvalue : (Document.Value.int n).evaluate? vars = some (.number number) :=
    Document.Value.evaluate?_int (Document.Value.intNumber?_of_ofInt? hnumber hsigned) vars
  have hsame : Document.Value.evaluateArguments vars
        (before ++ (argument, nesting.fill (.int n)) :: after)
      = Document.Value.evaluateArguments vars
        (before ++ (argument, nesting.fill (.var x)) :: after) := by
    have hvar : (Document.Value.var x).evaluate? vars = some (.number number) := by
      rw [Document.Value.evaluate?, hx]
    have hfill := nesting.evaluate?_fill_congr (hvalue.trans hvar.symm)
    simp only [Document.Value.evaluateArguments, Document.Value.evaluateFields_append,
      Document.Value.evaluateFields, hfill]
  refine ⟨?_, ?_, ?_⟩
  · rw [hliteral.boundArguments, hvariable.boundArguments, hsame]
  · rw [hliteral.storageNameFor, hvariable.storageNameFor, hsame]
  · intro m number' other vars' hnumber' hsigned' hother hcounts hlast hvars hvars' hnames
    have hvalue' : (Document.Value.int m).evaluate? vars' = some (.number number') :=
      Document.Value.evaluate?_int (Document.Value.intNumber?_of_ofInt? hnumber' hsigned') vars'
    rw [hliteral.storageNameFor, hother.storageNameFor, storageName_arguments_eq_iff name
      (Document.Value.wellFormed_evaluateArguments hvars _)
      (Document.Value.wellFormed_evaluateArguments hvars' _)] at hnames
    obtain ⟨u, hu⟩ := nesting.exists_evaluate?_fill hvalue
    obtain ⟨v, hv⟩ := nesting.exists_evaluate?_fill hvalue'
    -- equal storage names mean that the argument has values that are equal up to the order of keys
    have hargument : u.EqUpToOrder v := (Json.eqUpToOrder_object_iff.1 hnames).2 argument u v
      (Document.Value.get?_evaluateArguments hu hlast)
      (Document.Value.get?_evaluateArguments hv hlast)
    cases nesting.eqUpToOrder_of_fill hcounts hvalue hvalue' hu hv hargument with
    | number hchars => exact Number.eq_of_ofInt?_chars hnumber hnumber' hchars

/-! ### Sample integers -/

/-- A place in a list in an object. -/
def idsNesting : Document.Nesting :=
  .field [("first", .int 1)] "ids" (.item [.var "x"] .here [.null]) [("last", .int 2)]

/-- A field whose filter has a given value in this place. -/
def filteredSelected (value : Document.Value) : SelectedField where
  name := "items"
  arguments := ArgumentValue.ofFieldValues [("filter", idsNesting.fill value)]

/-- What is collected of such a field. -/
def filteredItems (value : Document.Value) : CollectedField where
  field := filteredSelected value
  isLeaf := true
  selectionSets := []
  scope := {}

theorem filteredItems_isWrittenAs (value : Document.Value) :
    (filteredItems value).planned.IsWrittenAs "items"
      ([] ++ ("filter", idsNesting.fill value) :: []) :=
  ⟨⟨_, rfl⟩, rfl, rfl⟩

/-- The largest integer that fits a signed word. -/
def lastSigned : Number :=
  .integer 9223372036854775807 (by decide) (by decide)

/-- A variable with this integer. -/
def lastVariables : Object :=
  [("x", .number lastSigned)]

theorem integer_arguments_keep_value_lastSigned :
    Number.ofInt? 9223372036854775807 = some lastSigned ∧
      Dict.get? lastVariables "x" = some (.number lastSigned) ∧
      (filteredItems (.int 9223372036854775807)).planned.boundArguments lastVariables
        = (filteredItems (.var "x")).planned.boundArguments lastVariables ∧
      (filteredItems (.int 9223372036854775807)).planned.storageNameFor lastVariables
        = (filteredItems (.var "x")).planned.storageNameFor lastVariables ∧
      (filteredItems (.int 9223372036854775807)).planned.storageNameFor lastVariables
        ≠ (filteredItems (.int 9223372036854775806)).planned.storageNameFor lastVariables := by
  have hnumber : Number.ofInt? 9223372036854775807 = some lastSigned := rfl
  have hx : Dict.get? lastVariables "x" = some (.number lastSigned) := rfl
  have hvars : (Json.object lastVariables).WellFormed := ⟨by decide, trivial, trivial⟩
  have hcounts : idsNesting.Counts := ⟨by decide, trivial⟩
  obtain ⟨hbound, hname, hother⟩ := integer_arguments_keep_value hnumber (by decide) hx
    (filteredItems_isWrittenAs (.int 9223372036854775807)) (filteredItems_isWrittenAs (.var "x"))
  refine ⟨hnumber, hx, hbound, hname, fun hnames ↦ ?_⟩
  have heq : (9223372036854775807 : Int) = 9223372036854775806 :=
    hother 9223372036854775806 _ _ lastVariables rfl (by decide)
      (filteredItems_isWrittenAs (.int 9223372036854775806)) hcounts (by decide) hvars hvars hnames
  exact absurd heq (by decide)

/-- A query with two integers that do not fit a signed word. -/
def largeText : String :=
  "{ a: x(n: 9223372036854775808) b: x(n: 9223372036854775809) }"

/-- The tokens of `largeText`. -/
def largeTokens : List Token.Placed :=
  [⟨.openBrace, false⟩, ⟨.name "a", false⟩, ⟨.colon, false⟩, ⟨.name "x", false⟩,
    ⟨.openParen, false⟩, ⟨.name "n", false⟩, ⟨.colon, false⟩, ⟨.int 9223372036854775808, false⟩,
    ⟨.closeParen, false⟩, ⟨.name "b", false⟩, ⟨.colon, false⟩, ⟨.name "x", false⟩,
    ⟨.openParen, false⟩, ⟨.name "n", false⟩, ⟨.colon, false⟩, ⟨.int 9223372036854775809, false⟩,
    ⟨.closeParen, false⟩, ⟨.closeBrace, false⟩]

theorem ofText_largeText : Document.ofText? largeText =
    some [.operation ⟨none, .query, [],
      [.field "x" (some "a") [("n", .int 9223372036854775808)] [] [],
        .field "x" (some "b") [("n", .int 9223372036854775809)] [] []]⟩] := by
  have htokens : Token.readAll? largeText = some largeTokens := by decide +kernel
  rw [Document.ofText?, htokens]
  cbv

/-- A field with an argument, under another key in the response. -/
def countSelected (aliasName : String) (value : Document.Value) : SelectedField where
  name := "x"
  aliasName := some aliasName
  arguments := ArgumentValue.ofFieldValues [("n", value)]

/-- What is collected of such a field. -/
def countCollected (aliasName : String) (value : Document.Value) : CollectedField where
  field := countSelected aliasName value
  isLeaf := true
  selectionSets := []
  scope := { parentType := some "Query" }

/-- The query that is read from `largeText`. -/
def largeQuery : Query where
  text := largeText
  operations := [⟨none, .query, [], [.leaf (countSelected "a" (.int 9223372036854775808)),
    .leaf (countSelected "b" (.int 9223372036854775809))]⟩]
  fragments := []

/-- The plan of `largeQuery`. -/
def largePlan : QueryPlan where
  kind := .query
  operationName := none
  rootType := "Query"
  variableDefaults := []
  selection := ⟨0, [.leaf (countCollected "a" (.int 9223372036854775808)).planned,
    .leaf (countCollected "b" (.int 9223372036854775809)).planned]⟩

/-- The integer `2 ^ 63`, which a variable may hold. -/
def largeInteger : Number :=
  .integer 9223372036854775808 (by decide) (by decide)

/-- The floating-point number `2 ^ 63`. -/
def largeFloat : Number :=
  .float ⟨false, 4890909195324358656, by decide⟩

/-- A variable with this integer. -/
def largeVariables : Object :=
  [("n", .number largeInteger)]

theorem countCollected_isWrittenAs (aliasName : String) (value : Document.Value) :
    (countCollected aliasName value).planned.IsWrittenAs "x" [("n", value)] :=
  ⟨⟨_, rfl⟩, rfl, rfl⟩

/-- The arguments of a field whose only argument has a value. -/
theorem evaluateArguments_count {vars : Object} {value : Document.Value} {json : Json}
    (h : value.evaluate? vars = some json) :
    Document.Value.evaluateArguments vars [("n", value)] = [("n", json)] := by
  rw [Document.Value.evaluateArguments, Document.Value.evaluateFields, h]
  rfl

/-- Written integers that do not fit a signed word are not those that a variable holds, and
different ones lead to one storage name. -/
theorem integer_arguments_lose_value :
    Query.ofText largeText "client" = .ok largeQuery ∧ largeQuery.plan none = .ok largePlan ∧
      (countCollected "a" (.int 9223372036854775808)).planned.storageNameFor []
        = (countCollected "b" (.int 9223372036854775809)).planned.storageNameFor [] ∧
      Number.ofInt? 9223372036854775808 = some largeInteger ∧
      Dict.get? largeVariables "n" = some (.number largeInteger) ∧
      (countCollected "a" (.int 9223372036854775808)).planned.boundArguments largeVariables
        ≠ (countCollected "a" (.var "n")).planned.boundArguments largeVariables ∧
      (countCollected "a" (.int 9223372036854775808)).planned.storageNameFor largeVariables
        ≠ (countCollected "a" (.var "n")).planned.storageNameFor largeVariables := by
  have hquery : Query.ofText largeText "client" = .ok largeQuery := by
    rw [Query.ofText, ofText_largeText]
    rfl
  have hfloat (vars : Object) :
      (Document.Value.int 9223372036854775808).evaluate? vars = some (.number largeFloat) :=
    Document.Value.evaluate?_int (by decide +kernel) vars
  have hnext (vars : Object) :
      (Document.Value.int 9223372036854775809).evaluate? vars = some (.number largeFloat) :=
    Document.Value.evaluate?_int (by decide +kernel) vars
  have hvar : (Document.Value.var "n").evaluate? largeVariables = some (.number largeInteger) := rfl
  have hchars : largeFloat.chars ≠ largeInteger.chars := by decide +kernel
  have hone (number : Number) : (Json.object [("n", .number number)]).WellFormed :=
    ⟨List.nodup_singleton "n", trivial, trivial⟩
  refine ⟨hquery, rfl, ?_, rfl, rfl, fun hbound ↦ ?_, fun hnames ↦ ?_⟩
  · rw [(countCollected_isWrittenAs ..).storageNameFor,
      (countCollected_isWrittenAs ..).storageNameFor,
      evaluateArguments_count (hfloat []), evaluateArguments_count (hnext [])]
  · rw [(countCollected_isWrittenAs ..).boundArguments,
      (countCollected_isWrittenAs ..).boundArguments,
      evaluateArguments_count (hfloat _), evaluateArguments_count hvar] at hbound
    have hnumber : largeFloat = largeInteger := by simpa using hbound
    exact hchars (congrArg Number.chars hnumber)
  · rw [(countCollected_isWrittenAs ..).storageNameFor,
      (countCollected_isWrittenAs ..).storageNameFor,
      evaluateArguments_count (hfloat _), evaluateArguments_count hvar,
      storageName_arguments_eq_iff "x" (hone largeFloat) (hone largeInteger)] at hnames
    cases (Json.eqUpToOrder_object_iff.1 hnames).2 "n" _ _ rfl rfl with
    | number hequal => exact hchars hequal

end GraphCache
