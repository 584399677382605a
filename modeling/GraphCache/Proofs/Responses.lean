import GraphCache.Proofs.Agreement

/-!
# Responses

When missing entities become `null` and the results of resolvers are determined, the response to a
plan does not show which fields were deferred, in which order they finished, which entities were
reused and which fields were replaced by later ones with the same key.

## Main results

* `Executor.executeIn_eq_response`: the response is that of direct evaluation.
* `Executor.execute_eq_prompt`: it does not matter which resolvers answer at once.
* `Executor.execute_eq_expected`: replaced fields leave no trace.
-/

namespace GraphCache

variable {World : Type}

namespace Executor

variable {executor : Executor World} {results : ResolverResults}

/-- The first pass leads to the evaluated root. -/
theorem start_evaluates (hplan : executor.plan.Planned)
    (hpolicy : executor.missingEntities = .nullify)
    (hgives : executor.registry.Gives executor.scope results) (world : World) (root : Root) :
    executor.execution.Evaluates results executor.plan world (executor.start root)
      ((executor.evaluator results).root executor.plan root) := by
  have hroot := executor.plan.selection.self_mem_selections
  have hexpand : executor.execution.EvaluatesObjects results executor.plan world
      (executor.execution.completeObject executor.plan.selection.fields)
      ((executor.evaluator results).fields executor.plan.selection.fields 0) :=
    Execution.completeObject_evaluates hpolicy hplan hgives hroot
  unfold start Evaluator.root
  cases root with
  | entity key =>
    have hstore : (executor.evaluator results).store = executor.store := rfl
    dsimp only
    rw [hstore]
    cases Dict.get? executor.store key with
    | some record => exact hexpand.object record .record _
    | none =>
      dsimp only
      split
      · exact hexpand.object [] .record _
      · exact Execution.missingEntity_evaluates hpolicy key
  | value payload =>
    exact Execution.completeValue_evaluates hpolicy hplan hroot
      (Execution.completeObject_movesAlong _) hexpand .payload _ payload

/-- In whatever order deferred fields finish, the response is that of direct evaluation. -/
theorem executeIn_eq_response (hplan : executor.plan.Planned)
    (hpolicy : executor.missingEntities = .nullify)
    (hgives : executor.registry.Gives executor.scope results)
    (hvalid : executor.registry.validate executor.plan = .ok ()) (order : FinishingOrder)
    (root : Root) (world : World) :
    (executor.executeIn order root world).1
      = .ok ((executor.evaluator results).response executor.plan root) := by
  obtain ⟨⟨data, work⟩, state, hstart, hsound, hleads, hdue⟩ :=
    start_evaluates hplan hpolicy hgives world root { world } .nil
  have hunderway : executor.execution.Underway results executor.plan world
      ((executor.evaluator results).root executor.plan root) work.deferred ⟨data, work.faults⟩
      state := ⟨hleads, hdue, hsound⟩
  obtain ⟨finished, state', hdrive, hdata, hfaults⟩ :=
    hunderway.finish hpolicy hplan hgives order
  have hinOrder : Fault.inOrder finished.faults
      = ((executor.evaluator results).root executor.plan root).2 :=
    Fault.inOrder_eq_of_perm (Evaluator.root_sorted _ _ _) hfaults
  simp only [executeIn, hvalid, hstart, hdrive]
  rw [Except.map, respond, hinOrder, hdata]
  rfl

/-- An execution that resumes the tasks of deferred fields in turn gives the same response. -/
theorem execute_eq_response (hplan : executor.plan.Planned)
    (hpolicy : executor.missingEntities = .nullify)
    (hgives : executor.registry.Gives executor.scope results)
    (hvalid : executor.registry.validate executor.plan = .ok ()) (root : Root) (world : World) :
    (executor.execute root world).1
      = .ok ((executor.evaluator results).response executor.plan root) := by
  obtain ⟨order, horder⟩ := executor.exists_order root world
  rw [← horder]
  exact executeIn_eq_response hplan hpolicy hgives hvalid order root world

/-- Asynchrony is invisible in the response: whichever resolvers answer with a task, and in whatever
order the tasks finish, the response is the one that is given when all of them answer at once. -/
theorem execute_eq_prompt (hplan : executor.plan.Planned)
    (hvalid : executor.registry.validate executor.plan = .ok ())
    (hpolicy : executor.missingEntities = .nullify)
    (hgives : executor.registry.Gives executor.scope results) (order : FinishingOrder)
    (root : Root) (world promptWorld : World) :
    ∃ response, ((executor.prompt results).execute root promptWorld).1 = .ok response ∧
      (executor.executeIn order root world).1 = .ok response ∧
      (executor.execute root world).1 = .ok response := by
  have hpromptPlan : (executor.prompt results).plan.Planned := hplan
  have hpromptValid : (executor.prompt results).registry.validate executor.plan = .ok () :=
    (Registry.validate_prompt _ _ _).trans hvalid
  have hprompt := execute_eq_response hpromptPlan hpolicy
    (executor.registry.prompt_gives results executor.scope) hpromptValid root promptWorld
  rw [evaluator_prompt] at hprompt
  exact ⟨_, hprompt, executeIn_eq_response hplan hpolicy hgives hvalid order root world,
    execute_eq_response hplan hpolicy hgives hvalid root world⟩

section Sample

/-- Selects a price under the key of a cart, then the delivery, and then the cart with its total. -/
def cartPlan : QueryPlan where
  kind := .query
  operationName := none
  rootType := "Query"
  variableDefaults := []
  selection := ⟨0,
    [.leaf ⟨"price", "cart", true, [], some [], some "price", some "Query", [], []⟩,
      .leaf ⟨"delivery", "delivery", true, [], some [], some "delivery", some "Query", [], []⟩,
      .nested ⟨"cart", "cart", true, [], some [], some "cart", some "Query", [], []⟩ 1
        [.leaf ⟨"total", "total", true, [], some [], some "total", none, [], []⟩]]⟩

/-- Only the cart itself can be found. -/
def cartResults : ResolverResults := fun _ field _ _ =>
  if field = "cart" then .ok (.object [(typenameField, .string "Cart")])
  else .error ("no " ++ field)

/-- Executes the plan with resolvers that leave everything to tasks. -/
def cartExecutor : Executor Nat where
  plan := cartPlan
  registry := [("Query", "price"), ("Query", "delivery"), ("Query", "cart"), ("Cart", "total")].map
    fun (typeName, field) => ⟨typeName, field, countingTask (cartResults typeName field [] [])⟩
  store := []

theorem cartPlan_planned : cartPlan.Planned :=
  .ofSelections (show planSelections
    [.leaf { name := "price", aliasName := some "cart", isLocal := true },
      .leaf { name := "delivery", isLocal := true },
      .nested { name := "cart", isLocal := true } [.leaf { name := "total", isLocal := true }]]
    [] "Query" = .ok cartPlan by rfl)

theorem cartExecutor_gives :
    cartExecutor.registry.Gives cartExecutor.scope cartResults := by
  refine Registry.gives_of_forall_mem fun entry hentry parent arguments world ↦ ?_
  obtain ⟨names, _, rfl⟩ := List.mem_map.1 hentry
  exact fun _ ↦ rfl

/-- The delivery and the cart wait at the same time; in the given order the cart finishes first, its
total next and the delivery last. -/
theorem cartExecutor_execute_eq_prompt :
    ∃ response, ((cartExecutor.prompt cartResults).execute .query 0).1 = .ok response ∧
      (cartExecutor.executeIn (fun _ => 1) .query 0).1 = .ok response ∧
      (cartExecutor.execute .query 0).1 = .ok response :=
  execute_eq_prompt cartPlan_planned rfl rfl cartExecutor_gives (fun _ ↦ 1) .query 0 0

end Sample

/-- The response of direct evaluation, unless the plan needs a resolver that does not exist. -/
def expected (executor : Executor World) (results : ResolverResults) (root : Root) :
    Except ExecutionError Response :=
  match executor.registry.validate executor.plan with
  | .ok () => .ok ((executor.evaluator results).response executor.plan root)
  | .error error => .error (.planning error)

/-- A replaced field leaves no trace: the response is that of direct evaluation, which evaluates of
several fields with one response key only the last one that counts, and puts its value at the place
of the first one. -/
theorem execute_eq_expected (hplan : executor.plan.Planned)
    (hpolicy : executor.missingEntities = .nullify)
    (hgives : executor.registry.Gives executor.scope results) (order : FinishingOrder)
    (root : Root) (world : World) :
    (executor.executeIn order root world).1 = executor.expected results root ∧
      (executor.execute root world).1 = executor.expected results root := by
  rw [expected]
  cases hvalid : executor.registry.validate executor.plan with
  | ok valid =>
    exact ⟨executeIn_eq_response hplan hpolicy hgives hvalid order root world,
      execute_eq_response hplan hpolicy hgives hvalid root world⟩
  | error error => simp only [executeIn, execute, hvalid, and_self]

theorem cartExecutor_execute_eq_expected :
    (cartExecutor.executeIn (fun _ => 1) .query 0).1 = cartExecutor.expected cartResults .query ∧
      (cartExecutor.execute .query 0).1 = cartExecutor.expected cartResults .query :=
  execute_eq_expected cartPlan_planned rfl cartExecutor_gives (fun _ ↦ 1) .query 0

/-- The price is asked for and cannot be found, but its key goes to the cart in the end. The failure
of the delivery is reported before that of the total, whichever comes first. -/
example : cartExecutor.expected cartResults .query
    = .ok ⟨some (.object [("cart", .object [("total", .null)]), ("delivery", .null)]),
        [(FieldError.resolverFailure "Query" "delivery" "no delivery").toGraphQLError
            [.key "delivery"],
          (FieldError.resolverFailure "Cart" "total" "no total").toGraphQLError
            [.key "cart", .key "total"]]⟩ := by rfl

end Executor

end GraphCache
