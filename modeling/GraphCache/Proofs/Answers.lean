import GraphCache.Proofs.Evaluation

/-!
# Resolvers with determined results

Most guarantees about an execution need that the result of a resolver is determined by the type and
the name of the field, the object that holds it and the values of its arguments. The resolver may
still answer at once or with a task as it likes, and it may act on the world.

## Main definitions

* `Resolution.Gives`: the result that an answer comes to.
* `Registry.Gives`: resolvers whose results are determined.
* `Registry.Answers`: resolvers that are determined also in whether they answer at once.
* `Registry.prompt`: the resolvers with the same results that always answer at once.
* `Executor.evaluator`: the direct evaluation to which an execution is compared.
-/

namespace GraphCache

variable {World : Type}

/-- The task gives a result whatever the world is when it is finished. -/
def Task.Gives (task : Task World) (result : ResolverResult) : Prop :=
  ∀ world, (task.finish.run world).1 = result

namespace Resolution

/-- The result that an answer comes to. -/
def Gives (result : ResolverResult) : Resolution World → Prop
  | ready available => available = result
  | pending task => task.Gives result

/-- Whether the result is available at once. -/
def isReady : Resolution World → Bool
  | ready _ => true
  | pending _ => false

/-- The same result at once, or tasks that give the same result. -/
def Alike : Resolution World → Resolution World → Prop
  | ready a, ready b => a = b
  | pending a, pending b => ∃ result, a.Gives result ∧ b.Gives result
  | _, _ => False

end Resolution

/-- A resolver that leaves its result to a task and counts its calls. -/
def countingTask (result : ResolverResult) : Resolver Nat := fun _ _ _ => do
  modify (· + 1)
  return .pending ⟨1, return result⟩

namespace Registry

/-- The resolvers give determined results: they depend on the type and the name of the field, the
object that holds it and the values of its arguments. -/
def Gives (registry : Registry World) (scope : ResolverScope) (results : ResolverResults) : Prop :=
  ∀ typeName field resolver, registry.lookup typeName field = some resolver →
    ∀ parent arguments world, ((resolver parent arguments scope).run world).1.Gives
      (results typeName field parent arguments)

/-- The resolvers give determined results, and it is determined likewise whether they do so at
once. -/
def Answers (registry : Registry World) (scope : ResolverScope)
    (atOnce : (typeName field : String) → (parent arguments : Object) → Bool)
    (results : ResolverResults) : Prop :=
  registry.Gives scope results ∧
    ∀ typeName field resolver, registry.lookup typeName field = some resolver →
      ∀ parent arguments world, ((resolver parent arguments scope).run world).1.isReady
        = atOnce typeName field parent arguments

/-- What a resolver answers in one world is like what it answers in another one. -/
theorem Answers.alike {registry : Registry World} {scope : ResolverScope}
    {atOnce : (typeName field : String) → (parent arguments : Object) → Bool}
    {results : ResolverResults} (h : registry.Answers scope atOnce results)
    {typeName field : String} {resolver : Resolver World}
    (hlookup : registry.lookup typeName field = some resolver) (parent arguments : Object)
    (world world' : World) :
    Resolution.Alike ((resolver parent arguments scope).run world).1
      ((resolver parent arguments scope).run world').1 := by
  have hgives := h.1 typeName field resolver hlookup parent arguments world
  have hgives' := h.1 typeName field resolver hlookup parent arguments world'
  have hready := h.2 typeName field resolver hlookup parent arguments world
  have hready' := h.2 typeName field resolver hlookup parent arguments world'
  rw [← hready'] at hready
  generalize ((resolver parent arguments scope).run world).1 = a at hgives hready ⊢
  generalize ((resolver parent arguments scope).run world').1 = b at hgives' hready ⊢
  cases a with
  | ready result =>
    cases b with
    | ready result' => exact Eq.trans hgives (Eq.symm hgives')
    | pending task => cases hready
  | pending task =>
    cases b with
    | ready result => cases hready
    | pending task' => exact ⟨_, hgives, hgives'⟩

/-- Resolvers that are found are registered, and it suffices that each of them gives its results. -/
theorem gives_of_forall_mem {registry : Registry World} {scope : ResolverScope}
    {results : ResolverResults}
    (h : ∀ entry ∈ registry, ∀ parent arguments world,
      ((entry.resolver parent arguments scope).run world).1.Gives
        (results entry.typeName entry.field parent arguments)) : registry.Gives scope results := by
  intro typeName field resolver hlookup parent arguments world
  obtain ⟨entry, hfound, rfl⟩ := Option.map_eq_some_iff.1 hlookup
  have hnames := List.find?_some hfound
  rw [Bool.and_eq_true, beq_iff_eq, beq_iff_eq] at hnames
  rw [← hnames.1, ← hnames.2]
  exact h entry (List.mem_of_find?_eq_some hfound) parent arguments world

/-- The resolvers for the same fields that have the given results and answer at once. -/
def prompt (registry : Registry World) (results : ResolverResults) : Registry World :=
  registry.map fun entry => { entry with
    resolver := fun parent arguments _ =>
      return .ready (results entry.typeName entry.field parent arguments) }

theorem lookup_prompt (registry : Registry World) (results : ResolverResults)
    (typeName field : String) :
    (registry.prompt results).lookup typeName field =
      (registry.lookup typeName field).map fun _ parent arguments _ =>
        return .ready (results typeName field parent arguments) := by
  induction registry with
  | nil => rfl
  | cons entry rest ih =>
    simp only [lookup, prompt, List.map_cons, List.find?_cons] at ih ⊢
    by_cases h : (entry.typeName == typeName && entry.field == field) = true
    · have hnames : entry.typeName = typeName ∧ entry.field = field := by simpa using h
      simp [hnames.1, hnames.2]
    · simp only [h]
      exact ih

theorem contains_prompt (registry : Registry World) (results : ResolverResults)
    (typeName field : String) :
    (registry.prompt results).contains typeName field = registry.contains typeName field := by
  rw [contains, contains, lookup_prompt, Option.isSome_map]

theorem servesField_prompt (registry : Registry World) (results : ResolverResults)
    (field : String) :
    (registry.prompt results).servesField field = registry.servesField field := by
  simp [servesField, prompt, List.any_map, Function.comp_def]

theorem prompt_gives (registry : Registry World) (results : ResolverResults)
    (scope : ResolverScope) : (registry.prompt results).Gives scope results := by
  intro typeName field resolver hlookup parent arguments world
  rw [lookup_prompt] at hlookup
  obtain ⟨_, _, rfl⟩ := Option.map_eq_some_iff.1 hlookup
  rfl

section Validate

variable {a b : Registry World}

theorem validateField_congr (hcontains : a.contains = b.contains)
    (hserves : a.servesField = b.servesField) (field : PlannedField) :
    a.validateField field = b.validateField field := by
  unfold validateField canServe
  rw [hcontains, hserves]

mutual

theorem validatePlan_congr (hcontains : a.contains = b.contains)
    (hserves : a.servesField = b.servesField) (plan : FieldPlan) :
    a.validatePlan plan = b.validatePlan plan := by
  cases plan with
  | leaf field => exact validateField_congr hcontains hserves field
  | nested field id fields =>
    rw [validatePlan, validatePlan, validateField_congr hcontains hserves,
      validatePlans_congr hcontains hserves fields]

/-- Whether a plan can be served depends only on the fields for which there are resolvers. -/
theorem validatePlans_congr (hcontains : a.contains = b.contains)
    (hserves : a.servesField = b.servesField) (plans : List FieldPlan) :
    a.validatePlans plans = b.validatePlans plans := by
  cases plans with
  | nil => rfl
  | cons plan plans =>
    rw [validatePlans, validatePlans, validatePlan_congr hcontains hserves plan,
      validatePlans_congr hcontains hserves plans]

end

theorem validate_prompt (registry : Registry World) (results : ResolverResults)
    (plan : QueryPlan) : (registry.prompt results).validate plan = registry.validate plan :=
  validatePlans_congr (funext fun typeName ↦ funext fun field ↦
    contains_prompt registry results typeName field)
    (funext fun field ↦ servesField_prompt registry results field) _

end Validate

end Registry

namespace Execution

variable (execution : Execution World)

/-- What resolvers can read in an execution. -/
def scope : ResolverScope :=
  ⟨execution.variableValues, execution.store⟩

/-- The direct evaluation with given results of the resolvers. -/
def evaluator (results : ResolverResults) : Evaluator where
  rootType := execution.rootType
  store := execution.store
  variableValues := execution.variableValues
  resolve? := fun typeName field =>
    (execution.registry.lookup typeName field).map fun _ => results typeName field

end Execution

namespace Executor

variable (executor : Executor World)

/-- What resolvers can read in an execution of the plan. -/
def scope : ResolverScope :=
  executor.execution.scope

/-- The direct evaluation with given results of the resolvers. -/
def evaluator (results : ResolverResults) : Evaluator :=
  executor.execution.evaluator results

/-- The same execution with resolvers that always answer at once. -/
def prompt (results : ResolverResults) : Executor World :=
  { executor with registry := executor.registry.prompt results }

theorem evaluator_prompt (results : ResolverResults) :
    (executor.prompt results).evaluator results = executor.evaluator results := by
  simp [evaluator, Execution.evaluator, execution, prompt, Registry.lookup_prompt,
    Function.comp_def]

end Executor

end GraphCache
