import GraphCache.Plan.Basic

/-!
# The plan cache

Plans are kept under one text, in which the name of the operation follows the query. When the cache
is full, the plan that has not been used for the longest time gives way.

## Main definitions

* `PlanKey.ofQuery`: what a plan is kept under.
* `PlanCache.find?`: the plan under a key, and the cache after this use of it.
* `PlanCache.add`: keeps a new plan.

## Main results

* `PlanCache.length_add_le`: no more plans are kept than the limit allows.
-/

namespace GraphCache

/-- What a plan is kept under. -/
structure PlanKey where
  /-- The query and what follows it. -/
  text : String
  deriving DecidableEq

/-- The key of a query and the name of its operation: the character `U+0001` and the name follow the
query, or the character `U+0000` when no operation is named. -/
def PlanKey.ofQuery (query : String) (operationName : Option String) : PlanKey :=
  match operationName with
  | some name => ⟨query ++ "\x01" ++ name⟩
  | none => ⟨query ++ "\x00"⟩

/-- A plan as it was built; two plans with one serial number are the same one. -/
structure BuiltPlan where
  /-- The number of plans built before. -/
  serial : Nat
  /-- The plan. -/
  plan : QueryPlan

/-- Plans that were built before. -/
structure PlanCache where
  /-- The number of plans that are kept. -/
  limit : Nat
  /-- The plans, the one used last first. -/
  entries : List (PlanKey × BuiltPlan) := []

namespace PlanCache

/-- The plan under a key, and the cache after this use of it. -/
def find? (cache : PlanCache) (key : PlanKey) : Option (BuiltPlan × PlanCache) :=
  (cache.entries.find? (·.1 == key)).map fun entry =>
    (entry.2, { cache with entries := entry :: cache.entries.filter (·.1 != key) })

/-- Keeps a new plan; if there is no room for it, the plan that was not used for the longest time
gives way. -/
def add (cache : PlanCache) (key : PlanKey) (plan : BuiltPlan) : PlanCache :=
  { cache with entries := ((key, plan) :: cache.entries.filter (·.1 != key)).take cache.limit }

/-- The number of plans in the cache. -/
def size (cache : PlanCache) : Nat :=
  cache.entries.length

/-- No more plans are kept than the limit allows. -/
theorem length_add_le (cache : PlanCache) (key : PlanKey) (plan : BuiltPlan) :
    (cache.add key plan).size ≤ cache.limit := by
  simp only [size, add, List.length_take]
  omega

end PlanCache

end GraphCache
