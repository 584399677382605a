import GraphCache.Document.Basic
import GraphCache.Json.Basic

/-!
# Conditions of selections

A selection may be included or skipped under a condition that is known when the query is read, or
that is the value of a boolean variable.

## Main definitions

* `Condition`: the argument of a directive `@include` or `@skip`.
* `IncludeSkip`: the two conditions of a selection.
* `IncludeSkip.shouldSkip`: whether given variables exclude the selection.
-/

namespace GraphCache

/-- A condition: known, or the value of a variable. -/
inductive Condition where
  | yes
  | no
  | var (name : String)
  deriving DecidableEq

namespace Condition

/-- The condition in the first argument `if` of a directive. -/
def ofDirective? (directive : Document.Directive) : Option Condition :=
  match directive.arguments.find? (·.1 == "if") with
  | some (_, .boolean true) => some yes
  | some (_, .boolean false) => some no
  | some (_, .var name) => some (var name)
  | _ => none

/-- The truth value of a condition; a variable that is missing or not boolean has none. -/
def eval? (vars : Object) : Condition → Option Bool
  | yes => some true
  | no => some false
  | var name => (Dict.get? vars name).bind Json.bool?

end Condition

/-- The conditions under which a selection is included and skipped. -/
structure IncludeSkip where
  /-- The selection counts only if this holds. -/
  includeIf : Condition
  /-- The selection does not count if this holds. -/
  skipIf : Condition
  deriving DecidableEq

namespace IncludeSkip

/-- No condition: always included and never skipped. -/
def unconditional : IncludeSkip :=
  ⟨.yes, .no⟩

/-- The conditions in a list of directives: of each kind the first one that can be read. -/
def ofDirectives (directives : List Document.Directive) : IncludeSkip :=
  let first (name : String) : Option Condition :=
    directives.findSome? fun directive =>
      if directive.name = name then Condition.ofDirective? directive else none
  ⟨(first "include").getD .yes, (first "skip").getD .no⟩

/-- Whether the selection is excluded for all variables. -/
def staticallySkipped (conditions : IncludeSkip) : Bool :=
  conditions.skipIf == .yes || conditions.includeIf == .no

/-- Whether the selection is included for all variables. -/
def isUnconditional (conditions : IncludeSkip) : Bool :=
  conditions.skipIf == .no && conditions.includeIf == .yes

/-- Whether these variables exclude the selection. A condition without a truth value does not. -/
def shouldSkip (conditions : IncludeSkip) (vars : Object) : Bool :=
  (conditions.skipIf.eval? vars).getD false
    || !(conditions.includeIf.eval? vars).getD true

@[simp] theorem isUnconditional_unconditional : unconditional.isUnconditional = true := rfl

theorem isUnconditional_iff (conditions : IncludeSkip) :
    conditions.isUnconditional = true ↔ conditions = unconditional := by
  obtain ⟨includeIf, skipIf⟩ := conditions
  simp [isUnconditional, unconditional, and_comm]

end IncludeSkip

end GraphCache
