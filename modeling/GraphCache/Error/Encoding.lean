import GraphCache.Error.Causes

/-!
# Causes of errors as JSON

## Main definitions

* `PlanningError.toJson`: the name of the cause, with its details if it has any.
-/

namespace GraphCache.PlanningError

/-- The cause as JSON: its name, or an object from its name to its details. -/
def toJson : PlanningError → Json
  | parsing reason => .object [("Parsing", .string reason)]
  | noOperation => .string "NoOperation"
  | ambiguousOperation => .string "AmbiguousOperation"
  | unknownOperation name => .object [("UnknownOperation", .string name)]
  | unsupportedOperation kind => .object [("UnsupportedOperation", .string kind)]
  | unknownFragment name => .object [("UnknownFragment", .string name)]
  | recursiveFragment name => .object [("RecursiveFragment", .string name)]
  | recursionLimitExceeded limit => .object [("RecursionLimitExceeded", Json.ofNat limit)]
  | unresolvedLocalField typeName field =>
    .object [("UnresolvedLocalField",
      .object [("type_name", .string typeName), ("field", .string field)])]

end GraphCache.PlanningError
