import GraphCache.Error.Basic

/-!
# Causes of errors

Errors of one field leave a `null` behind and are listed in the response. Planning, store and
execution errors end the operation that raised them.

## Main definitions

* `FieldError`, `PlanningError`, `StoreError`, `ExecutionError`: the causes.
* `message`, `code`: the wording and the classification of each cause.
* `toGraphQLError`: the error as it is reported.
-/

namespace GraphCache

/-- An error that concerns one field of the response. -/
inductive FieldError where
  /-- A reference leads to no record. -/
  | missingEntity (key : String)
  /-- No resolver is registered for a local field on the type of its object. -/
  | unresolvedLocalField (typeName field : String)
  /-- A resolver failed. -/
  | resolverFailure (typeName field reason : String)
  /-- A value does not have the shape that the selection requires. -/
  | shapeMismatch (expected found : String)
  /-- The object does not carry a selected field. -/
  | missingField (field : String)
  deriving DecidableEq

namespace FieldError

/-- What went wrong. -/
def message : FieldError → String
  | missingEntity key => "entity '" ++ key ++ "' is missing from the cache"
  | unresolvedLocalField typeName field =>
    "no local resolver registered for '" ++ typeName ++ "." ++ field ++ "'"
  | resolverFailure typeName field reason =>
    "local resolver for '" ++ typeName ++ "." ++ field ++ "' failed: " ++ reason
  | shapeMismatch expected found => "expected " ++ expected ++ " but found " ++ found
  | missingField field => "missing field '" ++ field ++ "'"

/-- The classification of the error. -/
def code : FieldError → String
  | missingEntity _ => "MISSING_ENTITY"
  | unresolvedLocalField _ _ => "UNRESOLVED_LOCAL_FIELD"
  | resolverFailure _ _ _ => "RESOLVER_FAILURE"
  | shapeMismatch _ _ => "SHAPE_MISMATCH"
  | missingField _ => "MISSING_FIELD"

/-- The details of the error, which become its extensions. -/
def details : FieldError → Object
  | missingEntity key => [("key", .string key)]
  | unresolvedLocalField typeName field =>
    [("type_name", .string typeName), ("field", .string field)]
  | resolverFailure typeName field reason =>
    [("type_name", .string typeName), ("field", .string field), ("reason", .string reason)]
  | shapeMismatch expected found => [("expected", .string expected), ("found", .string found)]
  | missingField field => [("field", .string field)]

/-- The error as it is listed for the field at a path. -/
def toGraphQLError (error : FieldError) (path : Path) : GraphQLError :=
  GraphQLError.withCode ⟨error.message, some path, error.details⟩ error.code

end FieldError

/-- An error found before any data is read. -/
inductive PlanningError where
  /-- The text is not a document. -/
  | parsing (reason : String)
  /-- The document has no operation. -/
  | noOperation
  /-- The document has several operations and none is named. -/
  | ambiguousOperation
  /-- No operation has the given name. -/
  | unknownOperation (name : String)
  /-- The kind of operation cannot be executed. -/
  | unsupportedOperation (kind : String)
  /-- A spread names no fragment. -/
  | unknownFragment (name : String)
  /-- A fragment is spread inside itself. -/
  | recursiveFragment (name : String)
  /-- Selections nest too deeply. -/
  | recursionLimitExceeded (limit : Nat)
  /-- No resolver can serve a local field; the type is `*` when only execution knows it. -/
  | unresolvedLocalField (typeName field : String)
  deriving DecidableEq

namespace PlanningError

/-- What went wrong. -/
def message : PlanningError → String
  | parsing reason => "parsing failed: " ++ reason
  | noOperation => "the document does not contain any operation"
  | ambiguousOperation =>
    "an operation name is required when the document contains several operations"
  | unknownOperation name => "unknown operation '" ++ name ++ "'"
  | unsupportedOperation kind => kind ++ " operations are not supported"
  | unknownFragment name => "unknown fragment '" ++ name ++ "'"
  | recursiveFragment name => "fragment '" ++ name ++ "' spreads itself"
  | recursionLimitExceeded limit =>
    "selection set nesting exceeds the recursion limit of " ++ Nat.repr limit
  | unresolvedLocalField typeName field =>
    "no local resolver registered for '" ++ typeName ++ "." ++ field ++ "'"

/-- The classification of the error. -/
def code : PlanningError → String
  | parsing _ => "GRAPHQL_PARSE_FAILED"
  | noOperation | ambiguousOperation | unknownOperation _ => "GRAPHQL_UNKNOWN_OPERATION_NAME"
  | unsupportedOperation _ => "UNSUPPORTED_OPERATION"
  | unknownFragment _ | recursiveFragment _ => "GRAPHQL_VALIDATION_FAILED"
  | recursionLimitExceeded _ => "RECURSION_LIMIT_EXCEEDED"
  | unresolvedLocalField _ _ => "UNRESOLVED_LOCAL_FIELD"

/-- The error as it is reported for a request. -/
def toGraphQLError (error : PlanningError) : GraphQLError :=
  GraphQLError.withCode ⟨error.message, none, []⟩ error.code

end PlanningError

/-- An error of an operation on the store. -/
inductive StoreError where
  /-- No record has the key. -/
  | missingEntity (key : String)
  /-- Response data cannot be written. -/
  | malformedResponse (reason : String)
  deriving DecidableEq

namespace StoreError

/-- What went wrong. -/
def message : StoreError → String
  | missingEntity key => "entity '" ++ key ++ "' is missing from the cache"
  | malformedResponse reason => "response data cannot be written to the cache: " ++ reason

/-- The classification of the error. -/
def code : StoreError → String
  | missingEntity _ => "MISSING_ENTITY"
  | malformedResponse _ => "MALFORMED_RESPONSE"

end StoreError

/-- An error that ends an execution. -/
inductive ExecutionError where
  /-- A reference to no record was followed at a path, and the policy is to stop there. -/
  | missingEntity (key : String) (path : Path)
  /-- There is no plan. -/
  | planning (error : PlanningError)
  /-- The store refused an operation. -/
  | store (error : StoreError)
  /-- The request has no query. -/
  | missingQuery
  deriving DecidableEq

namespace ExecutionError

/-- What went wrong. -/
def message : ExecutionError → String
  | missingEntity key path =>
    "entity '" ++ key ++ "' is missing from the cache at '" ++ Path.text path ++ "'"
  | planning error => "query could not be planned: " ++ error.message
  | store error => "cache access failed: " ++ error.message
  | missingQuery => "the request does not contain a query"

/-- The classification of the error. -/
def code : ExecutionError → String
  | missingEntity _ _ => "MISSING_ENTITY"
  | planning error => error.code
  | store error => error.code
  | missingQuery => "MISSING_QUERY_STRING"

/-- Where the execution stopped. -/
def path? : ExecutionError → Option Path
  | missingEntity _ path => some path
  | _ => none

/-- The error as it is reported for a request. -/
def toGraphQLError (error : ExecutionError) : GraphQLError :=
  GraphQLError.withCode ⟨error.message, error.path?, []⟩ error.code

end ExecutionError

end GraphCache
