import GraphCache.Json.Path

/-!
# GraphQL errors

An error as it is listed in a response: a message, the path of the field it concerns, and a
dictionary of extensions whose `code` classifies the error.

## Main definitions

* `GraphQLError`: the error.
* `GraphQLError.withCode`: adds a code unless one is given already.
* `GraphQLError.toJson`: the form in a response.
-/

namespace GraphCache

/-- An error as it is listed in a response. -/
structure GraphQLError where
  /-- What went wrong, for a human reader. -/
  message : String
  /-- The path of the field in the response data. -/
  path : Option Path := none
  /-- Further details. -/
  extensions : Object := []

namespace GraphQLError

/-- The key of the error code among the extensions. -/
def codeKey : String :=
  "code"

/-- Adds a code as the last extension, unless the extensions have one. -/
def withCode (error : GraphQLError) (code : String) : GraphQLError :=
  if Dict.contains error.extensions codeKey then error
  else { error with extensions := Dict.insert error.extensions codeKey (.string code) }

/-- The error code, if it is a string. -/
def code? (error : GraphQLError) : Option String :=
  (Dict.get? error.extensions codeKey).bind Json.string?

/-- The form in a response; an absent path and empty extensions are left out. -/
def toJson (error : GraphQLError) : Json :=
  .object <|
    [("message", .string error.message)]
      ++ (error.path.map fun path => ("path", Path.toJson path)).toList
      ++ if error.extensions.isEmpty then [] else [("extensions", .object error.extensions)]

end GraphQLError

end GraphCache
