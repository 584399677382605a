import GraphCache.Config.Basic

/-!
# The schema of configuration files

## Main definitions

* `Config.schema`: the JSON schema of configuration files.
-/

namespace GraphCache.Config

/-- A described value of a type. -/
def described (description type : String) (more : List (String × Json)) : Json :=
  .object ([("description", .string description), ("type", .string type)] ++ more)

/-- A described value of a type with a default. -/
def describedWithDefault (description : String) (default : Json)
    (more : List (String × Json)) : Json :=
  .object ([("description", .string description), ("default", default)] ++ more)

/-- The JSON schema of configuration files, draft 7. -/
def schema : Json :=
  let closed : String × Json := ("additionalProperties", .bool false)
  let string : List (String × Json) := [("type", .string "string")]
  let variant (description name : String) : Json :=
    described description "string" [("enum", .array [.string name])]
  let default : Config := {}
  .object [
    ("$schema", .string "http://json-schema.org/draft-07/schema#"),
    ("title", .string "Configuration"),
    ("description", .string ("The configuration of a [\x60crate::LocalStateClient\x60].\n\n"
      ++ "Can be created through \x60serde::Deserialize\x60 from various formats (see the "
      ++ "[\x60FromStr\x60] implementation for YAML), or inline in Rust code with "
      ++ "[\x60Configuration::builder\x60].")),
    ("type", .string "object"),
    ("properties", .object [
      ("local_directive",
        describedWithDefault "Name of the directive marking local-only fields."
          (.string default.localDirective) string),
      ("missing_entities",
        describedWithDefault
          "What to do when a reference points to an entity that is not in the cache."
          (.string default.missingEntities.name)
          [("oneOf", .array [
            variant "The field is set to \x60null\x60 and an error is added to the response."
              MissingEntityPolicy.nullify.name,
            variant "The whole execution fails." MissingEntityPolicy.abort.name])]),
      ("plan_cache",
        describedWithDefault "Plan caching configuration."
          (.object [("limit", Json.ofNat default.planCacheLimit)])
          [("type", .string "object"),
            ("properties", .object [
              ("limit",
                describedWithDefault "Number of plans kept in memory."
                  (Json.ofNat default.planCacheLimit)
                  [("type", .string "integer"), ("format", .string "uint"),
                    ("minimum", .number (.float (Binary64.zero false)))])]),
            closed]),
      ("type_policies",
        describedWithDefault "Per-type identity configuration, keyed by type name." (.object [])
          [("type", .string "object"),
            ("additionalProperties",
              described "How entities of one type are identified." "object" [
                ("required", .array [.string "key_fields"]),
                ("properties", .object [
                  ("key_fields",
                    described "Fields forming the identity key, in order." "array"
                      [("items", .object string)])]),
                closed])])]),
    closed]

end GraphCache.Config
