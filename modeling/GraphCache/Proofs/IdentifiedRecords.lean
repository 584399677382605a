import GraphCache.Proofs.ResolvedReferences

/-!
# The normal form of the cache

In a store that is filled only by responses every record but the root ones is kept under the key
that identifies it, however many responses it was merged from. A record that is merged with one of
the same key keeps the key: what identifies the later one takes precedence, unless the later one has
no `id` and the earlier one has; and then it is the earlier one's `id` that gives the same key.

No object that the write pass makes for nested selections has an identity where it stands: one that
has an identity is a record of its own, with a reference in its place.

## Main definitions

* `identityText?`: what identifies an object among those of its type.
* `Snapshot.Identified`: the records are kept under the keys that identify them.
* `Json.Lists`: the objects in a value that stand in no other object.

## Main results

* `identityText?_merge`: merging two records of one entity keeps what identifies it.
* `Snapshot.Identified.assignAll`: so do any number of assignments.
* `Store.records_identified`: the normal form of a store that is filled by responses.
-/

namespace GraphCache

/-! ### What identifies an object -/

/-- What identifies an object among those of its type. -/
def identityText? (policies : TypePolicies) (typename : String) (object : Object) :
    Option String :=
  match Dict.get? policies typename with
  | some fields => (keyObject? object fields).map fun key => (Json.object key).text
  | none => (defaultKeyFields.findSome? (presentField? object)).map identityText

theorem identify?_eq_some_iff {policies : TypePolicies} {object : Object} {key : String} :
    identify? policies object = some key ↔ ∃ typename text, typename? object = some typename ∧
      identityText? policies typename object = some text ∧ typename ++ ":" ++ text = key := by
  rw [identify?]
  cases typename? object with
  | none => simp
  | some typename =>
    simp only [Option.bind_eq_bind, Option.bind_some, Option.some.injEq, exists_and_left,
      exists_eq_left', identityText?]
    cases Dict.get? policies typename with
    | some fields => simp [Option.bind_eq_some_iff]
    | none => cases defaultKeyFields.findSome? (presentField? object) <;> simp

/-- A text without a colon is found again in front of one. -/
theorem append_colon_inj {a b x y : String} (ha : ':' ∉ a.toList) (hb : ':' ∉ b.toList)
    (h : a ++ ":" ++ x = b ++ ":" ++ y) : a = b ∧ x = y := by
  have hlists : a.toList ++ ':' :: x.toList = b.toList ++ ':' :: y.toList := by
    simpa using congrArg String.toList h
  have hhead (text rest : List Char) (htext : ':' ∉ text) :
      (text ++ ':' :: rest).takeWhile (· != ':') = text := by
    rw [List.takeWhile_append_of_pos fun c hc ↦ by simpa using ne_of_mem_of_not_mem hc htext]
    simp
  have hfront : a.toList = b.toList := by
    rw [← hhead a.toList x.toList ha, hlists, hhead b.toList y.toList hb]
  rw [hfront] at hlists
  have hback : x.toList = y.toList := (List.cons.inj (List.append_cancel_left hlists)).2
  exact ⟨String.toList_inj.1 hfront, String.toList_inj.1 hback⟩

section Merge

variable {policies : TypePolicies} {typename : String} {earlier later : Object}
  (hkeys : (Dict.keys later).Nodup)

include hkeys

/-- What the later record tells is told by the merged one. -/
theorem get?_merge_of_later {name : String} {value : Json}
    (h : Dict.get? later name = some value) :
    Dict.get? (Dict.merge earlier later) name = some value := by
  rw [Dict.get?_merge hkeys, h, Option.some_or]

theorem presentField?_merge {name : String} {value : Json}
    (h : presentField? later name = some value) :
    presentField? (Dict.merge earlier later) name = some value := by
  obtain ⟨hvalue, hpresent⟩ := Option.filter_eq_some_iff.1 h
  exact Option.filter_eq_some_iff.2 ⟨get?_merge_of_later hkeys hvalue, hpresent⟩

theorem typename?_merge (h : typename? later = some typename) :
    typename? (Dict.merge earlier later) = some typename := by
  obtain ⟨value, hvalue, hstring⟩ := Option.bind_eq_some_iff.1 h
  rw [typename?, get?_merge_of_later hkeys hvalue, Option.bind_some, hstring]

/-- The key fields of a policy are all told by the later record. -/
theorem keyObject?_merge {fields : List String} {key : Object}
    (h : keyObject? later fields = some key) :
    keyObject? (Dict.merge earlier later) fields = some key := by
  have hsame : ∀ entries, (fields.mapM fun field ↦ (presentField? later field).map (field, ·))
      = some entries →
        (fields.mapM fun field ↦ (presentField? (Dict.merge earlier later) field).map (field, ·))
          = some entries := by
    clear h
    induction fields with
    | nil => exact fun _ h ↦ h
    | cons field fields ih =>
      intro entries h
      simp only [List.mapM_cons, Option.bind_eq_bind, Option.bind_eq_some_iff,
        Option.map_eq_some_iff] at h ⊢
      obtain ⟨_, ⟨value, hvalue, rfl⟩, rest, hrest, hentries⟩ := h
      exact ⟨_, ⟨value, presentField?_merge hkeys hvalue, rfl⟩, rest, ih rest hrest, hentries⟩
  obtain ⟨entries, hentries, rfl⟩ := Option.map_eq_some_iff.1 h
  rw [keyObject?, hsame entries hentries, Option.map_some]

/-- Merging two records of one entity keeps what identifies it. -/
theorem identityText?_merge {text : String}
    (hearlier : identityText? policies typename earlier = some text)
    (hlater : identityText? policies typename later = some text) :
    identityText? policies typename (Dict.merge earlier later) = some text := by
  unfold identityText? at hearlier hlater ⊢
  cases hpolicy : Dict.get? policies typename with
  | some fields =>
    rw [hpolicy] at hlater
    obtain ⟨key, hkey, htext⟩ := Option.map_eq_some_iff.1 hlater
    exact Option.map_eq_some_iff.2 ⟨key, keyObject?_merge hkeys hkey, htext⟩
  | none =>
    rw [hpolicy] at hearlier hlater
    simp only [defaultKeyFields, List.findSome?_cons, List.findSome?_nil] at hearlier hlater ⊢
    cases hid : presentField? later "id" with
    | some id =>
      rw [hid] at hlater
      rw [presentField?_merge hkeys hid]
      exact hlater
    | none =>
      rw [hid] at hlater
      cases hother : presentField? later "_id" with
      | none =>
        rw [hother] at hlater
        cases hlater
      | some other =>
        rw [hother] at hlater
        rw [presentField?_merge hkeys hother]
        -- without an `id` in the later record that of the earlier one, if any, comes first
        cases hmerged : presentField? (Dict.merge earlier later) "id" with
        | none => exact hlater
        | some id =>
          have hfound : presentField? earlier "id" = some id := by
            obtain ⟨hvalue, hpresent⟩ := Option.filter_eq_some_iff.1 hmerged
            rw [Dict.get?_merge hkeys] at hvalue
            rcases Option.or_eq_some_iff.1 hvalue with hvalue | ⟨-, hvalue⟩
            · have hnot : presentField? later "id" = some id :=
                Option.filter_eq_some_iff.2 ⟨hvalue, hpresent⟩
              cases hid.symm.trans hnot
            · exact Option.filter_eq_some_iff.2 ⟨hvalue, hpresent⟩
          rw [hfound] at hearlier
          exact hearlier

end Merge

/-! ### Records under their keys -/

/-- The type of an object, if it is told by a string, has no colon in it. -/
def TypedPlainly (object : Object) : Prop :=
  ∀ typename, typename? object = some typename → ':' ∉ typename.toList

instance (object : Object) : Decidable (TypedPlainly object) :=
  decidable_of_iff ((typename? object).all fun typename => ':' ∉ typename.toList)
    (by simp [TypedPlainly, Option.all_eq_true])

namespace Snapshot

variable {policies : TypePolicies} {snapshot : Snapshot}

/-- Records under keys with a colon in them are identified by their keys, and the names of their
types have no colon. The keys of root records have none. -/
def Identified (policies : TypePolicies) (snapshot : Snapshot) : Prop :=
  ∀ key record, Dict.get? snapshot key = some record → ':' ∈ key.toList →
    identify? policies record = some key ∧ TypedPlainly record

theorem Identified.nil : Identified policies [] :=
  nofun

/-- Assigning to a record what has the same identity keeps it under its key. -/
theorem Identified.assign (h : snapshot.Identified policies) {assignment : Assignment}
    (hkeys : (Dict.keys assignment.2).Nodup) (hplain : TypedPlainly assignment.2)
    (hidentity : ':' ∈ assignment.1.toList →
      identify? policies assignment.2 = some assignment.1) :
    (snapshot.assign assignment).Identified policies := by
  intro key record hrecord hcolon
  rw [Snapshot.assign, Dict.get?_insert] at hrecord
  split at hrecord
  · next hkey =>
    subst hkey
    obtain rfl := Option.some.inj hrecord
    obtain ⟨typename, text, htypename, htext, hkey⟩ :=
      identify?_eq_some_iff.1 (hidentity hcolon)
    have hmerged (earlier : Object) : typename? (Dict.merge earlier assignment.2) = some typename :=
      typename?_merge hkeys htypename
    refine ⟨?_, fun other hother ↦ ?_⟩
    · cases hbefore : Dict.get? snapshot assignment.1 with
      | none =>
        rw [Option.getD_none, Dict.merge_nil_left hkeys]
        exact hidentity hcolon
      | some earlier =>
        rw [Option.getD_some]
        obtain ⟨hearlier, hearlierPlain⟩ := h _ earlier hbefore hcolon
        obtain ⟨typename', text', htypename', htext', hkey'⟩ := identify?_eq_some_iff.1 hearlier
        obtain ⟨rfl, rfl⟩ := append_colon_inj (hearlierPlain _ htypename') (hplain _ htypename)
          (hkey'.trans hkey.symm)
        exact identify?_eq_some_iff.2
          ⟨_, _, hmerged earlier, identityText?_merge hkeys htext' htext, hkey⟩
    · rw [hmerged] at hother
      exact hplain other (htypename.trans hother)
  · exact h key record hrecord hcolon

/-- So do any number of assignments. -/
theorem Identified.assignAll (h : snapshot.Identified policies) {assignments : List Assignment}
    (hassigned : ∀ assignment ∈ assignments, (Dict.keys assignment.2).Nodup ∧
      TypedPlainly assignment.2 ∧ (':' ∈ assignment.1.toList →
        identify? policies assignment.2 = some assignment.1)) :
    (snapshot.assignAll assignments).Identified policies := by
  induction assignments generalizing snapshot with
  | nil => exact h
  | cons assignment assignments ih =>
    obtain ⟨⟨hkeys, hplain, hidentity⟩, hrest⟩ := List.forall_mem_cons.1 hassigned
    exact ih (h.assign hkeys hplain hidentity) hrest

end Snapshot
/-! ### Objects that stay embedded -/

/-- The objects in a value that stand in no other object: the value itself, or the items of a list
at any depth of lists. -/
inductive Json.Lists : Json → Object → Prop where
  | self (object : Object) : Json.Lists (.object object) object
  | item {items : List Json} {item : Json} {object : Object} (hmem : item ∈ items)
      (hitem : Json.Lists item object) : Json.Lists (.array items) object

namespace Normalizer

variable {normalizer : Normalizer}

/-- What takes the place of an object has no identity. -/
theorem identify?_of_place {record : Object} {assignments : List Assignment} {object : Object}
    (h : (normalizer.place record assignments).1.Lists object) :
    identify? normalizer.policies object = none := by
  unfold place at h
  split at h
  · -- a reference tells no type
    cases h
    rfl
  · next hidentity =>
    cases h
    exact hidentity

section Embedded

variable (writeObject : Object → Object × List Assignment) {object : Object}

mutual

/-- The objects in a value that was written for nested selections have no identity. -/
theorem identify?_of_writeValue (value : Json)
    (h : (normalizer.writeValue writeObject value).1.Lists object) :
    identify? normalizer.policies object = none := by
  cases value with
  | array items =>
    rw [writeValue] at h
    cases h with
    | item hmem hitem => exact identify?_of_writeItems items hmem hitem
  | object fields => exact identify?_of_place h
  | null => cases h
  | bool _ => cases h
  | number _ => cases h
  | string _ => cases h

theorem identify?_of_writeItems (items : List Json) {written : Json}
    (hmem : written ∈ (normalizer.writeItems writeObject items).1) (h : written.Lists object) :
    identify? normalizer.policies object = none := by
  cases items with
  | nil => cases hmem
  | cons item rest =>
    rw [writeItems] at hmem
    rcases List.mem_cons.1 hmem with rfl | hmem
    · exact identify?_of_writeValue item h
    · exact identify?_of_writeItems rest hmem h

end

end Embedded

end Normalizer

/-! ### Stores that are filled by responses -/

namespace ServerResponse

variable {response : ServerResponse} {policies : TypePolicies}

/-- What is assigned for a response goes to a root record, or to the key that identifies it. -/
theorem rootKey_or_identify?_of_assignments :
    ∀ assignment ∈ response.assignments policies, assignment.1 = response.plan.rootKey ∨
      identify? policies assignment.2 = some assignment.1 := by
  rw [assignments]
  split
  · refine List.forall_mem_append.2 ⟨fun assignment hmem ↦ ?_, by simp⟩
    obtain ⟨fields, object, hidentity, hrecord⟩ :=
      Normalizer.writeFields_fromEntity _ _ _ assignment hmem
    rw [hrecord]
    exact .inr hidentity
  · exact List.forall_mem_nil _

end ServerResponse

namespace Store

/-- The normal form of a store that was empty before responses were written to it. If no type of a
record has a colon in its name, then every record but the root ones is identified by its own key.
Whatever the write pass writes for nested selections, no object that stands there has an
identity. -/
theorem records_identified (policies : TypePolicies) (responses : List ServerResponse)
    (hplain : ∀ response ∈ responses, ∀ assignment ∈ response.assignments policies,
      TypedPlainly assignment.2) :
    let store := ({ policies } : Store).ingestAll responses
    (∀ key record, Dict.get? store.snapshot key = some record →
        (∀ kind : OperationKind, key ≠ kind.rootKey) → store.identify? record = some key) ∧
      ∀ response ∈ responses, ∀ field id fields value embedded,
        ((response.normalizer policies).written (.nested field id fields) value).1.Lists embedded →
          store.identify? embedded = none := by
  intro store
  have hstore : store = ({ policies } : Store).merge
      (responses.flatMap (·.assignments policies)) := ingestAll_eq_merge _ _
  have hidentity : store.identify? = GraphCache.identify? policies := by
    rw [hstore]
    rfl
  rw [hidentity]
  constructor
  · intro key record hrecord hroot
    have hassigned : ∀ assignment ∈ responses.flatMap (·.assignments policies),
        (∃ kind : OperationKind, assignment.1 = kind.rootKey) ∨
          GraphCache.identify? policies assignment.2 = some assignment.1 := by
      intro assignment hmem
      obtain ⟨response, -, hassignment⟩ := List.mem_flatMap.1 hmem
      exact (ServerResponse.rootKey_or_identify?_of_assignments assignment hassignment).imp_left
        fun hkey ↦ ⟨response.plan.kind, hkey⟩
    have hsnapshot : store.snapshot = Snapshot.assignAll []
        (responses.flatMap (·.assignments policies)) := by
      rw [hstore]
      rfl
    rw [hsnapshot] at hrecord
    have hcolon : ':' ∈ key.toList := by
      by_contra hnot
      have hothers : ∀ assignment ∈ responses.flatMap (·.assignments policies),
          assignment.1 ≠ key := by
        intro assignment hmem hkey
        rcases hassigned assignment hmem with ⟨kind, hkind⟩ | hidentified
        · exact hroot kind (hkey.symm.trans hkind)
        · exact hnot (hkey ▸ colon_mem_of_identify? hidentified)
      rw [Snapshot.get?_assignAll_of_forall_ne [] hothers] at hrecord
      cases hrecord
    refine (Snapshot.Identified.nil.assignAll (fun assignment hmem ↦ ?_) key record hrecord
      hcolon).1
    obtain ⟨response, hresponse, hassignment⟩ := List.mem_flatMap.1 hmem
    refine ⟨ServerResponse.nodup_keys_assignments assignment hassignment,
      hplain response hresponse assignment hassignment, fun hentity ↦ ?_⟩
    rcases hassigned assignment hmem with ⟨kind, hkind⟩ | hidentified
    · rw [hkind] at hentity
      cases kind <;> exact absurd hentity (by decide)
    · exact hidentified
  · intro response _ field id fields value embedded hembedded
    exact Normalizer.identify?_of_writeValue _ value hembedded

section Sample

/-- Asks for an author, told by one identifier or by another. -/
def authorPlan : QueryPlan :=
  queryPlan [.nested (bareField "author" (some "Query")) 1
    [.leaf (bareField "_id"), .leaf (bareField "id")]]

/-- An author with the given identifiers. -/
def authorResponse (identifiers : Object) : ServerResponse where
  plan := authorPlan
  data := .object [("author", .object ((typenameField, .string "Author") :: identifiers))]

/-- First the author is known by `_id` only, then by `id`, with another `_id`. -/
def authorResponses : List ServerResponse :=
  [authorResponse [("_id", .string "7")], authorResponse [("id", .ofNat 7), ("_id", .null)]]

theorem authorResponses_typedPlainly :
    ∀ response ∈ authorResponses, ∀ assignment ∈ response.assignments [],
      TypedPlainly assignment.2 := by
  decide

/-- The record of the author is merged from both responses. -/
theorem records_identified_authorResponses :
    (∀ response ∈ authorResponses, ∀ assignment ∈ response.assignments [],
      TypedPlainly assignment.2) ∧
      ∃ record, Dict.get? (({} : Store).ingestAll authorResponses).snapshot "Author:7"
          = some record ∧ Dict.keys record = ["__typename", "_id", "id"] ∧
        (({} : Store).ingestAll authorResponses).identify? record = some "Author:7" := by
  have hrecord : Dict.get? (({} : Store).ingestAll authorResponses).snapshot "Author:7" = some
      [("__typename", .string "Author"), ("_id", .null), ("id", .ofNat 7)] := by
    rfl
  refine ⟨authorResponses_typedPlainly, _, hrecord, rfl, ?_⟩
  exact (records_identified [] authorResponses authorResponses_typedPlainly).1 _ _ hrecord
    (by intro kind; cases kind <;> decide)

end Sample

end Store

end GraphCache
