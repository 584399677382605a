import GraphCache.Proofs.IdentifiedRecords
import GraphCache.Proofs.WellFormedQueries

/-!
# The history of a store

A store is changed by writing a record, by merging assignments and by writing responses. Whatever
is assigned to a field of a record stays there until the field is assigned again or the record is
replaced, and nothing else is in a record. A response is taken apart into a staging area first,
where assignments to one record are merged already, and then merged into the store in any order.

To make the last change again changes nothing, not even the order of the fields.

## Main definitions

* `StoreCall`, `Store.attempt`, `Store.performAll`: calls that may change a store.
* `Change`, `Change.LastIn`: changes of records, and what they assign last.
* `StoreCall.Makes`, `History`: the changes that calls make.

## Main results

* `Snapshot.get?_assignAll`: the record that assignments leave under a key.
* `Snapshot.assignAll_assignAll`: assignments that are made again change nothing.
* `History.shown`: a store shows what was assigned last in its history.
* `Store.no_update_lost`: nothing that was assigned is lost, and repeating a call changes nothing.
-/

namespace GraphCache

/-! ### Making assignments -/

/-- What is assigned to the record with a key, in order. -/
def Assignment.entriesOf (assignments : List Assignment) (key : String) : Object :=
  assignments.flatMap fun assignment => if assignment.1 = key then assignment.2 else []

namespace Snapshot

variable {snapshot : Snapshot}

/-- No key and no field of a record is repeated. -/
structure Tidy (snapshot : Snapshot) : Prop where
  /-- No key is repeated. -/
  keys : (Dict.keys snapshot).Nodup
  /-- No field of a record is repeated. -/
  records : ∀ key record, Dict.get? snapshot key = some record → (Dict.keys record).Nodup

theorem Tidy.nil : Tidy [] :=
  ⟨.nil, nofun⟩

theorem Tidy.insert (h : snapshot.Tidy) (key : String) {record : Object}
    (hrecord : (Dict.keys record).Nodup) : Tidy (Dict.insert snapshot key record) where
  keys := Dict.nodup_keys_insert h.keys key record
  records other found hfound := by
    rw [Dict.get?_insert] at hfound
    split at hfound
    · rwa [← Option.some.inj hfound]
    · exact h.records other found hfound

/-- The record with a key, or an empty one, repeats no field. -/
theorem Tidy.nodup_getD (h : snapshot.Tidy) (key : String) :
    (Dict.keys ((Dict.get? snapshot key).getD [])).Nodup := by
  cases hrecord : Dict.get? snapshot key with
  | none => exact .nil
  | some record => exact h.records key record hrecord

theorem Tidy.assignAll (h : snapshot.Tidy) (assignments : List Assignment) :
    (snapshot.assignAll assignments).Tidy := by
  induction assignments generalizing snapshot with
  | nil => exact h
  | cons assignment assignments ih =>
    exact ih (h.insert _ (Dict.nodup_keys_merge (h.nodup_getD assignment.1) assignment.2))

/-- The record that assignments leave under a key: what is assigned to it is merged into it, in
order. -/
theorem get?_assignAll (snapshot : Snapshot) (assignments : List Assignment) (key : String) :
    Dict.get? (snapshot.assignAll assignments) key =
      if key ∈ Dict.keys assignments then
        some (Dict.merge ((Dict.get? snapshot key).getD [])
          (Assignment.entriesOf assignments key))
      else Dict.get? snapshot key := by
  induction assignments generalizing snapshot with
  | nil => rfl
  | cons assignment assignments ih =>
    have hstep : snapshot.assignAll (assignment :: assignments)
        = (snapshot.assign assignment).assignAll assignments := rfl
    have hentries : Assignment.entriesOf (assignment :: assignments) key
        = (if assignment.1 = key then assignment.2 else [])
          ++ Assignment.entriesOf assignments key := List.flatMap_cons
    rw [hstep, ih, Snapshot.assign, Dict.get?_insert, hentries, Dict.merge_append]
    by_cases hkey : assignment.1 = key
    · subst hkey
      have hmem : assignment.1 ∈ Dict.keys (assignment :: assignments) := List.mem_cons_self
      rw [if_pos rfl, if_pos rfl, Option.getD_some, if_pos hmem]
      split
      · rfl
      · next hnot =>
        have hnone : Assignment.entriesOf assignments assignment.1 = [] := by
          refine List.flatMap_eq_nil_iff.2 fun other hother ↦ if_neg fun heq ↦ hnot ?_
          exact heq ▸ List.mem_map_of_mem hother
        rw [hnone]
        rfl
    · have hmem : key ∈ Dict.keys (assignment :: assignments) ↔ key ∈ Dict.keys assignments := by
        simp [Dict.keys, Ne.symm hkey]
      rw [if_neg hkey, if_neg hkey]
      simp only [hmem, Dict.merge_nil]

theorem mem_keys_assignAll {assignments : List Assignment} {key : String} :
    key ∈ Dict.keys (snapshot.assignAll assignments) ↔
      key ∈ Dict.keys assignments ∨ key ∈ Dict.keys snapshot := by
  rw [← Dict.get?_isSome_iff, ← Dict.get?_isSome_iff snapshot]
  exact hasKey_assignAll

/-- Of assignments that repeat no key one at most counts for a record. -/
theorem entriesOf_of_nodup {assignments : List Assignment} (h : (Dict.keys assignments).Nodup)
    (key : String) :
    Assignment.entriesOf assignments key = (Dict.get? assignments key).getD [] := by
  induction assignments with
  | nil => rfl
  | cons assignment assignments ih =>
    obtain ⟨k, fields⟩ := assignment
    obtain ⟨hfresh, hrest⟩ := List.nodup_cons.1 h
    have hentries : Assignment.entriesOf ((k, fields) :: assignments) key
        = (if k = key then fields else []) ++ Assignment.entriesOf assignments key :=
      List.flatMap_cons
    rw [hentries, ih hrest, Dict.get?_cons]
    by_cases hk : k = key
    · subst hk
      rw [if_pos rfl, if_pos rfl, (Dict.get?_eq_none_iff assignments k).2 hfresh]
      exact List.append_nil fields
    · rw [if_neg hk, if_neg hk, List.nil_append]

/-- It does not matter whether assignments are collected in a staging area first, nor in which order
the records in it are merged then. -/
theorem get?_assignAll_of_staged (snapshot : Snapshot) {assignments staged : List Assignment}
    (hstaged : staged.Perm (Snapshot.assignAll [] assignments)) (key : String) :
    Dict.get? (snapshot.assignAll staged) key = Dict.get? (snapshot.assignAll assignments) key := by
  have hnodup : (Dict.keys (Snapshot.assignAll [] assignments)).Nodup :=
    (Tidy.nil.assignAll assignments).keys
  have hkeys : key ∈ Dict.keys staged ↔ key ∈ Dict.keys assignments := by
    rw [Dict.keys, (hstaged.map Prod.fst).mem_iff, ← Dict.keys, mem_keys_assignAll]
    simp [Dict.keys]
  rw [get?_assignAll, get?_assignAll,
    entriesOf_of_nodup ((hstaged.map Prod.fst).nodup_iff.2 hnodup),
    ← Dict.get?_eq_of_perm hnodup hstaged.symm, get?_assignAll]
  simp only [hkeys]
  split
  · exact congrArg some (Dict.merge_ofPairs _ _)
  · rfl

/-- Assignments to records that are there keep the order of the keys. -/
theorem keys_assignAll_of_subset {assignments : List Assignment}
    (h : ∀ key ∈ Dict.keys assignments, key ∈ Dict.keys snapshot) :
    Dict.keys (snapshot.assignAll assignments) = Dict.keys snapshot := by
  induction assignments generalizing snapshot with
  | nil => rfl
  | cons assignment assignments ih =>
    obtain ⟨hfirst, hrest⟩ := List.forall_mem_cons.1 h
    have hkeys : Dict.keys (snapshot.assign assignment) = Dict.keys snapshot := by
      rw [Snapshot.assign, Dict.keys_insert, if_pos hfirst]
    exact (ih (by rwa [hkeys])).trans hkeys

/-- Assignments that are made again change nothing. -/
theorem assignAll_assignAll (h : snapshot.Tidy) (assignments : List Assignment) :
    (snapshot.assignAll assignments).assignAll assignments = snapshot.assignAll assignments := by
  have hthere : ∀ key ∈ Dict.keys assignments, key ∈ Dict.keys (snapshot.assignAll assignments) :=
    fun key hkey ↦ mem_keys_assignAll.2 (.inl hkey)
  have hkeys := keys_assignAll_of_subset hthere
  refine Dict.ext_get? ((h.assignAll assignments).assignAll assignments).keys hkeys fun key ↦ ?_
  rw [get?_assignAll (snapshot.assignAll assignments), get?_assignAll snapshot]
  split
  · rw [Option.getD_some, Dict.merge_merge_self (h.nodup_getD key)]
  · rfl

end Snapshot

/-! ### Calls and changes -/

/-- A call that may change a store. -/
inductive StoreCall where
  /-- Replaces the record with a key. -/
  | write (key : String) (record : Object)
  /-- Sets fields of records. -/
  | merge (assignments : List Assignment)
  /-- Writes a response to the records of its entities. -/
  | ingest (response : ServerResponse)

/-- A change of one record. -/
structure Change where
  /-- The key of the record. -/
  key : String
  /-- The fields that are assigned. -/
  fields : Object
  /-- Whether the other fields of the record are given up. -/
  replaces : Bool

namespace Change

/-- Fields of a record that are set; the others are kept. -/
def ofAssignment (assignment : Assignment) : Change :=
  ⟨assignment.1, assignment.2, false⟩

/-- A value is the one assigned last to a field of the record with a key: no later change assigns
the field, and none replaces the record. -/
def LastIn (changes : List Change) (key field : String) (value : Json) : Prop :=
  ∃ before change after, changes = before ++ change :: after ∧ change.key = key ∧
    Dict.get? change.fields field = some value ∧
    ∀ later ∈ after, later.key = key →
      later.replaces = false ∧ Dict.get? later.fields field = none

/-- The value of a field after a change, given the value before. -/
def apply (key field : String) (value? : Option Json) (change : Change) : Option Json :=
  if change.key = key then
    (Dict.get? change.fields field).or (if change.replaces then none else value?)
  else value?

/-- What is assigned last to a field is what is left when the changes are made one by one. -/
theorem lastIn_iff {changes : List Change} {key field : String} {value : Json} :
    LastIn changes key field value ↔ changes.foldl (apply key field) none = some value := by
  induction changes using List.reverseRecOn with
  | nil => simp [LastIn]
  | append_singleton changes last ih =>
    have hsplit : LastIn (changes ++ [last]) key field value ↔
        (last.key = key ∧ Dict.get? last.fields field = some value) ∨
          LastIn changes key field value ∧ (last.key = key →
            last.replaces = false ∧ Dict.get? last.fields field = none) := by
      constructor
      · rintro ⟨before, change, after, hchanges, hkey, hvalue, hlater⟩
        rcases List.eq_nil_or_concat after with rfl | ⟨rest, final, rfl⟩
        · obtain ⟨rfl, hlast⟩ := List.append_inj' hchanges rfl
          obtain rfl := List.singleton_inj.1 hlast
          exact .inl ⟨hkey, hvalue⟩
        · rw [List.concat_eq_append, ← List.cons_append, ← List.append_assoc] at hchanges
          obtain ⟨rfl, hlast⟩ := List.append_inj' hchanges rfl
          obtain rfl := List.singleton_inj.1 hlast
          exact .inr ⟨⟨before, change, rest, rfl, hkey, hvalue,
            fun later hmem ↦ hlater later (by simp [hmem])⟩, hlater last (by simp)⟩
      · rintro (⟨hkey, hvalue⟩ | ⟨⟨before, change, after, rfl, hkey, hvalue, hlater⟩, hlast⟩)
        · exact ⟨changes, last, [], rfl, hkey, hvalue, nofun⟩
        · refine ⟨before, change, after ++ [last], by simp, hkey, hvalue, ?_⟩
          exact List.forall_mem_append.2 ⟨hlater, List.forall_mem_singleton.2 hlast⟩
    rw [hsplit, ih, List.foldl_append, List.foldl_cons, List.foldl_nil, apply]
    by_cases hkey : last.key = key
    · cases hfield : Dict.get? last.fields field with
      | some assigned => simp [hkey]
      | none => cases last.replaces <;> simp [hkey]
    · simp [hkey]

end Change

namespace StoreCall

/-- The records that a call passes repeat no field. -/
def WellFormed : StoreCall → Prop
  | write _ record => (Dict.keys record).Nodup
  | merge assignments => ∀ assignment ∈ assignments, (Dict.keys assignment.2).Nodup
  | ingest _ => True

/-- The changes that a call makes. For a response the assignments are merged in a staging area
first; the records in it come in any order. A response that is refused makes no change. -/
inductive Makes (policies : TypePolicies) : StoreCall → List Change → Prop where
  | write (key : String) (record : Object) :
    Makes policies (write key record) [⟨key, record, true⟩]
  | merge (assignments : List Assignment) :
    Makes policies (merge assignments) (assignments.map Change.ofAssignment)
  | ingest (response : ServerResponse) {staged : List Assignment}
      (hstaged : staged.Perm (Snapshot.assignAll [] (response.assignments policies))) :
    Makes policies (ingest response) (staged.map Change.ofAssignment)

end StoreCall

/-- The changes that calls make, one call after the other. -/
inductive History (policies : TypePolicies) : List StoreCall → List Change → Prop where
  | nil : History policies [] []
  | call {calls : List StoreCall} {changes made : List Change} {call : StoreCall}
      (hbefore : History policies calls changes) (hmakes : call.Makes policies made) :
    History policies (calls ++ [call]) (changes ++ made)

namespace Store

/-- Makes a call, which may fail. -/
def attempt (store : Store) : StoreCall → Except StoreError Store
  | .write key record => .ok (store.write key record)
  | .merge assignments => .ok (store.merge assignments)
  | .ingest response => store.ingest response.plan response.data response.variableValues

/-- The store after a call. One that fails changes nothing. -/
def perform (store : Store) (call : StoreCall) : Store :=
  match store.attempt call with
  | .ok store => store
  | .error _ => store

/-- The store after several calls. -/
def performAll (store : Store) (calls : List StoreCall) : Store :=
  calls.foldl perform store

/-- Every one of the calls fails when it is its turn. -/
def RefusesAll (store : Store) : List StoreCall → Prop
  | [] => True
  | call :: calls =>
    (∃ error, store.attempt call = .error error) ∧ (store.perform call).RefusesAll calls

variable {store : Store}

theorem perform_ingest (response : ServerResponse) :
    store.perform (.ingest response) = store.merge (response.assignments store.policies) := by
  cases hdata : response.data with
  | object fields =>
    simp only [perform, attempt, ingest, hdata, ServerResponse.assignments,
      ServerResponse.normalizer]
  | _ =>
    simp only [perform, attempt, ingest, hdata, ServerResponse.assignments, merge,
      Snapshot.assignAll, List.foldl_nil]

theorem policies_perform (call : StoreCall) : (store.perform call).policies = store.policies := by
  cases call with
  | write key record => rfl
  | merge assignments => rfl
  | ingest response =>
    rw [perform_ingest]
    rfl

theorem policies_performAll (calls : List StoreCall) :
    (store.performAll calls).policies = store.policies := by
  induction calls generalizing store with
  | nil => rfl
  | cons call calls ih => exact ih.trans (policies_perform call)

theorem tidy_perform (h : store.snapshot.Tidy) {call : StoreCall} (hcall : call.WellFormed) :
    (store.perform call).snapshot.Tidy := by
  cases call with
  | write key record => exact h.insert key hcall
  | merge assignments => exact h.assignAll assignments
  | ingest response =>
    rw [perform_ingest]
    exact h.assignAll _

theorem tidy_performAll (h : store.snapshot.Tidy) {calls : List StoreCall}
    (hcalls : ∀ call ∈ calls, call.WellFormed) : (store.performAll calls).snapshot.Tidy := by
  induction calls generalizing store with
  | nil => exact h
  | cons call calls ih =>
    obtain ⟨hfirst, hrest⟩ := List.forall_mem_cons.1 hcalls
    exact ih (tidy_perform h hfirst) hrest

/-- A call that is made again changes nothing. -/
theorem perform_perform (h : store.snapshot.Tidy) (call : StoreCall) :
    (store.perform call).perform call = store.perform call := by
  have hmerge (assignments : List Assignment) :
      (store.merge assignments).merge assignments = store.merge assignments :=
    congrArg (Store.mk store.policies) (Snapshot.assignAll_assignAll h assignments)
  cases call with
  | write key record =>
    exact congrArg (Store.mk store.policies) (Dict.insert_insert store.snapshot key record record)
  | merge assignments => exact hmerge assignments
  | ingest response =>
    rw [perform_ingest response, perform_ingest response]
    exact hmerge _

/-- Calls that fail change nothing. -/
theorem performAll_of_refusesAll {calls : List StoreCall} (h : store.RefusesAll calls) :
    store.performAll calls = store := by
  induction calls with
  | nil => rfl
  | cons call calls ih =>
    obtain ⟨⟨error, herror⟩, hrest⟩ := h
    have hfirst : store.perform call = store := by
      rw [perform, herror]
    rw [hfirst] at hrest
    rw [performAll, List.foldl_cons, hfirst]
    exact ih hrest

end Store

/-! ### What a store shows -/

/-- The snapshot has the records and the fields that are left when the changes are made one by
one. -/
structure Snapshot.Shows (snapshot : Snapshot) (changes : List Change) : Prop where
  /-- There is a record for every change, and no other one. -/
  keys : ∀ key, snapshot.HasKey key ↔ ∃ change ∈ changes, change.key = key
  /-- The fields are those that are left. -/
  fields : ∀ key field, (Dict.get? snapshot key).bind (Dict.get? · field)
    = changes.foldl (Change.apply key field) none

namespace Snapshot.Shows

variable {snapshot : Snapshot} {changes : List Change}

theorem nil : Shows [] [] :=
  ⟨fun key ↦ by simp [HasKey], fun _ _ ↦ rfl⟩

/-- Replacing a record is shown. -/
theorem write (h : snapshot.Shows changes) (key : String) (record : Object) :
    Shows (Dict.insert snapshot key record) (changes ++ [⟨key, record, true⟩]) where
  keys other := by
    have hother := h.keys other
    rw [HasKey] at hother ⊢
    rw [Dict.get?_insert]
    split
    · next hkey => simp [hkey]
    · next hkey => simp [hother, hkey]
  fields other field := by
    rw [Dict.get?_insert, List.foldl_append, List.foldl_cons, List.foldl_nil, Change.apply,
      ← h.fields]
    split
    · simp
    · rfl

/-- Setting fields of a record is shown. -/
theorem assign (h : snapshot.Shows changes) {assignment : Assignment}
    (hkeys : (Dict.keys assignment.2).Nodup) :
    Shows (snapshot.assign assignment) (changes ++ [Change.ofAssignment assignment]) where
  keys other := by
    have hother := h.keys other
    rw [HasKey] at hother ⊢
    rw [Snapshot.assign, Dict.get?_insert]
    split
    · next hkey => simp [Change.ofAssignment, hkey]
    · next hkey => simp [Change.ofAssignment, hother, hkey]
  fields other field := by
    rw [Snapshot.assign, Dict.get?_insert, List.foldl_append, List.foldl_cons, List.foldl_nil,
      Change.apply, ← h.fields]
    split
    · next hkey =>
      rw [Option.bind_some, Dict.get?_merge hkeys, hkey]
      cases Dict.get? snapshot other <;> simp [Change.ofAssignment, hkey]
    · next hkey => simp [Change.ofAssignment, hkey]

theorem assignAll (h : snapshot.Shows changes) {assignments : List Assignment}
    (hkeys : ∀ assignment ∈ assignments, (Dict.keys assignment.2).Nodup) :
    Shows (snapshot.assignAll assignments) (changes ++ assignments.map Change.ofAssignment) := by
  induction assignments generalizing snapshot changes with
  | nil =>
    rw [List.map_nil, List.append_nil]
    exact h
  | cons assignment assignments ih =>
    obtain ⟨hfirst, hrest⟩ := List.forall_mem_cons.1 hkeys
    have hrun := ih (h.assign hfirst) hrest
    rwa [List.append_assoc] at hrun

/-- What is shown depends only on the records that are found. -/
theorem congr {other : Snapshot} (h : snapshot.Shows changes)
    (hget : ∀ key, Dict.get? snapshot key = Dict.get? other key) : other.Shows changes where
  keys key := by
    rw [HasKey, ← hget]
    exact h.keys key
  fields key field := by
    rw [← hget]
    exact h.fields key field

end Snapshot.Shows

/-- A call makes its changes. -/
theorem StoreCall.Makes.shows {store : Store} {call : StoreCall} {changes made : List Change}
    (h : call.Makes store.policies made) (hcall : call.WellFormed)
    (hbefore : store.snapshot.Shows changes) :
    (store.perform call).snapshot.Shows (changes ++ made) := by
  cases h with
  | write key record => exact hbefore.write key record
  | merge assignments => exact hbefore.assignAll hcall
  | @ingest response staged hstaged =>
    have htidy := Snapshot.Tidy.nil.assignAll (response.assignments store.policies)
    rw [Store.perform_ingest]
    refine (hbefore.assignAll fun assignment hmem ↦ ?_).congr
      (Snapshot.get?_assignAll_of_staged store.snapshot hstaged)
    exact htidy.records assignment.1 assignment.2
      ((Dict.get?_eq_some_iff htidy.keys _ _).2 (hstaged.subset hmem))

/-- A store shows what was assigned last in its history. -/
theorem History.shown {policies : TypePolicies} {calls : List StoreCall} {changes : List Change}
    (h : History policies calls changes) (hcalls : ∀ call ∈ calls, call.WellFormed) :
    (({ policies } : Store).performAll calls).snapshot.Shows changes := by
  induction h with
  | nil => exact .nil
  | @call calls changes made call _ hmakes ih =>
    obtain ⟨hearlier, hlast⟩ := List.forall_mem_append.1 hcalls
    have hpolicies : (({ policies } : Store).performAll calls).policies = policies :=
      Store.policies_performAll calls
    have hperform : ({ policies } : Store).performAll (calls ++ [call])
        = (({ policies } : Store).performAll calls).perform call := List.foldl_append
    rw [hperform]
    rw [← hpolicies] at hmakes
    exact hmakes.shows (hlast call List.mem_cons_self) (ih hearlier)

namespace Store

/-- No update is lost in a store that was empty at first. There is a record with a key exactly if
some call assigned to it, and a field of the record has the value that was assigned to it last since
the record was replaced the last time. To repeat the last call that did not fail changes nothing,
not even the order of the fields. -/
theorem no_update_lost (policies : TypePolicies) {calls : List StoreCall}
    (hcalls : ∀ call ∈ calls, call.WellFormed) {changes : List Change}
    (hhistory : History policies calls changes) :
    let store := ({ policies } : Store).performAll calls
    (∀ key, store.snapshot.HasKey key ↔ ∃ change ∈ changes, change.key = key) ∧
      (∀ key record, Dict.get? store.snapshot key = some record → ∀ field value,
        Dict.get? record field = some value ↔ Change.LastIn changes key field value) ∧
      ∀ before call after, calls = before ++ call :: after →
        (({ policies } : Store).performAll (before ++ [call])).RefusesAll after →
          (store.perform call).snapshot.extract = store.snapshot.extract := by
  intro store
  have hshown : store.snapshot.Shows changes := hhistory.shown hcalls
  refine ⟨hshown.keys, fun key record hrecord field value ↦ ?_, ?_⟩
  · rw [Change.lastIn_iff, ← hshown.fields, hrecord]
    rfl
  · intro before call after hsplit hrefused
    have hwell : ∀ earlier ∈ before, earlier.WellFormed :=
      fun earlier hmem ↦ hcalls earlier (by simp [hsplit, hmem])
    have hstore : store = (({ policies } : Store).performAll before).perform call := by
      have hunchanged := performAll_of_refusesAll hrefused
      simp only [performAll, List.foldl_append, List.foldl_cons, List.foldl_nil] at hunchanged
      simp only [store, hsplit, performAll, List.foldl_append, List.foldl_cons, hunchanged]
    have htidy : (({ policies } : Store).performAll before).snapshot.Tidy :=
      tidy_performAll .nil hwell
    rw [hstore, perform_perform htidy call]

section Sample

/-- A book is written, merged with, written by a response and refused. -/
def bookCalls : List StoreCall :=
  [.write "Book:1" [("title", .string "A"), ("pages", .ofNat 9)],
    .merge [("Book:1", [("title", .string "B")]), ("Book:1", [("title", .string "C")])],
    .ingest (authorResponse [("id", .ofNat 7)]),
    .ingest { plan := authorPlan, data := .null }]

/-- The changes that the calls make, the root record of the response first. -/
def bookChanges : List Change :=
  [⟨"Book:1", [("title", .string "A"), ("pages", .ofNat 9)], true⟩,
    ⟨"Book:1", [("title", .string "B")], false⟩, ⟨"Book:1", [("title", .string "C")], false⟩,
    ⟨"ROOT_QUERY", [("author", .reference "Author:7")], false⟩,
    ⟨"Author:7", [("__typename", .string "Author"), ("id", .ofNat 7)], false⟩]

/-- The changes of the sample are those of its calls. -/
theorem bookChanges_history : History [] bookCalls bookChanges := by
  have hfirst : History [] [] [] := .nil
  have hwritten := hfirst.call (.write "Book:1" [("title", .string "A"), ("pages", .ofNat 9)])
  have hmerged := hwritten.call
    (.merge [("Book:1", [("title", .string "B")]), ("Book:1", [("title", .string "C")])])
  -- The record of the author is staged before the root record.
  have hstaged : List.Perm
      [("ROOT_QUERY", [("author", .reference "Author:7")]),
        ("Author:7", [("__typename", .string "Author"), ("id", .ofNat 7)])]
      (Snapshot.assignAll [] ((authorResponse [("id", .ofNat 7)]).assignments [])) := .swap ..
  have hingested := hmerged.call (.ingest _ hstaged)
  exact hingested.call (.ingest { plan := authorPlan, data := .null } .nil)

/-- The book is there, its title is the last one that was merged, and writing the last response that
was not refused again changes nothing. -/
theorem no_update_lost_bookCalls :
    let store := ({ policies := [] } : Store).performAll bookCalls
    store.snapshot.HasKey "Book:1" ∧
      Change.LastIn bookChanges "Book:1" "title" (.string "C") ∧
      (store.perform (.ingest (authorResponse [("id", .ofNat 7)]))).snapshot.extract
        = store.snapshot.extract := by
  intro store
  have hwell : ∀ call ∈ bookCalls, call.WellFormed := by
    simp only [bookCalls, List.forall_mem_cons, StoreCall.WellFormed]
    exact ⟨by decide, ⟨by decide, by decide, nofun⟩, trivial, trivial, nofun⟩
  obtain ⟨hkeys, hfields, hrepeat⟩ := no_update_lost [] hwell bookChanges_history
  have hbook : Dict.get? store.snapshot "Book:1"
      = some [("title", .string "C"), ("pages", .ofNat 9)] := by
    rfl
  refine ⟨(hkeys "Book:1").2 ⟨_, List.mem_cons_self, rfl⟩,
    (hfields "Book:1" _ hbook "title" _).1 rfl, ?_⟩
  exact hrepeat (bookCalls.take 2) _ (bookCalls.drop 3) rfl ⟨⟨_, rfl⟩, trivial⟩

end Sample

end Store

end GraphCache
