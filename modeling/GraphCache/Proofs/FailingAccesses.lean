import GraphCache.Context
import GraphCache.Proofs.Entries

/-!
# Accesses to contexts that fail

An access converts values to and from JSON, at a type of its own, and any of these conversions may
fail. Most of them come before the entries are touched. Two come too late: the previous entry is
read only after an insertion has replaced it, and the default of an update is read back and updated
only after it has been set. These are the only ways in which an access that fails leaves something
behind; whatever else fails, at whatever type, leaves all entries as they are.

## Main definitions

* `Context.Access`, `Context.Access.perform`: typed accesses to a context.
* `Context.Access.LeavesBehind`: an access fails after it has set an entry.
* `Context.after`, `Context.succeeding`: the entries after accesses, and those that succeed.

## Main results

* `Context.Access.get?_perform_of_ne`: an access changes no entry with another key.
* `Context.Access.perform_eq_self_iff`: when an access that fails changes nothing.
* `Context.after_succeeding`: accesses that fail can be left out.
* `Context.failing_access_changes_nothing_iff`: both together, after any accesses.
* `Context.failing_insert_changes_entry`: an insertion that fails and has replaced an entry.
-/

namespace GraphCache

namespace Context

/-- A typed access to a context. Each one has a type of its own, which is converted to and from JSON
in its own way. -/
inductive Access : Type 1 where
  /-- Reads an entry. -/
  | get {α : Type} (codec : Codec α) (key : String)
  /-- Sets an entry and reads the previous one. -/
  | insert {α : Type} (codec : Codec α) (key : String) (value : α)
  /-- Updates an entry, after setting it to a default if there is none. -/
  | upsert {α : Type} (codec : Codec α) (key : String) (update : α → α) (default : α)

namespace Access

/-- The key of the entry. -/
def key : Access → String
  | get _ key => key
  | insert _ key _ => key
  | upsert _ key _ _ => key

/-- Performs an access: whether it succeeds, and the entries after it. -/
def perform (context : Context) : Access → Except String Unit × Context
  | get codec key => ((Context.get codec context key).map fun _ => (), context)
  | insert codec key value =>
    let (previous, context) := Context.insert codec context key value
    (previous.map fun _ => (), context)
  | upsert codec key update default => Context.upsert codec context key update default

/-- An access fails after it has set an entry. An insertion does so if it is only the previous entry
that cannot be read, and is another one. An update does so if there was no entry and the default can
be written, but cannot be read back and updated. -/
def LeavesBehind (context : Context) : Access → Prop
  | get _ _ => False
  | insert codec key value => ∃ entry previous reason, codec.encode value = .ok entry ∧
      Dict.get? context key = some previous ∧ codec.decode previous = .error reason ∧
      entry ≠ previous
  | upsert codec key update default => Dict.get? context key = none ∧
      ∃ entry reason, codec.encode default = .ok entry ∧
        (codec.decode entry >>= fun value => codec.encode (update value)) = .error reason

variable {α : Type} {codec : Codec α} {context : Context} {key : String} {entry : Json}

/-! ### What an access does -/

theorem perform_insert_of_error {value : α} {reason : String}
    (h : codec.encode value = .error reason) :
    (insert codec key value).perform context = (.error reason, context) := by
  simp only [perform, Context.insert, h, Except.map]

theorem perform_insert_of_ok {value : α} (h : codec.encode value = .ok entry) :
    (insert codec key value).perform context
      = ((Context.get codec context key).map fun _ => (), Dict.insert context key entry) := by
  simp only [perform, Context.insert, h]

/-- An update fails since the default cannot be written, or goes on with an entry: the one that was
there or the default, which has been set. -/
theorem perform_upsert_cases (codec : Codec α) (context : Context) (key : String)
    (update : α → α) (default : α) :
    (∃ reason, Dict.get? context key = none ∧ codec.encode default = .error reason ∧
      (upsert codec key update default).perform context = (.error reason, context)) ∨
    ∃ entry prepared, (Dict.get? context key = some entry ∧ prepared = context ∨
        Dict.get? context key = none ∧ codec.encode default = .ok entry ∧
          prepared = Dict.insert context key entry) ∧
      (∀ reason, (codec.decode entry >>= fun value => codec.encode (update value)) = .error reason →
        (upsert codec key update default).perform context = (.error reason, prepared)) ∧
      ∀ updated, (codec.decode entry >>= fun value => codec.encode (update value)) = .ok updated →
        (upsert codec key update default).perform context
          = (.ok (), Dict.insert prepared key updated) := by
  cases hget : Dict.get? context key with
  | some entry =>
    refine .inr ⟨entry, context, .inl ⟨rfl, rfl⟩, fun reason h ↦ ?_, fun updated h ↦ ?_⟩
    · simp only [perform, Context.upsert, hget, h]
    · simp only [perform, Context.upsert, hget, h]
  | none =>
    cases hdefault : codec.encode default with
    | error reason =>
      refine .inl ⟨reason, rfl, rfl, ?_⟩
      simp only [perform, Context.upsert, hget, hdefault, Except.map]
    | ok entry =>
      refine .inr ⟨entry, Dict.insert context key entry, .inr ⟨rfl, rfl, rfl⟩,
        fun reason h ↦ ?_, fun updated h ↦ ?_⟩
      · simp only [perform, Context.upsert, hget, hdefault, Except.map, h]
      · simp only [perform, Context.upsert, hget, hdefault, Except.map, h]

/-- Reading an entry fails only if there is one that cannot be read. -/
theorem exists_of_get_eq_error {outcome : Option α → Unit} {reason : String}
    (h : (Context.get codec context key).map outcome = .error reason) :
    ∃ previous, Dict.get? context key = some previous ∧
      codec.decode previous = .error reason := by
  rw [Context.get] at h
  cases hget : Dict.get? context key with
  | none =>
    rw [hget] at h
    cases h
  | some previous =>
    refine ⟨previous, rfl, ?_⟩
    rw [hget] at h
    cases hdecode : codec.decode previous with
    | ok value =>
      simp only [hdecode] at h
      cases h
    | error reason' =>
      simp only [hdecode] at h
      cases h
      rfl

/-- An access changes no entry with another key. -/
theorem get?_perform_of_ne (context : Context) (access : Access) {other : String}
    (h : access.key ≠ other) :
    Dict.get? (access.perform context).2 other = Dict.get? context other := by
  cases access with
  | get codec key => rfl
  | insert codec key value =>
    cases hencode : codec.encode value with
    | error reason => rw [perform_insert_of_error hencode]
    | ok entry =>
      rw [perform_insert_of_ok hencode]
      exact Dict.get?_insert_of_ne _ _ h
  | upsert codec key update default =>
    rcases perform_upsert_cases codec context key update default with
      ⟨_, -, -, hperform⟩ | ⟨entry, prepared, hprepared, herror, hok⟩
    · rw [hperform]
    · have hsame : Dict.get? prepared other = Dict.get? context other := by
        rcases hprepared with ⟨-, rfl⟩ | ⟨-, -, rfl⟩
        · rfl
        · exact Dict.get?_insert_of_ne _ _ h
      cases hupdate : codec.decode entry >>= fun value => codec.encode (update value) with
      | error reason =>
        rw [herror reason hupdate]
        exact hsame
      | ok updated =>
        rw [hok updated hupdate]
        exact (Dict.get?_insert_of_ne _ _ h).trans hsame

/-! ### Accesses that fail -/

/-- An insertion that fails changes nothing, unless it has replaced an entry that it cannot read. -/
theorem perform_insert_eq_self_iff {value : α} {reason : String}
    (h : ((insert codec key value).perform context).1 = .error reason) :
    ((insert codec key value).perform context).2 = context ↔
      ¬ (insert codec key value).LeavesBehind context := by
  cases hencode : codec.encode value with
  | error reason => simp [perform_insert_of_error hencode, LeavesBehind, hencode]
  | ok entry =>
    rw [perform_insert_of_ok hencode] at h ⊢
    obtain ⟨previous, hprevious, hread⟩ := exists_of_get_eq_error h
    have hleaves : (insert codec key value).LeavesBehind context ↔ entry ≠ previous := by
      constructor
      · rintro ⟨entry', previous', reason', hencode', hprevious', -, hne⟩
        cases hencode.symm.trans hencode'
        cases hprevious.symm.trans hprevious'
        exact hne
      · exact fun hne ↦ ⟨entry, previous, reason, hencode, hprevious, hread, hne⟩
    rw [Dict.insert_eq_self_iff, hprevious, hleaves, not_not, Option.some_inj, eq_comm]

/-- An update that fails changes nothing, unless it has set a default. -/
theorem perform_upsert_eq_self_iff {update : α → α} {default : α} {reason : String}
    (h : ((upsert codec key update default).perform context).1 = .error reason) :
    ((upsert codec key update default).perform context).2 = context ↔
      ¬ (upsert codec key update default).LeavesBehind context := by
  rcases perform_upsert_cases codec context key update default with
    ⟨_, -, hdefault, hperform⟩ | ⟨entry, prepared, hprepared, herror, hok⟩
  · simp [hperform, LeavesBehind, hdefault]
  · cases hupdate : codec.decode entry >>= fun value => codec.encode (update value) with
    | ok updated =>
      rw [hok updated hupdate] at h
      cases h
    | error reason =>
      rw [herror reason hupdate]
      rcases hprepared with ⟨hget, rfl⟩ | ⟨hget, hdefault, rfl⟩
      · simp [LeavesBehind, hget]
      · have hleaves : (upsert codec key update default).LeavesBehind context :=
          ⟨hget, entry, reason, hdefault, hupdate⟩
        simp [Dict.insert_eq_self_iff, hget, hleaves]

/-- An access that fails leaves all entries as they are, unless it fails after it has set one. -/
theorem perform_eq_self_iff {access : Access} {reason : String}
    (h : (access.perform context).1 = .error reason) :
    (access.perform context).2 = context ↔ ¬ access.LeavesBehind context := by
  cases access with
  | get codec key => exact ⟨fun _ ↦ not_false, fun _ ↦ rfl⟩
  | insert codec key value => exact perform_insert_eq_self_iff h
  | upsert codec key update default => exact perform_upsert_eq_self_iff h

end Access

/-! ### Accesses in a row -/

/-- The entries after some accesses. -/
def after (context : Context) : List Access → Context
  | [] => context
  | access :: accesses => after (access.perform context).2 accesses

/-- Those of some accesses that succeed, if all of them are performed. -/
def succeeding (context : Context) : List Access → List Access
  | [] => []
  | access :: accesses =>
    let others := succeeding (access.perform context).2 accesses
    match (access.perform context).1 with
    | .ok _ => access :: others
    | .error _ => others

/-- No access fails after it has set an entry, if all of them are performed. -/
def NothingLeft (context : Context) : List Access → Prop
  | [] => True
  | access :: accesses =>
    ¬ access.LeavesBehind context ∧ NothingLeft (access.perform context).2 accesses

/-- Accesses that fail can be left out if they have left nothing behind. -/
theorem after_succeeding {context : Context} {accesses : List Access}
    (h : NothingLeft context accesses) :
    after context (succeeding context accesses) = after context accesses := by
  induction accesses generalizing context with
  | nil => rfl
  | cons access accesses ih =>
    obtain ⟨hfirst, hrest⟩ := h
    have ih := ih hrest
    rw [succeeding, after]
    cases houtcome : (access.perform context).1 with
    | ok _ => exact ih
    | error reason =>
      -- what comes next finds the entries that the failing access has found
      rw [(Access.perform_eq_self_iff houtcome).2 hfirst] at ih ⊢
      exact ih

/-- An access that fails, after whatever accesses at whatever types, changes nothing, unless it is
an insertion that has replaced an entry of another type or an update that has set a default. It
changes no entry with another key in any case. Accesses that fail without leaving anything behind
can be left out of a row. -/
theorem failing_access_changes_nothing_iff (context : Context) (accesses : List Access) :
    (∀ access reason, (Access.perform (after context accesses) access).1 = .error reason →
      ((Access.perform (after context accesses) access).2 = after context accesses ↔
        ¬ access.LeavesBehind (after context accesses)) ∧
      ∀ other, access.key ≠ other →
        Dict.get? (Access.perform (after context accesses) access).2 other
          = Dict.get? (after context accesses) other) ∧
    (NothingLeft context accesses →
      after context (succeeding context accesses) = after context accesses) :=
  ⟨fun access _ hfails ↦ ⟨Access.perform_eq_self_iff hfails,
    fun _ hother ↦ access.get?_perform_of_ne _ hother⟩, after_succeeding⟩

section Sample

/-- A context with an entry that is not a number. -/
def named : Context := [("name", .string "Some value")]

/-- Accesses to the entry as if it were a number or a truth value, and to another one. -/
def mismatched : List Access :=
  [.upsert Codec.int64 "name" (· + 1) 0, .get Codec.bool "name", .insert Codec.int64 "count" 1]

theorem failing_access_changes_nothing_iff_mismatched :
    (Access.perform (after named mismatched) (.get Codec.int64 "name")).1
      = .error "an integer is expected instead of a value of kind string" ∧
    ¬ (Access.get Codec.int64 "name").LeavesBehind (after named mismatched) ∧
    (Access.perform (after named mismatched) (.get Codec.int64 "name")).2
      = after named mismatched ∧
    NothingLeft named mismatched ∧
    after named (succeeding named mismatched) = after named mismatched := by
  have hread : (Access.perform (after named mismatched) (.get Codec.int64 "name")).1
      = .error "an integer is expected instead of a value of kind string" := rfl
  have hnothing : NothingLeft named mismatched := by
    refine ⟨?_, not_false, ?_, trivial⟩
    · rintro ⟨hpresent, -⟩
      cases hpresent
    · rintro ⟨_, _, _, -, habsent, -⟩
      cases habsent
  have hresult := failing_access_changes_nothing_iff named mismatched
  exact ⟨hread, not_false, (hresult.1 _ _ hread).1.2 not_false, hnothing, hresult.2 hnothing⟩

/-- An insertion at another type fails, since it cannot read the previous entry, but has replaced
it. -/
theorem failing_insert_changes_entry :
    ¬ ∀ (context : Context) (access : Access) (reason : String),
      (access.perform context).1 = .error reason → (access.perform context).2 = context :=
  fun h ↦ nomatch h named (.insert Codec.int64 "name" 1) _ rfl

end Sample

end Context

end GraphCache
