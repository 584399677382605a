import GraphCache.Proofs.LoopHeads
import GraphCache.Proofs.Readings
import GraphCache.Proofs.Reuse

/-!
# Errors and nulls correspond

Every error of a response belongs to a slot of its own in the data, which holds `null`, and errors
are listed in the lexicographic order of their positions in the plan. This holds for all resolvers,
whatever they depend on, whenever they answer and whatever their answers are.

## Main definitions

* `GraphQLError.isOutside`: errors that do not lie in a given part of the data.

## Main results

* `Trail.lex_iff`: the order in which faults are reported is the lexicographic order of positions.
* `Fault.filter_isOutside_eq`: which errors lie outside a part of the data, and in which order.
* `Executor.exists_fits_of_response`: the faults in a response have slots in its data.
* `Executor.errors_and_nulls_correspond`: so errors and nulls correspond.
-/

namespace GraphCache

variable {World : Type}

/-- Positions that do not come later than others are before them lexicographically. -/
theorem Trail.lex_iff (is js : List Nat) :
    List.Lex (· < ·) is js ↔ positionsLE js is = false := by
  induction is generalizing js with
  | nil =>
    cases js with
    | nil => exact ⟨nofun, nofun⟩
    | cons j js => exact ⟨fun _ ↦ rfl, fun _ ↦ .nil⟩
  | cons i is ih =>
    cases js with
    | nil => exact ⟨nofun, nofun⟩
    | cons j js =>
      simp only [List.cons_lex_cons_iff, ih, positionsLE, Bool.or_eq_false_iff,
        Bool.and_eq_false_iff, decide_eq_false_iff_not, beq_eq_false_iff_ne]
      constructor
      · rintro (hlt | ⟨rfl, hle⟩)
        · exact ⟨by omega, .inl (by omega)⟩
        · exact ⟨by omega, .inr hle⟩
      · rintro ⟨hle, hne | hrest⟩
        · exact .inl (by omega)
        · rcases Nat.lt_or_eq_of_le (Nat.le_of_not_lt hle) with hlt | heq
          · exact .inl hlt
          · exact .inr ⟨heq, hrest⟩

/-- Whether the path of an error does not pass a place. -/
def GraphQLError.isOutside (there : Path → Bool) (error : GraphQLError) : Bool :=
  error.path.all fun path => !Path.passes there path

namespace Fault

theorem path_toGraphQLError (fault : Fault) :
    fault.toGraphQLError.path = some fault.trail.path := by
  rw [toGraphQLError, FieldError.toGraphQLError, GraphQLError.withCode]
  split
  · rfl
  · rfl

theorem isOutside_toGraphQLError (there : Path → Bool) (fault : Fault) :
    fault.toGraphQLError.isOutside there = !Path.passes there fault.trail.path := by
  rw [GraphQLError.isOutside, path_toGraphQLError]
  rfl

/-- Faults that are the same outside some places are reported alike outside these places. -/
theorem filter_isOutside_eq {there : Path → Bool} {a b : List Fault}
    (ha : a.Pairwise Before) (hb : b.Pairwise Before)
    (h : ∀ fault : Fault, Path.passes there fault.trail.path = false →
      (fault ∈ a ↔ fault ∈ b)) :
    (a.map toGraphQLError).filter (·.isOutside there)
      = (b.map toGraphQLError).filter (·.isOutside there) := by
  have hfilter (faults : List Fault) :
      (faults.map toGraphQLError).filter (·.isOutside there)
        = (faults.filter fun fault => !Path.passes there fault.trail.path).map
            toGraphQLError := by
    rw [List.filter_map]
    congr 2
    funext fault
    exact isOutside_toGraphQLError there fault
  rw [hfilter, hfilter]
  congr 1
  refine eq_of_sorted (ha.filter _) (hb.filter _) fun fault ↦ ?_
  rw [List.mem_filter, List.mem_filter]
  refine and_congr_left fun hpasses ↦ h fault ?_
  simpa using hpasses

end Fault

namespace Executor

variable {executor : Executor World} {root : Root} {world : World} {response : Response}

/-- There is a response only if the plan can be served. -/
theorem validate_of_response (order : FinishingOrder)
    (h : (executor.executeIn order root world).1 = .ok response ∨
      (executor.execute root world).1 = .ok response) :
    executor.registry.validate executor.plan = .ok () := by
  cases hvalid : executor.registry.validate executor.plan with
  | ok valid => rfl
  | error error => simp [executeIn, execute, hvalid] at h

/-- The faults in a response have slots of their own in its data. -/
theorem exists_fits_of_response (order : FinishingOrder)
    (h : (executor.executeIn order root world).1 = .ok response ∨
      (executor.execute root world).1 = .ok response) :
    ∃ (data : Json) (faults : List Fault),
      response = ⟨some data, (Fault.inOrder faults).map Fault.toGraphQLError⟩ ∧
      Work.Fits executor.execution.variableValues executor.plan.selection.fields data
        ({ faults } : Work World) := by
  obtain ⟨last, hreached, hempty, rfl⟩ := LoopHead.Reached.exists_last_of_response h
  have hfits := hreached.accounted.fits
  rw [hempty] at hfits
  exact ⟨last.progress.data, last.progress.faults, rfl, hfits⟩

/-- No two errors of a response have the same path. -/
theorem nodup_error_paths (order : FinishingOrder)
    (h : (executor.executeIn order root world).1 = .ok response ∨
      (executor.execute root world).1 = .ok response) : (response.errors.map (·.path)).Nodup := by
  obtain ⟨data, faults, rfl, hfits⟩ := exists_fits_of_response order h
  have hpaths : ((Fault.inOrder faults).map Fault.toGraphQLError).map (·.path)
      = ((Fault.inOrder faults).map (·.trail.path)).map some := by
    simp [Function.comp_def, Fault.path_toGraphQLError]
  have honce : (faults.map (·.trail.path)).Nodup := by
    simpa [Work.trails, Function.comp_def] using hfits.vacancies.once
  rw [hpaths]
  exact (((Fault.inOrder_perm faults).map _).nodup_iff.2 honce).map fun _ _ ↦ Option.some.inj

/-- Of errors with different paths exactly one has the path of a given one. -/
theorem filter_path_eq {errors : List GraphQLError} (honce : (errors.map (·.path)).Nodup)
    {error : GraphQLError} (herror : error ∈ errors) :
    errors.filter (·.path == error.path) = [error] := by
  induction errors with
  | nil => cases herror
  | cons first rest ih =>
    obtain ⟨hfresh, hrest⟩ := List.nodup_cons.1 honce
    rcases List.mem_cons.1 herror with rfl | herror
    · rw [List.filter_cons_of_pos (by simp), List.filter_eq_nil_iff.2]
      intro other hother
      have hmem : other.path ∈ rest.map (·.path) := List.mem_map_of_mem hother
      have hne : other.path ≠ error.path := by
        intro heq
        rw [heq] at hmem
        exact hfresh hmem
      simpa using hne
    · have hmem : error.path ∈ rest.map (·.path) := List.mem_map_of_mem herror
      have hne : first.path ≠ error.path := by
        intro heq
        rw [← heq] at hmem
        exact hfresh hmem
      rw [List.filter_cons_of_neg (by simpa using hne), ih hrest herror]

/-- Errors and nulls correspond. The path of each error leads to a slot of the data that holds
`null`, no two errors have the same path, and the errors come in strictly increasing lexicographic
order of their positions in the plan and in lists. -/
theorem errors_and_nulls_correspond (order : FinishingOrder)
    (h : (executor.executeIn order root world).1 = .ok response ∨
      (executor.execute root world).1 = .ok response) :
    ∃ (data : Json) (faults : List Fault), response = ⟨some data, faults.map Fault.toGraphQLError⟩ ∧
      (∀ error ∈ response.errors, ∃ path, error.path = some path ∧ data.at? path = some .null) ∧
      (response.errors.map (·.path)).Nodup ∧
      faults.Pairwise (fun a b => List.Lex (· < ·) a.trail.order b.trail.order) ∧
      ∀ fault ∈ faults, ∃ inner, Trail.Within executor.execution.variableValues
        executor.plan.selection.fields fault.trail.path fault.trail.order inner := by
  have honce := nodup_error_paths order h
  obtain ⟨data, faults, rfl, hfits⟩ := exists_fits_of_response order h
  have hperm := Fault.inOrder_perm faults
  refine ⟨data, Fault.inOrder faults, rfl, ?_, honce, ?_, ?_⟩
  · intro error herror
    obtain ⟨fault, hfault, rfl⟩ := List.mem_map.1 herror
    have htrail : fault.trail ∈ ({ faults } : Work World).trails :=
      Work.mem_trails.2 (.inl ⟨fault, hperm.mem_iff.1 hfault, rfl⟩)
    exact ⟨fault.trail.path, fault.path_toGraphQLError,
      (hfits.vacancies.awaits _ (List.mem_map_of_mem htrail)).at?⟩
  · exact hfits.inOrder_sorted.imp fun hbefore ↦ (Trail.lex_iff _ _).2 hbefore
  · exact fun fault hfault ↦ hfits.placed.faults fault (hperm.mem_iff.1 hfault)

section Sample

theorem peopleExecutor_gives (scope : ResolverScope) :
    peopleExecutor.registry.Gives scope fun _ _ _ _ => .ok (.string "hello") := by
  refine Registry.gives_of_forall_mem fun entry hentry parent arguments world ↦ ?_
  obtain rfl := List.mem_singleton.1 hentry
  exact fun _ ↦ rfl

/-- The list refers three times to a person who is not there. -/
def strangersExecutor : Executor Nat where
  plan := peoplePlan
  registry := peopleExecutor.registry
  store := [(peoplePlan.rootKey,
    [("people", .array (List.replicate 3 (.reference "Person:2")))])]

theorem strangersExecutor_errors_and_nulls_correspond :
    ∃ response, (strangersExecutor.execute .query 0).1 = .ok response ∧
      response.errors.length = 3 ∧
      ∃ (data : Json) (faults : List Fault),
        response = ⟨some data, faults.map Fault.toGraphQLError⟩ ∧
        (∀ error ∈ response.errors, ∃ path, error.path = some path ∧ data.at? path = some .null) ∧
        (response.errors.map (·.path)).Nodup ∧
        faults.Pairwise (fun a b => List.Lex (· < ·) a.trail.order b.trail.order) ∧
        ∀ fault ∈ faults, ∃ inner, Trail.Within strangersExecutor.execution.variableValues
          strangersExecutor.plan.selection.fields fault.trail.path fault.trail.order inner := by
  have hgives : strangersExecutor.registry.Gives strangersExecutor.scope
      fun _ _ _ _ => .ok (.string "hello") := peopleExecutor_gives strangersExecutor.scope
  have hexecute := execute_eq_response peoplePlan_planned rfl hgives rfl .query 0
  exact ⟨_, hexecute, rfl, errors_and_nulls_correspond (fun _ ↦ 0) (.inr hexecute)⟩

end Sample

end Executor

end GraphCache
