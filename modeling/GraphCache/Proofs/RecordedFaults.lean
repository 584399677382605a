import GraphCache.Proofs.MissingPolicies
import GraphCache.Proofs.Responses
import GraphCache.Proofs.Reuse

/-!
# Missing entities under both policies

Whether a missing entity is recorded does not depend on the order in which deferred fields finish,
as long as resolvers are determined: the fields that are deferred are the same, and each of them
either leads to a missing entity or does not. So an execution that ends at the first missing entity
does so if, and only if, an execution that makes missing entities `null` records one. It need not be
in the response: of a field that is replaced later on nothing is reported.

## Main definitions

* `PoliciesAgree`: how the outcomes under the two policies are related.
* `Deferred.LeadsToMissing`: a deferred field leads to a missing entity.

## Main results

* `Executor.recordedIn_missesEntity_iff`: whether a missing entity is recorded is determined.
* `Executor.policies_agree`: the outcomes under the two policies agree.
* `Executor.missing_entity_unreported`: an execution ends because of an entity that is not reported
  to be missing.
-/

namespace GraphCache

variable {World : Type}

/-! ### The same order -/

/-- The outcomes of a plan under both policies agree, given all faults that are recorded when
missing entities become `null`. -/
structure PoliciesAgree (strict lenient : Except ExecutionError Response) (recorded : List Fault) :
    Prop where
  /-- The execution ends because of a missing entity if and only if one is recorded, even if it is
  for a field that is replaced. -/
  ends_iff : (∃ key path, strict = .error (.missingEntity key path)) ↔ MissesEntity recorded
  /-- It ends, therefore, if a missing entity is reported. -/
  reported : ∀ response, lenient = .ok response →
    (∃ error ∈ response.errors, error.code? = some "MISSING_ENTITY") →
      ∃ key path, strict = .error (.missingEntity key path)
  /-- If it does not end so, then it does not matter which policy there is. -/
  same : (∀ key path, strict ≠ .error (.missingEntity key path)) → strict = lenient

namespace PoliciesAgree

variable {recorded : List Fault}

theorem ended (h : MissesEntity recorded) (key : String) (path : Path)
    (lenient : Except ExecutionError Response) :
    PoliciesAgree (.error (.missingEntity key path)) lenient recorded where
  ends_iff := ⟨fun _ ↦ h, fun _ ↦ ⟨key, path, rfl⟩⟩
  reported _ _ _ := ⟨key, path, rfl⟩
  same hne := absurd rfl (hne key path)

theorem finished (h : ¬ MissesEntity recorded) {response : Response}
    (hreported : (∃ error ∈ response.errors, error.code? = some "MISSING_ENTITY") →
      MissesEntity recorded) :
    PoliciesAgree (.ok response) (.ok response) recorded where
  ends_iff := ⟨nofun, fun hmisses ↦ absurd hmisses h⟩
  reported response' heq hcode := by
    cases heq
    exact absurd (hreported hcode) h
  same _ := rfl

/-- It does not matter which faults are recorded beyond whether an entity is missing. -/
theorem of_recorded {strict lenient : Except ExecutionError Response} {others : List Fault}
    (h : PoliciesAgree strict lenient recorded)
    (hrecorded : MissesEntity recorded ↔ MissesEntity others) :
    PoliciesAgree strict lenient others :=
  ⟨h.ends_iff.trans hrecorded, h.reported, h.same⟩

end PoliciesAgree

namespace Executor

variable {executor : Executor World}

/-- A missing entity that is reported was recorded. -/
theorem missesEntity_of_respond {progress : Progress}
    (h : ∃ error ∈ (respond progress).errors, error.code? = some "MISSING_ENTITY") :
    MissesEntity progress.faults := by
  obtain ⟨error, herror, hcode⟩ := h
  obtain ⟨fault, hfault, rfl⟩ := List.mem_map.1 herror
  rw [Fault.toGraphQLError, FieldError.code?_toGraphQLError, Option.some.injEq,
    FieldError.code_eq_missingEntity_iff] at hcode
  exact ⟨fault, (List.mergeSort_perm _ _).subset hfault, hcode⟩

variable (executor) in
/-- In the same world, and if deferred fields finish in the same order, the policies agree whatever
the resolvers do. -/
theorem executeIn_follows (order : FinishingOrder) (root : Root) (world : World) :
    PoliciesAgree ((executor.under .abort).executeIn order root world).1
      ((executor.under .nullify).executeIn order root world).1
      ((executor.under .nullify).recordedIn order root world) := by
  have hvalidate : (executor.under .abort).registry.validate (executor.under .abort).plan
      = (executor.under .nullify).registry.validate (executor.under .nullify).plan := rfl
  unfold executeIn recordedIn
  rw [hvalidate]
  cases (executor.under .nullify).registry.validate (executor.under .nullify).plan with
  | error error => exact ⟨⟨nofun, nofun⟩, nofun, fun _ ↦ rfl⟩
  | ok valid =>
    obtain ⟨⟨data, work⟩, s, hstart, hends⟩ := executor.start_follows root { world }
    obtain ⟨final, t, hdrive, hfaults, hlater⟩ :=
      executor.execution.driveIn_follows order work.deferred ⟨data, work.faults⟩ s
    have hlenient : (executor.under .nullify).execution.driveIn order ⟨work.deferred⟩
        ⟨data, work.faults⟩ s = (.ok final, t) := hdrive
    simp only [hstart, hlenient]
    rcases hends with ⟨hmisses, key, path, s', habort⟩ | ⟨hfinds, habort⟩
    · simp only [habort]
      exact .ended (missesEntity_append.2 (.inl hmisses)) key path _
    · simp only [habort]
      rcases hlater with ⟨hmisses, key, path, t', habort⟩ | ⟨hfindsLater, habort⟩
      · have hstrict : (executor.under .abort).execution.driveIn order ⟨work.deferred⟩
            ⟨data, work.faults⟩ s = (.error (.missingEntity key path), t') := habort
        simp only [hstrict]
        exact .ended (missesEntity_append.2 (.inr hmisses)) key path _
      · have hstrict : (executor.under .abort).execution.driveIn order ⟨work.deferred⟩
            ⟨data, work.faults⟩ s = (.ok final, t) := habort
        simp only [hstrict]
        refine .finished (fun hmisses ↦ (missesEntity_append.1 hmisses).elim hfinds hfindsLater)
          fun hreported ↦ ?_
        obtain ⟨fault, hfault, hkey⟩ := missesEntity_of_respond hreported
        refine ⟨fault, List.mem_append.2 ?_, hkey⟩
        exact (hfaults fault hfault).imp_left (List.mem_append_left _)

end Executor

/-! ### Any order -/

namespace Deferred.Alike

variable {plan : QueryPlan} {a b c : Deferred World}

theorem refl_left (h : a.Alike plan b) : a.Alike plan a := by
  obtain ⟨result, hresult, -⟩ := h.task
  exact ⟨rfl, rfl, rfl, ⟨result, hresult, hresult⟩, h.field ▸ h.planned⟩

theorem refl_right (h : a.Alike plan b) : b.Alike plan b := by
  obtain ⟨result, -, hresult⟩ := h.task
  exact ⟨rfl, rfl, rfl, ⟨result, hresult, hresult⟩, h.planned⟩

/-- A task gives one result only, if there is a world in which it can be finished. -/
theorem euclidean (world : World) (hab : a.Alike plan b) (hac : a.Alike plan c) :
    b.Alike plan c := by
  obtain ⟨result, ha, hb⟩ := hab.task
  obtain ⟨other, ha', hc⟩ := hac.task
  obtain rfl : result = other := (ha world).symm.trans (ha' world)
  exact ⟨hab.trail.symm.trans hac.trail, hab.field.symm.trans hac.field,
    hab.typeName.symm.trans hac.typeName, ⟨result, hb, hc⟩, hac.planned⟩

theorem list_euclidean (world : World) {as bs cs : List (Deferred World)}
    (hab : List.Forall₂ (Alike plan) as bs) (hac : List.Forall₂ (Alike plan) as cs) :
    List.Forall₂ (Alike plan) bs cs := by
  induction hab generalizing cs with
  | nil =>
    cases hac
    exact .nil
  | cons hfirst _ ih =>
    cases hac with
    | cons hfirst' hrest' => exact .cons (hfirst.euclidean world hfirst') (ih hrest')

end Deferred.Alike

theorem Work.Alike.euclidean {plan : QueryPlan} {a b c : Work World} (world : World)
    (hab : a.Alike plan b) (hac : a.Alike plan c) : b.Alike plan c where
  faults := hab.faults.symm.trans hac.faults
  deferred := Deferred.Alike.list_euclidean world hab.deferred hac.deferred
  droppedFaults := hab.droppedFaults.symm.trans hac.droppedFaults
  superseded := Deferred.Alike.list_euclidean world hab.superseded hac.superseded

/-- The same faults are recorded in works that are alike. -/
theorem Work.Alike.missesEntity_iff {plan : QueryPlan} {a b : Work World} (h : a.Alike plan b) :
    a.MissesEntity ↔ b.MissesEntity := by
  rw [Work.MissesEntity, Work.MissesEntity, Work.recorded, Work.recorded, h.faults, h.droppedFaults]

/-- Finishing a deferred field without reuse, or one that is deferred by this in turn, records a
missing entity in some world. -/
inductive Deferred.LeadsToMissing (execution : ForgetfulExecution World) : Deferred World → Prop
  | here {deferred : Deferred World} {world : World} {completed : Completed World Json}
    {state : RunState World}
    (hsettle : execution.settle deferred { world } = (.ok completed, state))
    (h : completed.2.MissesEntity) : LeadsToMissing execution deferred
  | later {deferred more : Deferred World} {world : World} {completed : Completed World Json}
    {state : RunState World}
    (hsettle : execution.settle deferred { world } = (.ok completed, state))
    (hmem : more ∈ completed.2.deferred) (h : LeadsToMissing execution more) :
    LeadsToMissing execution deferred

/-- Nothing is known about entities when an execution begins. -/
theorem Memo.transparent_fresh {execution : Execution World} {plan : QueryPlan} (world : World) :
    Memo.Transparent execution plan ({ world } : RunState World).memo :=
  Memo.Describes.nil

namespace Execution

variable {execution : Execution World} {plan : QueryPlan} (hplan : plan.Planned)
  (hanswers : execution.AnswersAlike plan)

include hplan hanswers

/-- Fields that are deferred to tasks with the same results leave the same work behind when they are
finished without reuse. -/
theorem settle_forgetful_alike {a b : Deferred World} (halike : a.Alike plan b) {world : World}
    {completed : Completed World Json} {state : RunState World}
    (hsettle : execution.forgetful.settle a { world } = (.ok completed, state)) (world' : World) :
    ∃ again state', execution.forgetful.settle b { world := world' } = (.ok again, state') ∧
      Work.Alike plan completed.2 again.2 := by
  -- Both are compared with finishing the first field with reuse.
  obtain ⟨middle, _, hmiddle, -, hwork⟩ :=
    (settle_alike hplan hanswers halike.refl_left).of_ok_right hsettle (s := { world })
      (Memo.transparent_fresh _)
  obtain ⟨again, state', hagain, -, hwork'⟩ :=
    (settle_alike hplan hanswers halike).of_ok (Memo.transparent_fresh _) hmiddle
      { world := world' }
  exact ⟨again, state', hagain, hwork.euclidean world hwork'⟩

/-- Fields that are deferred to tasks with the same results lead to missing entities in the same
cases. -/
theorem leadsToMissing_of_alike {a b : Deferred World}
    (h : a.LeadsToMissing execution.forgetful) (halike : a.Alike plan b) :
    b.LeadsToMissing execution.forgetful := by
  induction h generalizing b with
  | @here a world completed state hsettle hmisses =>
    obtain ⟨again, state', hagain, hwork⟩ :=
      settle_forgetful_alike hplan hanswers halike hsettle world
    exact .here hagain (hwork.missesEntity_iff.1 hmisses)
  | @later a more world completed state hsettle hmem _ ih =>
    obtain ⟨again, state', hagain, hwork⟩ :=
      settle_forgetful_alike hplan hanswers halike hsettle world
    obtain ⟨index, hindex, rfl⟩ := List.getElem_of_mem hmem
    have hindex' : index < again.2.deferred.length := hwork.deferred.length_eq ▸ hindex
    exact .later hagain (List.getElem_mem hindex') (ih (hwork.deferred.get hindex hindex'))

/-- A deferred field leads to a missing entity if one is recorded when it is finished, in whatever
world, or if a field that is deferred by this leads to one. -/
theorem leadsToMissing_iff {deferred : Deferred World} (hself : deferred.Alike plan deferred)
    {world : World} {completed : Completed World Json} {state : RunState World}
    (hsettle : execution.forgetful.settle deferred { world } = (.ok completed, state)) :
    deferred.LeadsToMissing execution.forgetful ↔ completed.2.MissesEntity ∨
      ∃ more ∈ completed.2.deferred, more.LeadsToMissing execution.forgetful := by
  refine ⟨fun h ↦ ?_, fun h ↦ h.elim (.here hsettle) fun ⟨_, hmem, hmore⟩ ↦
    .later hsettle hmem hmore⟩
  -- what is recorded in another world is recorded in this one
  have hsame : ∀ world' other state',
      execution.forgetful.settle deferred { world := world' } = (.ok other, state') →
        Work.Alike plan other.2 completed.2 := by
    intro world' other state' hother
    obtain ⟨again, _, hagain, hwork⟩ := settle_forgetful_alike hplan hanswers hself hother world
    obtain ⟨hcompleted, -⟩ := Prod.mk.inj (hsettle.symm.trans hagain)
    exact Except.ok.inj hcompleted ▸ hwork
  cases h with
  | here hother hmisses => exact .inl ((hsame _ _ _ hother).missesEntity_iff.1 hmisses)
  | later hother hmem hmore =>
    have hwork := hsame _ _ _ hother
    obtain ⟨index, hindex, rfl⟩ := List.getElem_of_mem hmem
    have hindex' : index < completed.2.deferred.length := hwork.deferred.length_eq ▸ hindex
    exact .inr ⟨_, List.getElem_mem hindex',
      leadsToMissing_of_alike hplan hanswers hmore (hwork.deferred.get hindex hindex')⟩

/-- A missing entity is recorded while deferred fields finish if and only if one of them leads to
it, in whatever order they finish. -/
theorem recordedIn_missesEntity_iff
    (hsettles : ∀ deferred, (execution.settle deferred).Achieves (fun _ => True) fun _ => True)
    (order : FinishingOrder) (waiting again : List (Deferred World))
    (hwaiting : List.Forall₂ (Deferred.Alike plan) waiting again) (s : RunState World)
    (hsound : Memo.Transparent execution plan s.memo) (world : World) :
    MissesEntity (execution.recordedIn order ⟨waiting⟩ s) ↔
      ∃ deferred ∈ again, deferred.LeadsToMissing execution.forgetful := by
  by_cases hempty : waiting = []
  · subst hempty
    obtain rfl := List.forall₂_nil_left_iff.1 hwaiting
    rw [recordedIn_nil]
    exact ⟨nofun, nofun⟩
  · have hindex : order 0 % waiting.length < waiting.length :=
      Nat.mod_lt _ (List.length_pos_iff.2 hempty)
    have hindex' : order 0 % waiting.length < again.length := hwaiting.length_eq ▸ hindex
    have hnext : waiting[order 0 % waiting.length].Alike plan again[order 0 % waiting.length] :=
      hwaiting.get hindex hindex'
    have hothers : List.Forall₂ (Deferred.Alike plan)
        (waiting.eraseIdx (order 0 % waiting.length))
        (again.eraseIdx (order 0 % waiting.length)) := by
      rw [List.eraseIdx_eq_take_drop_succ, List.eraseIdx_eq_take_drop_succ]
      exact List.rel_append (List.forall₂_take _ hwaiting) (List.forall₂_drop _ hwaiting)
    rw [recordedIn_cons order hindex rfl]
    obtain ⟨completed, s', hsettle, -, -⟩ := hsettles waiting[order 0 % waiting.length] s trivial
    rcases settle_alike hplan hanswers hnext s { world } hsound with
      ⟨completed', other, t, t', hsettled, hagain, hsound', -, hwork⟩ | ⟨error, t, t', herror, -⟩
    · rw [hsettled]
      have hlater := recordedIn_missesEntity_iff hsettles order.tail _ _
        (List.rel_append hothers hwork.deferred) t hsound' world
      have hpick : ∀ deferred, deferred ∈ again ↔ deferred = again[order 0 % waiting.length] ∨
          deferred ∈ again.eraseIdx (order 0 % waiting.length) := fun deferred ↦ by
        rw [← (List.getElem_cons_eraseIdx_perm hindex').mem_iff, List.mem_cons]
      simp only [missesEntity_append, hlater, hpick, List.mem_append, or_and_right, exists_or,
        exists_eq_left, leadsToMissing_iff hplan hanswers hnext.refl_right hagain]
      have hhere : MissesEntity completed'.2.recorded ↔ other.2.MissesEntity :=
        hwork.missesEntity_iff
      rw [hhere]
      grind
    · cases hsettle.symm.trans herror
termination_by (⟨waiting⟩ : Queue World)
decreasing_by
  exact ⟨_, _, completed'.2.deferred, execution.settle_rank_lt _ _ _ _ hsettled,
    (List.getElem_cons_eraseIdx_perm hindex).symm, .refl _⟩

end Execution

namespace Executor

/-- Whether a missing entity is recorded does not depend on the world or on the order in which
deferred fields finish. -/
theorem recordedIn_missesEntity_iff {executor : Executor World} (hplan : executor.plan.Planned)
    (hanswers : executor.execution.AnswersAlike executor.plan) (root : Root)
    (order order' : FinishingOrder) (world world' : World) :
    MissesEntity ((executor.under .nullify).recordedIn order root world) ↔
      MissesEntity ((executor.under .nullify).recordedIn order' root world') := by
  have hanswers' : (executor.under .nullify).execution.AnswersAlike
      (executor.under .nullify).plan := hanswers
  have hsettles : ∀ deferred, ((executor.under .nullify).execution.settle deferred).Achieves
      (fun _ => True) fun _ => True := fun deferred ↦
    (executor.execution.settle_follows deferred).succeeds
  have hplan' : (executor.under .nullify).plan.Planned := hplan
  have halike : (executor.under .nullify).execution.Agrees executor.plan
      ((executor.under .nullify).start root) ((executor.under .nullify).forgetful.start root) :=
    start_alike hplan' hanswers' root
  -- both runs are compared with the first pass of one that reuses nothing
  obtain ⟨⟨data, work⟩, s, hstart, -⟩ := executor.start_follows root { world }
  obtain ⟨⟨data', work'⟩, t, hagain, -, hwork⟩ :=
    halike.of_ok (Memo.transparent_fresh _) hstart { world }
  have hrecorded : ∀ (order : FinishingOrder) (world' : World),
      executor.registry.validate executor.plan = .ok () →
        (MissesEntity ((executor.under .nullify).recordedIn order root world') ↔
          work'.MissesEntity ∨ ∃ deferred ∈ work'.deferred,
            deferred.LeadsToMissing (executor.under .nullify).execution.forgetful) := by
    intro order world' hvalid
    have hvalid' : (executor.under .nullify).registry.validate (executor.under .nullify).plan
        = .ok () := hvalid
    rcases halike { world := world' } { world } .nil with
        ⟨⟨data'', work''⟩, again, s', t', hstart', hagain', hsound, -, hwork'⟩ |
        ⟨error, s', t', -, herror⟩
    · obtain ⟨hsame, -⟩ := Prod.mk.inj (hagain.symm.trans hagain')
      obtain rfl := Except.ok.inj hsame
      have hdrive := Execution.recordedIn_missesEntity_iff hplan hanswers' hsettles order _ _
        hwork'.deferred s' hsound world
      have hhere : MissesEntity work''.recorded ↔ work'.MissesEntity := hwork'.missesEntity_iff
      simp only [recordedIn, hvalid', hstart', missesEntity_append, hdrive, hhere]
    · cases hagain.symm.trans herror
  cases hvalid : executor.registry.validate executor.plan with
  | ok valid => rw [hrecorded order world hvalid, hrecorded order' world' hvalid]
  | error error =>
    have hvalid' : (executor.under .nullify).registry.validate (executor.under .nullify).plan
        = .error error := hvalid
    simp only [recordedIn, hvalid']

/-- An execution that ends at the first missing entity does so if and only if an execution that
makes missing entities `null` records one, in its response or for a field that is replaced; and if
it does not, then both have the same outcome. Neither the order in which deferred fields finish nor
the world matters, as long as the answers of resolvers are determined by the type, the field, the
object and the arguments. -/
theorem policies_agree (executor : Executor World) (hplan : executor.plan.Planned)
    {atOnce : (typeName field : String) → (parent arguments : Object) → Bool}
    {results : ResolverResults}
    (hanswers : executor.registry.Answers executor.scope atOnce results) (root : Root)
    (order order' : FinishingOrder) (world world' : World) :
    PoliciesAgree ((executor.under .abort).executeIn order root world).1
        ((executor.under .nullify).executeIn order' root world').1
        ((executor.under .nullify).recordedIn order' root world') ∧
      PoliciesAgree ((executor.under .abort).execute root world).1
        ((executor.under .nullify).execute root world').1
        ((executor.under .nullify).recordedIn order' root world') := by
  have halike : executor.execution.AnswersAlike executor.plan :=
    fun _ _ _ typeName resolver hlookup ↦ hanswers.alike hlookup
  have hplan' : (executor.under .nullify).plan.Planned := hplan
  have hexpected := fun order world ↦ execute_eq_expected hplan' rfl hanswers.1 order root world
  have hagree : ∀ order, PoliciesAgree ((executor.under .abort).executeIn order root world).1
      ((executor.under .nullify).expected results root)
      ((executor.under .nullify).recordedIn order' root world') := fun order ↦ by
    have hsame := executor.executeIn_follows order root world
    rw [(hexpected order world).1] at hsame
    exact hsame.of_recorded (recordedIn_missesEntity_iff hplan halike root _ _ _ _)
  rw [(hexpected order' world').1, (hexpected order' world').2]
  obtain ⟨followed, hfollowed⟩ := (executor.under .abort).exists_order root world
  exact ⟨hagree order, hfollowed ▸ hagree followed⟩

section Sample

/-- Lists two people, one of whom is not known, and asks for a greeting, which is left to a task. -/
def guestsExecutor : Executor Nat :=
  { peopleExecutor with
    store :=
      [(peoplePlan.rootKey, [("people", .array [.reference "Person:1", .reference "Person:2"])]),
        ("Person:1", [("name", .string "Ada")])] }

theorem guestsExecutor_policies_agree :
    guestsExecutor.plan.Planned ∧
      guestsExecutor.registry.Answers guestsExecutor.scope (fun _ _ _ _ => false)
        (fun _ _ _ _ => .ok (.string "hello")) ∧
      PoliciesAgree ((guestsExecutor.under .abort).executeIn (fun _ => 1) .query 0).1
        ((guestsExecutor.under .nullify).executeIn (fun _ => 0) .query 7).1
        ((guestsExecutor.under .nullify).recordedIn (fun _ => 0) .query 7) ∧
      PoliciesAgree ((guestsExecutor.under .abort).execute .query 0).1
        ((guestsExecutor.under .nullify).execute .query 7).1
        ((guestsExecutor.under .nullify).recordedIn (fun _ => 0) .query 7) :=
  have hanswers : guestsExecutor.registry.Answers guestsExecutor.scope (fun _ _ _ _ => false)
      fun _ _ _ _ => .ok (.string "hello") := peopleExecutor_answers
  ⟨peoplePlan_planned, hanswers, policies_agree guestsExecutor peoplePlan_planned hanswers .query
    (fun _ ↦ 1) (fun _ ↦ 0) 0 7⟩

/-- Selects an item under a response key, and then another field under the same key. -/
def replacedItemPlan : QueryPlan where
  kind := .query
  operationName := none
  rootType := "Query"
  variableDefaults := []
  selection := ⟨0,
    [.nested ⟨"gone", "a", false, [], some [], some "gone", some "Query", [], []⟩ 1
        [.leaf ⟨"id", "id", false, [], some [], some "id", none, [], []⟩],
      .leaf ⟨"here", "a", false, [], some [], some "here", some "Query", [], []⟩]⟩

/-- The item is missing, the other field is there. -/
def replacedItemExecutor : Executor Nat where
  plan := replacedItemPlan
  registry := []
  store := [(replacedItemPlan.rootKey,
    [("gone", .reference "Item:1"), ("here", .bool true)])]

/-- An execution may end because of a missing entity that is not reported by the execution under the
other policy: the field for which it is recorded is replaced by a later one. -/
theorem missing_entity_unreported :
    replacedItemExecutor.plan.Planned ∧
      ((replacedItemExecutor.under .abort).execute .query 0).1
        = .error (.missingEntity "Item:1" [.key "a"]) ∧
      ((replacedItemExecutor.under .nullify).execute .query 0).1
        = .ok ⟨some (.object [("a", .bool true)]), []⟩ := by
  have hplan : replacedItemExecutor.plan.Planned := .ofSelections (show planSelections
    [.nested { name := "gone", aliasName := some "a" } [.leaf { name := "id" }],
      .leaf { name := "here", aliasName := some "a" }] [] "Query" = .ok replacedItemPlan by rfl)
  let work : Work Nat := { droppedFaults := [⟨⟨[.key "a"], [0]⟩, .missingEntity "Item:1"⟩] }
  have hstart : (replacedItemExecutor.under .nullify).start .query { world := 0 }
      = (.ok (.object [("a", .bool true)], work), { world := 0 }) := by
    rfl
  refine ⟨hplan, by rfl, ?_⟩
  rw [execute_of_start (Registry.validate_of_remote _ rfl) hstart rfl]
  simp [respond, Fault.inOrder, work]

end Sample

end Executor

end GraphCache
