import GraphCache.Proofs.Answers
import GraphCache.Proofs.Relocation
import Mathlib.Data.List.Forall2

/-!
# Computations in lock-step

Two computations of executions are in lock-step when they fail with the same error, or yield the
same values and leave work behind that is alike: the same faults, and the same fields deferred to
tasks that give the same results.

## Main definitions

* `Deferred.Alike`, `Work.Alike`, `Assembler.Alike`: deferred fields, work and objects under
  construction that are alike.
* `Run.Alike`: computations in lock-step, whatever their states are.

## Main results

* `Assembler.Alike.insert`, `Assembler.Alike.work`: setting a field and finishing an object.
* `Run.Alike.bind`, `Run.Alike.act`: computations one after the other.
-/

namespace GraphCache

variable {World α β : Type} {plan : QueryPlan}

/-! ### Work that is alike -/

/-- The same field of the plan was deferred, to tasks that give the same result. -/
structure Deferred.Alike (plan : QueryPlan) (a b : Deferred World) : Prop where
  /-- The position is the same. -/
  trail : a.trail = b.trail
  /-- The field is the same. -/
  field : a.plan = b.plan
  /-- The type on which the resolver is registered is the same. -/
  typeName : a.typeName = b.typeName
  /-- The tasks give the same result. -/
  task : ∃ result, a.task.Gives result ∧ b.task.Gives result
  /-- The field belongs to the plan. -/
  planned : plan.Has b.plan

/-- The same work, except that tasks may differ as long as they give the same results. -/
structure Work.Alike (plan : QueryPlan) (a b : Work World) : Prop where
  /-- The faults are the same. -/
  faults : a.faults = b.faults
  /-- The deferred fields are alike. -/
  deferred : List.Forall₂ (Deferred.Alike plan) a.deferred b.deferred
  /-- The faults of replaced fields are the same. -/
  droppedFaults : a.droppedFaults = b.droppedFaults
  /-- The deferred fields that were replaced are alike. -/
  superseded : List.Forall₂ (Deferred.Alike plan) a.superseded b.superseded

namespace Work.Alike

theorem none : Work.Alike plan (Work.none : Work World) Work.none :=
  ⟨rfl, .nil, rfl, .nil⟩

theorem ofFault (trail : Trail) (error : FieldError) :
    Work.Alike plan (Work.ofFault trail error : Work World) (Work.ofFault trail error) :=
  ⟨rfl, .nil, rfl, .nil⟩

theorem append {a b c d : Work World} (hab : Work.Alike plan a b) (hcd : Work.Alike plan c d) :
    Work.Alike plan (a ++ c) (b ++ d) where
  faults := congrArg₂ _ hab.faults hcd.faults
  deferred := List.rel_append hab.deferred hcd.deferred
  droppedFaults := congrArg₂ _ hab.droppedFaults hcd.droppedFaults
  superseded := List.rel_append hab.superseded hcd.superseded

theorem giveUp {a b : Work World} (h : Work.Alike plan a b) :
    Work.Alike plan a.giveUp b.giveUp where
  faults := rfl
  deferred := .nil
  droppedFaults := congrArg₂ _ h.droppedFaults h.faults
  superseded := List.rel_append h.superseded h.deferred

theorem isClean_eq {a b : Work World} (h : Work.Alike plan a b) : a.isClean = b.isClean := by
  have hisEmpty {xs ys : List (Deferred World)} (h : List.Forall₂ (Deferred.Alike plan) xs ys) :
      xs.isEmpty = ys.isEmpty := by
    cases h with
    | nil => rfl
    | cons _ _ => rfl
  rw [isClean, isClean, h.faults, h.droppedFaults, hisEmpty h.deferred, hisEmpty h.superseded]

theorem foldl {as bs : List (Work World)} (h : List.Forall₂ (Work.Alike plan) as bs)
    {a b : Work World} (hab : Work.Alike plan a b) :
    Work.Alike plan (as.foldl (· ++ ·) a) (bs.foldl (· ++ ·) b) := by
  induction h generalizing a b with
  | nil => exact hab
  | cons hfirst _ ih => exact ih (hab.append hfirst)

end Work.Alike

/-- Objects under construction with the same fields, whose work is alike. -/
structure Assembler.Alike (plan : QueryPlan) (a b : Assembler World) : Prop where
  /-- The fields are the same. -/
  object : a.object = b.object
  /-- The work under each key is alike. -/
  pending : List.Forall₂ (fun x y => x.1 = y.1 ∧ Work.Alike plan x.2 y.2) a.pending b.pending
  /-- The work of replaced fields is alike. -/
  replaced : List.Forall₂ (Work.Alike plan) a.replaced b.replaced

namespace Assembler.Alike

variable {a b : Assembler World}

theorem empty : Assembler.Alike plan (Assembler.empty : Assembler World) .empty :=
  ⟨rfl, .nil, .nil⟩

theorem workOf? (h : Assembler.Alike plan a b) (key : String) :
    List.Forall₂ (Work.Alike plan) (a.workOf? key).toList (b.workOf? key).toList := by
  have hpending := h.pending
  unfold Assembler.workOf?
  generalize a.pending = xs at hpending
  generalize b.pending = ys at hpending
  induction hpending with
  | nil => exact .nil
  | @cons x y xs ys hxy _ ih =>
    obtain ⟨kx, wx⟩ := x
    obtain ⟨ky, wy⟩ := y
    obtain ⟨rfl, hwork⟩ : kx = ky ∧ Work.Alike plan wx wy := hxy
    rw [Dict.get?_cons, Dict.get?_cons]
    split
    · exact .cons hwork .nil
    · exact ih

theorem others (h : Assembler.Alike plan a b) (key : String) :
    List.Forall₂ (fun x y => x.1 = y.1 ∧ Work.Alike plan x.2 y.2)
      (a.pending.filter (·.1 != key)) (b.pending.filter (·.1 != key)) := by
  have hpending := h.pending
  generalize a.pending = xs at hpending
  generalize b.pending = ys at hpending
  induction hpending with
  | nil => exact .nil
  | cons hxy _ ih =>
    rw [List.filter_cons, List.filter_cons, hxy.1]
    split
    · exact .cons hxy ih
    · exact ih

theorem insert (h : Assembler.Alike plan a b) (key : String) (value : Json) {v w : Work World}
    (hwork : Work.Alike plan v w) :
    Assembler.Alike plan (a.insert key value v).1 (b.insert key value w).1 where
  object := by
    show Dict.insert a.object key value = Dict.insert b.object key value
    rw [h.object]
  pending := by
    simp only [Assembler.insert, hwork.isClean_eq]
    split
    · exact h.others key
    · exact List.rel_append (h.others key) (.cons ⟨rfl, hwork⟩ .nil)
  replaced := List.rel_append h.replaced (h.workOf? key)

theorem work (h : Assembler.Alike plan a b) : Work.Alike plan a.work b.work := by
  have hcurrent : List.Forall₂ (Work.Alike plan) (a.pending.map (·.2)) (b.pending.map (·.2)) :=
    List.rel_map (fun _ _ hxy ↦ hxy.2) h.pending
  have hreplaced : List.Forall₂ (Work.Alike plan) (a.replaced.map Work.giveUp)
      (b.replaced.map Work.giveUp) := List.rel_map (fun _ _ hxy ↦ hxy.giveUp) h.replaced
  exact (Work.Alike.foldl hcurrent .none).append (Work.Alike.foldl hreplaced .none)

end Assembler.Alike

/-! ### Computations in lock-step -/

namespace Run

/-- Whatever the states are in which they begin, as long as the completed entities of the first one
satisfy an invariant, both computations fail with the same error or succeed with related values. -/
def Alike (sound : Memo → Prop) (related : α → β → Prop) (a : Run World α) (b : Run World β) :
    Prop :=
  ∀ s t, sound s.memo →
    (∃ x y s' t', a s = (.ok x, s') ∧ b t = (.ok y, t') ∧ sound s'.memo ∧ related x y) ∨
      ∃ error s' t', a s = (.error error, s') ∧ b t = (.error error, t')

namespace Alike

variable {γ δ : Type} {sound : Memo → Prop} {related : α → β → Prop} {a : Run World α}
  {b : Run World β}

theorem pure {x : α} {y : β} (h : related x y) :
    Alike sound related (pure x : Run World α) (pure y : Run World β) :=
  fun s t hsound ↦ .inl ⟨x, y, s, t, rfl, rfl, hsound, h⟩

theorem throw (error : ExecutionError) :
    Alike sound related (throw error : Run World α) (throw error : Run World β) :=
  fun s t _ ↦ .inr ⟨error, s, t, rfl, rfl⟩

theorem bind (h : Alike sound related a b) {related' : γ → δ → Prop} {f : α → Run World γ}
    {g : β → Run World δ} (hnext : ∀ x y, related x y → Alike sound related' (f x) (g y)) :
    Alike sound related' (a >>= f) (b >>= g) := by
  intro s t hsound
  rcases h s t hsound with ⟨x, y, s', t', ha, hb, hsound', hxy⟩ | ⟨error, s', t', ha, hb⟩
  · rw [bind_ok ha, bind_ok hb]
    exact hnext x y hxy s' t' hsound'
  · rw [bind_error ha, bind_error hb]
    exact .inr ⟨error, s', t', rfl, rfl⟩

/-- When the first computation succeeds, the second one does so from every state. -/
theorem of_ok (h : Alike sound related a b) {s s' : RunState World} {x : α} (hsound : sound s.memo)
    (ha : a s = (.ok x, s')) (t : RunState World) :
    ∃ y t', b t = (.ok y, t') ∧ related x y := by
  rcases h s t hsound with ⟨x', y, _, t', ha', hb, _, hxy⟩ | ⟨error, _, _, ha', _⟩
  · obtain ⟨hx, -⟩ := Prod.mk.inj (ha.symm.trans ha')
    obtain rfl := Except.ok.inj hx
    exact ⟨y, t', hb, hxy⟩
  · cases ha.symm.trans ha'

/-- When the second computation succeeds, the first one does so from every state in which the
invariant holds. -/
theorem of_ok_right (h : Alike sound related a b) {t t' : RunState World} {y : β}
    (hb : b t = (.ok y, t')) {s : RunState World} (hsound : sound s.memo) :
    ∃ x s', a s = (.ok x, s') ∧ related x y := by
  rcases h s t hsound with ⟨x, y', s', _, ha, hb', _, hxy⟩ | ⟨error, _, _, _, hb'⟩
  · obtain ⟨hy, -⟩ := Prod.mk.inj (hb.symm.trans hb')
    obtain rfl := Except.ok.inj hy
    exact ⟨x, s', ha, hxy⟩
  · cases hb.symm.trans hb'

/-- Resolvers may act on different worlds, as long as what they answer is related. -/
theorem act {f : StateM World α} {g : StateM World β}
    (h : ∀ world world', related (f.run world).1 (g.run world').1) :
    Alike sound related (act f) (act g) :=
  fun s t hsound ↦ .inl ⟨_, _, _, _, act_apply f s, act_apply g t, hsound, h _ _⟩

end Alike

end Run

/-- The same value, and work that is alike. -/
def Completed.Alike (plan : QueryPlan) (a b : Completed World α) : Prop :=
  a.1 = b.1 ∧ a.2.Alike plan b.2

end GraphCache
