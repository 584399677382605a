import GraphCache.Proofs.Ledgers
import GraphCache.Proofs.Steps

/-!
# Work in a ledger

What was entered in a ledger meanwhile, apart from what was replaced already, is compared here with
some work. The spans are where the two differ most. A span covers all that was entered for a field,
and nothing that is due to another one, so passing over its numbers gives up the work of this field
and no other work.

## Main definitions

* `Ledger.Sound`: the numbers in a ledger have been given out.
* `Ledger.Gains`: one ledger has the entries of another one, and those of some work.
* `Ledger.Assembles`: the spans of an object under construction cover the work of its fields.

## Main results

* `Ledger.Gains.trans`: the entries of one work and then of another one are those of both.
* `Ledger.Assembles.insert`: setting a field keeps the spans in step with the work, also if another
  field is replaced.
-/

namespace GraphCache

variable {World α β : Type}

namespace Work

theorem isClean_append (a b : Work World) : (a ++ b).isClean = (a.isClean && b.isClean) := by
  change (append a b).isClean = _
  rw [Bool.eq_iff_iff, Bool.and_eq_true]
  simp only [isClean, append, Bool.and_eq_true, List.isEmpty_iff, List.append_eq_nil_iff]
  tauto

theorem isClean_giveUp (work : Work World) : work.giveUp.isClean = work.isClean := by
  rw [Bool.eq_iff_iff]
  simp only [isClean, giveUp, Bool.and_eq_true, List.isEmpty_iff, List.append_eq_nil_iff]
  tauto

theorem isClean_foldl (works : List (Work World)) (start : Work World) :
    (works.foldl (· ++ ·) start).isClean = (start.isClean && works.all isClean) := by
  induction works generalizing start with
  | nil => rw [List.foldl_nil, List.all_nil, Bool.and_true]
  | cons work works ih => rw [List.foldl_cons, ih, isClean_append, List.all_cons, Bool.and_assoc]

end Work

namespace Assembler

/-- An object leaves nothing behind if none of its fields does, and no replaced one did. -/
theorem isClean_work (assembler : Assembler World) :
    assembler.work.isClean
      = (assembler.pending.map Prod.snd ++ assembler.replaced).all Work.isClean := by
  have hreplaced : (assembler.replaced.map Work.giveUp).all Work.isClean
      = assembler.replaced.all Work.isClean := by
    rw [List.all_map]
    exact congrArg assembler.replaced.all (funext Work.isClean_giveUp)
  rw [work, Work.isClean_append, Work.isClean_foldl, Work.isClean_foldl, hreplaced,
    List.all_append]
  rfl

/-- What is kept and what was replaced, taken together, gains the work of a field that is set. -/
theorem Tidy.conserves_replaced {assembler : Assembler World} (h : assembler.Tidy) (key : String)
    (value : Json) (work : Work World) :
    ((assembler.insert key value work).1.pending.map Prod.snd ++
        (assembler.insert key value work).1.replaced).Perm
      (assembler.pending.map Prod.snd ++ assembler.replaced ++ [work].filter (!·.isClean)) := by
  have hreplaced : (assembler.insert key value work).1.replaced
      = assembler.replaced ++ (assembler.workOf? key).toList := rfl
  rw [hreplaced, List.append_assoc]
  refine (List.perm_append_comm_assoc _ _ _).trans (.trans ?_ (List.perm_append_comm_assoc _ _ _))
  exact (List.perm_append_comm.trans (h.conserves key value work)).append_left _

/-- When a field is set, its work is added to all that was ever left behind. -/
theorem Tidy.isClean_insert {assembler : Assembler World} (h : assembler.Tidy) (key : String)
    (value : Json) (work : Work World) :
    (assembler.insert key value work).1.work.isClean
      = (assembler.work.isClean && work.isClean) := by
  have hwork : ([work].filter (!·.isClean)).all Work.isClean = work.isClean := by
    cases hclean : work.isClean <;> simp [hclean]
  rw [isClean_work, (h.conserves_replaced key value work).all_eq, List.all_append, hwork,
    isClean_work]

end Assembler

namespace Span

theorem isClean_iff {span : Span} : span.isClean = true ↔ span.pending = ∅ ∧ span.errors = ∅ := by
  simp [isClean]

end Span

namespace Ledger

/-- The state of the execution without its entries. -/
def runState (ledger : Ledger World) : RunState World :=
  ⟨ledger.world, ledger.memo, ledger.nextPending⟩

/-- All numbers in a ledger have been given out. -/
structure Sound (ledger : Ledger World) : Prop where
  /-- Those of the deferred fields. -/
  pending : ∀ deferred ∈ ledger.pending, deferred.id < ledger.nextPending
  /-- Those of the deferred fields that were replaced. -/
  superseded : ∀ id ∈ ledger.superseded, id < ledger.nextPending
  /-- Those of the errors that were replaced. -/
  droppedErrors : ∀ number ∈ ledger.droppedErrors, number < ledger.errors.length

theorem isClean_spanSince_iff {ledger : Ledger World} {mark : Mark} :
    (ledger.spanSince mark).isClean = true ↔
      ledger.nextPending ≤ mark.pending ∧ ledger.errors.length ≤ mark.errors := by
  simp [Span.isClean_iff, spanSince]

/-- One ledger has the entries of another one, and after them those of some work. -/
structure Gains (before : Ledger World) (work : Work World) (after : Ledger World) : Prop where
  /-- The numbers have been given out. -/
  sound : after.Sound
  /-- No number of a deferred field is given out again. -/
  nextPending_le : before.nextPending ≤ after.nextPending
  /-- No number of an error is given out again. -/
  errors_le : before.errors.length ≤ after.errors.length
  /-- Only deferred fields that were entered meanwhile have been replaced. -/
  superseded : ∀ id ∈ after.superseded, id ∈ before.superseded ∨ before.nextPending ≤ id
  /-- The fields that the work defers were entered last. -/
  pending : after.livePending = before.livePending ++ work.deferred
  /-- They have numbers in the span of the work. -/
  ids : ∀ deferred ∈ work.deferred, deferred.id ∈ (after.spanSince before.mark).pending
  /-- The faults of the work were entered last, and have numbers in its span. -/
  errors : ∃ entered, after.liveErrors = before.liveErrors ++ entered ∧
    entered.map Prod.fst = work.faults.map Fault.placed ∧
    ∀ error ∈ entered, error.2 ∈ (after.spanSince before.mark).errors
  /-- The span of the work is clean if nothing was ever left behind. -/
  isClean : (after.spanSince before.mark).isClean = work.isClean

/-- Deferred fields that were not replaced have numbers that were given out. -/
theorem Sound.id_lt {ledger : Ledger World} (h : ledger.Sound) {deferred : Deferred World}
    (hdeferred : deferred ∈ ledger.livePending) : deferred.id < ledger.nextPending :=
  h.pending deferred (List.mem_filter.1 hdeferred).1

theorem number_lt {ledger : Ledger World} {error : PlacedError × Nat}
    (h : error ∈ ledger.liveErrors) : error.2 < ledger.errors.length := by
  have hnumber := List.snd_lt_add_of_mem_zipIdx (List.mem_filter.1 h).1
  rwa [Nat.zero_add] at hnumber

theorem mem_superseded_supersede? {ledger : Ledger World} {superseded : Option Span} {id : Nat} :
    id ∈ (ledger.supersede? superseded).superseded ↔
      id ∈ ledger.superseded ∨ ∃ span ∈ superseded, id ∈ span.pending := by
  cases superseded with
  | none => simp [supersede?]
  | some span => simp [supersede?, supersede]

theorem mem_droppedErrors_supersede? {ledger : Ledger World} {superseded : Option Span}
    {number : Nat} :
    number ∈ (ledger.supersede? superseded).droppedErrors ↔
      number ∈ ledger.droppedErrors ∨ ∃ span ∈ superseded, number ∈ span.errors := by
  cases superseded with
  | none => simp [supersede?]
  | some span => simp [supersede?, supersede]

@[simp] theorem pending_supersede? (ledger : Ledger World) (superseded : Option Span) :
    (ledger.supersede? superseded).pending = ledger.pending := by
  cases superseded <;> rfl

@[simp] theorem nextPending_supersede? (ledger : Ledger World) (superseded : Option Span) :
    (ledger.supersede? superseded).nextPending = ledger.nextPending := by
  cases superseded <;> rfl

@[simp] theorem errors_supersede? (ledger : Ledger World) (superseded : Option Span) :
    (ledger.supersede? superseded).errors = ledger.errors := by
  cases superseded <;> rfl

/-- Passing over what was replaced, if anything was. -/
theorem livePending_supersede? (ledger : Ledger World) (superseded : Option Span) :
    (ledger.supersede? superseded).livePending
      = ledger.livePending.filter
          fun deferred => ∀ span ∈ superseded, deferred.id ∉ span.pending := by
  rw [livePending, livePending, List.filter_filter, pending_supersede?]
  refine List.filter_congr fun deferred _ ↦ ?_
  simp [mem_superseded_supersede?, not_or, Bool.and_comm]

theorem liveErrors_supersede? (ledger : Ledger World) (superseded : Option Span) :
    (ledger.supersede? superseded).liveErrors
      = ledger.liveErrors.filter
          fun error => ∀ span ∈ superseded, error.2 ∉ span.errors := by
  rw [liveErrors, liveErrors, List.filter_filter, errors_supersede?]
  refine List.filter_congr fun error _ ↦ ?_
  simp [mem_droppedErrors_supersede?, not_or, Bool.and_comm]

@[simp] theorem spanSince_supersede? (ledger : Ledger World) (superseded : Option Span)
    (mark : Mark) : (ledger.supersede? superseded).spanSince mark = ledger.spanSince mark := by
  cases superseded <;> rfl

@[simp] theorem runState_supersede? (ledger : Ledger World) (superseded : Option Span) :
    (ledger.supersede? superseded).runState = ledger.runState := by
  cases superseded <;> rfl

namespace Gains

variable {before middle after : Ledger World} {work more : Work World}

/-- Without any work nothing is entered. -/
theorem none (h : before.Sound) : before.Gains .none before where
  sound := h
  nextPending_le := Nat.le_refl _
  errors_le := Nat.le_refl _
  superseded _ hid := .inl hid
  pending := (List.append_nil _).symm
  ids := nofun
  errors := ⟨[], (List.append_nil _).symm, rfl, nofun⟩
  isClean := isClean_spanSince_iff.2 ⟨Nat.le_refl _, Nat.le_refl _⟩

/-- The entries of one work and then of another one are those of both. -/
theorem trans (h : before.Gains work middle) (hmore : middle.Gains more after) :
    before.Gains (work ++ more) after where
  sound := hmore.sound
  nextPending_le := h.nextPending_le.trans hmore.nextPending_le
  errors_le := h.errors_le.trans hmore.errors_le
  superseded id hid := by
    rcases hmore.superseded id hid with hid | hid
    · exact h.superseded id hid
    · exact .inr (h.nextPending_le.trans hid)
  pending := by
    rw [hmore.pending, h.pending, List.append_assoc]
    rfl
  ids deferred hdeferred := by
    rcases List.mem_append.1 hdeferred with hdeferred | hdeferred
    · exact Finset.Ico_subset_Ico_right hmore.nextPending_le (h.ids deferred hdeferred)
    · exact Finset.Ico_subset_Ico_left h.nextPending_le (hmore.ids deferred hdeferred)
  errors := by
    obtain ⟨entered, herrors, hplaced, hnumbers⟩ := h.errors
    obtain ⟨entered', herrors', hplaced', hnumbers'⟩ := hmore.errors
    refine ⟨entered ++ entered', ?_, ?_, fun error herror ↦ ?_⟩
    · rw [herrors', herrors, List.append_assoc]
    · rw [List.map_append, hplaced, hplaced', ← List.map_append]
      rfl
    · rcases List.mem_append.1 herror with herror | herror
      · exact Finset.Ico_subset_Ico_right hmore.errors_le (hnumbers error herror)
      · exact Finset.Ico_subset_Ico_left h.errors_le (hnumbers' error herror)
  isClean := by
    have hle := h.nextPending_le
    have hle' := hmore.nextPending_le
    have herrors := h.errors_le
    have herrors' := hmore.errors_le
    rw [Work.isClean_append, ← h.isClean, ← hmore.isClean, Bool.eq_iff_iff, Bool.and_eq_true,
      isClean_spanSince_iff, isClean_spanSince_iff, isClean_spanSince_iff]
    simp only [mark]
    omega

/-- An error that is entered is the only work. -/
theorem enterError (h : before.Sound) (trail : Trail) (error : FieldError) :
    before.Gains (.ofFault trail error) (before.enterError trail error) where
  sound := by
    refine ⟨h.pending, h.superseded, fun number hnumber ↦ ?_⟩
    have hlt := h.droppedErrors number hnumber
    simp only [Ledger.enterError, List.length_append, List.length_singleton]
    omega
  nextPending_le := Nat.le_refl _
  errors_le := by simp [Ledger.enterError]
  superseded _ hid := .inl hid
  pending := (List.append_nil _).symm
  ids := nofun
  errors := by
    refine ⟨[((trail.order, error.toGraphQLError trail.path), before.errors.length)], ?_, rfl, ?_⟩
    · have hlive : before.errors.length ∉ before.droppedErrors :=
        fun hdropped ↦ Nat.lt_irrefl _ (h.droppedErrors _ hdropped)
      rw [liveErrors, Ledger.enterError, List.zipIdx_append, List.filter_append,
        List.zipIdx_singleton, Nat.zero_add, List.filter_cons_of_pos (by simpa using hlive)]
      rfl
    · simp [spanSince, mark, Ledger.enterError]
  isClean := by
    change _ = false
    refine Bool.eq_false_iff.2 fun hclean ↦ ?_
    have hle := (isClean_spanSince_iff.1 hclean).2
    simp only [Ledger.enterError, mark, List.length_append, List.length_singleton] at hle
    omega

/-- A deferred field that is entered is the only work. -/
theorem enterDeferred (h : before.Sound) (plan : FieldPlan) (typeName : String)
    (task : Task World) (trail : Trail) :
    before.Gains (.ofDeferred ⟨before.nextPending, trail, plan, typeName, task⟩)
      (before.enterDeferred plan typeName task trail) where
  sound := by
    refine ⟨fun deferred hdeferred ↦ ?_, fun id hid ↦ ?_, h.droppedErrors⟩
    · rcases List.mem_append.1 hdeferred with hdeferred | hdeferred
      · exact Nat.lt_succ_of_lt (h.pending deferred hdeferred)
      · rw [List.mem_singleton.1 hdeferred]
        exact Nat.lt_succ_self _
    · exact Nat.lt_succ_of_lt (h.superseded id hid)
  nextPending_le := Nat.le_succ _
  errors_le := Nat.le_refl _
  superseded _ hid := .inl hid
  pending := by
    have hlive : before.nextPending ∉ before.superseded :=
      fun hsuperseded ↦ Nat.lt_irrefl _ (h.superseded _ hsuperseded)
    rw [livePending, Ledger.enterDeferred, List.filter_append,
      List.filter_cons_of_pos (by simpa using hlive)]
    rfl
  ids deferred hdeferred := by
    rw [Work.deferred_ofDeferred, List.mem_singleton] at hdeferred
    subst hdeferred
    simp [spanSince, mark, Ledger.enterDeferred]
  errors := ⟨[], (List.append_nil _).symm, rfl, nofun⟩
  isClean := by
    change _ = false
    refine Bool.eq_false_iff.2 fun hclean ↦ ?_
    exact Nat.not_succ_le_self _ (isClean_spanSince_iff.1 hclean).1

/-- What is known about entities makes no difference to the entries. -/
theorem remember (h : before.Gains work after) (key : String × Nat) (entry : Option Object) :
    before.Gains work (after.remember key entry) :=
  ⟨⟨h.sound.pending, h.sound.superseded, h.sound.droppedErrors⟩, h.nextPending_le, h.errors_le,
    h.superseded, h.pending, h.ids, h.errors, h.isClean⟩

/-- Nor does the world of the resolvers. -/
theorem of_world {world : World} (h : ({ before with world } : Ledger World).Gains work after) :
    before.Gains work after :=
  ⟨h.sound, h.nextPending_le, h.errors_le, h.superseded, h.pending, h.ids, h.errors, h.isClean⟩

end Gains

/-! ### Objects under construction -/

/-- A field of an object under construction that left something behind: its work, and the span that
covers it. -/
structure Kept (World : Type) where
  /-- The response key. -/
  key : String
  /-- The work that the field left behind. -/
  work : Work World
  /-- The span of the field. -/
  span : Span
  /-- The errors of the work, with their numbers. -/
  errors : List (PlacedError × Nat)
  /-- The span covers the deferred fields. -/
  ids : ∀ deferred ∈ work.deferred, deferred.id ∈ span.pending
  /-- The errors are the faults of the work. -/
  placed : errors.map Prod.fst = work.faults.map Fault.placed
  /-- The span covers the errors. -/
  numbers : ∀ error ∈ errors, error.2 ∈ span.errors

/-- Nothing is in the spans of two fields. -/
def Kept.Apart (a b : Kept World) : Prop :=
  Disjoint a.span.pending b.span.pending ∧ Disjoint a.span.errors b.span.errors

/-- Since an object was begun, an assembler has kept the spans of its fields where another one has
kept their work. -/
structure Assembles (base : Ledger World) (kept : List (Kept World)) (spans : SpanAssembler)
    (assembler : Assembler World) (ledger : Ledger World) : Prop where
  /-- The fields are the same. -/
  object : spans.object = assembler.object
  /-- No key is repeated. -/
  tidy : assembler.Tidy
  /-- One assembler has kept the work, in the order in which the fields were set. -/
  pending : assembler.pending = kept.map fun field => (field.key, field.work)
  /-- The other one has kept the spans, in whatever order. -/
  spans : spans.spans.Perm (kept.map fun field => (field.key, field.span))
  /-- No two spans have anything in common. -/
  apart : kept.Pairwise Kept.Apart
  /-- All spans lie in that of the object. -/
  within : ∀ field ∈ kept, field.span.pending ⊆ (ledger.spanSince base.mark).pending ∧
    field.span.errors ⊆ (ledger.spanSince base.mark).errors
  /-- The numbers have been given out. -/
  sound : ledger.Sound
  /-- No number of a deferred field is given out again. -/
  nextPending_le : base.nextPending ≤ ledger.nextPending
  /-- No number of an error is given out again. -/
  errors_le : base.errors.length ≤ ledger.errors.length
  /-- Only deferred fields that were entered meanwhile have been replaced. -/
  superseded : ∀ id ∈ ledger.superseded, id ∈ base.superseded ∨ base.nextPending ≤ id
  /-- The deferred fields that were entered are those of the fields. -/
  livePending : ledger.livePending = base.livePending ++ kept.flatMap (·.work.deferred)
  /-- The errors that were entered are those of the fields. -/
  liveErrors : ledger.liveErrors = base.liveErrors ++ kept.flatMap (·.errors)
  /-- The span of the object is clean if no field ever left anything behind. -/
  isClean : (ledger.spanSince base.mark).isClean = assembler.work.isClean

namespace Kept

/-- What is listed for the fields with some property is listed for all fields, where nothing is
listed for the others. -/
theorem flatMap_filter (p : Kept World → Bool) (kept : List (Kept World))
    (elements : Kept World → List β) :
    (kept.filter p).flatMap elements
      = kept.flatMap fun field => if p field then elements field else [] := by
  induction kept with
  | nil => rfl
  | cons field kept ih =>
    rw [List.filter_cons, List.flatMap_cons, ← ih]
    split
    · rfl
    · rfl

/-- Passing over what is in the spans of the fields with a key leaves that of the other fields. -/
theorem filter_flatMap {kept : List (Kept World)} {elements : Kept World → List β}
    {numbers : Kept World → Finset Nat} {number : β → Nat}
    (hcovers : ∀ field ∈ kept, ∀ b ∈ elements field, number b ∈ numbers field)
    (hapart : kept.Pairwise fun a b => Disjoint (numbers a) (numbers b)) (key : String) :
    (kept.flatMap elements).filter
        (fun b => ∀ field ∈ kept, field.key = key → number b ∉ numbers field)
      = (kept.filter (·.key != key)).flatMap elements := by
  rw [List.filter_flatMap, flatMap_filter]
  refine List.flatMap_congr fun field hfield ↦ ?_
  by_cases hkey : field.key = key
  · rw [if_neg (by simpa using hkey), List.filter_eq_nil_iff]
    intro b hb hpassed
    exact of_decide_eq_true hpassed field hfield hkey (hcovers field hfield b hb)
  · rw [if_pos (by simpa using hkey), List.filter_eq_self]
    intro b hb
    refine decide_eq_true fun other hother hsame hnumber ↦ ?_
    have hne : field ≠ other := fun heq ↦ hkey (heq ▸ hsame)
    have hdisjoint := hapart.forall hfield hother hne
    exact Finset.disjoint_left.1 hdisjoint (hcovers field hfield b hb) hnumber

/-- What was there before all these fields is not passed over, nor what came after them. -/
theorem filter_entries {kept : List (Kept World)} {elements : Kept World → List β}
    (numbers : Kept World → Finset Nat) (number : β → Nat) {first next : Nat} {old new : List β}
    (hcovers : ∀ field ∈ kept, ∀ b ∈ elements field, number b ∈ numbers field)
    (hapart : kept.Pairwise fun a b => Disjoint (numbers a) (numbers b))
    (hwithin : ∀ field ∈ kept, numbers field ⊆ Finset.Ico first next)
    (hold : ∀ b ∈ old, number b < first) (hnew : ∀ b ∈ new, next ≤ number b) (key : String) :
    (old ++ kept.flatMap elements ++ new).filter
        (fun b => ∀ field ∈ kept, field.key = key → number b ∉ numbers field)
      = old ++ ((kept.filter (·.key != key)).flatMap elements ++ new) := by
  have hout {b : β} (hb : number b < first ∨ next ≤ number b) :
      ∀ field ∈ kept, field.key = key → number b ∉ numbers field := by
    intro field hfield _ hnumber
    have hbounds := Finset.mem_Ico.1 (hwithin field hfield hnumber)
    omega
  rw [List.filter_append, List.filter_append, filter_flatMap hcovers hapart,
    List.filter_eq_self.2 fun b hb ↦ decide_eq_true (hout (.inl (hold b hb))),
    List.filter_eq_self.2 fun b hb ↦ decide_eq_true (hout (.inr (hnew b hb))),
    List.append_assoc]

/-- What is kept for a field that has just been set. -/
def ofField (field : Kept World) : List (Kept World) :=
  [field].filter (!·.work.isClean)

theorem eq_of_mem_ofField {field other : Kept World} (h : other ∈ field.ofField) :
    other = field :=
  List.mem_singleton.1 (List.mem_filter.1 h).1

theorem pairwise_ofField (field : Kept World) : field.ofField.Pairwise Apart :=
  (List.pairwise_singleton Apart field).filter _

theorem errors_of_isClean {field : Kept World} (h : field.work.isClean = true) :
    field.errors = [] := by
  have hplaced := field.placed
  rwa [Work.faults_of_isClean h, List.map_nil, List.map_eq_nil_iff] at hplaced

/-- What is kept for a field has all that the field has, if a field without work has nothing. -/
theorem flatMap_ofField {field : Kept World} {elements : Kept World → List β}
    (h : field.work.isClean = true → elements field = []) :
    field.ofField.flatMap elements = elements field := by
  rw [ofField, flatMap_filter, List.flatMap_singleton]
  split
  · rfl
  · next hclean => exact (h (by simpa using hclean)).symm

end Kept

namespace Assembles

variable {base ledger after : Ledger World} {kept : List (Kept World)} {spans : SpanAssembler}
  {assembler : Assembler World} {work : Work World}

/-- An object is begun without fields. -/
theorem empty (h : base.Sound) : Assembles base [] {} .empty base where
  object := rfl
  tidy := .empty
  pending := rfl
  spans := .nil
  apart := .nil
  within := nofun
  sound := h
  nextPending_le := Nat.le_refl _
  errors_le := Nat.le_refl _
  superseded _ hid := .inl hid
  livePending := (List.append_nil _).symm
  liveErrors := (List.append_nil _).symm
  isClean := (Gains.none h).isClean

/-- What an object leaves behind was entered since it was begun. -/
theorem gains (h : Assembles base kept spans assembler ledger) :
    base.Gains assembler.work ledger where
  sound := h.sound
  nextPending_le := h.nextPending_le
  errors_le := h.errors_le
  superseded := h.superseded
  pending := by rw [h.livePending, Assembler.work_deferred, h.pending, List.flatMap_map]
  ids deferred hdeferred := by
    rw [Assembler.work_deferred, h.pending, List.flatMap_map] at hdeferred
    obtain ⟨field, hfield, hdeferred⟩ := List.mem_flatMap.1 hdeferred
    exact (h.within field hfield).1 (field.ids deferred hdeferred)
  errors := by
    refine ⟨kept.flatMap (·.errors), h.liveErrors, ?_, fun error herror ↦ ?_⟩
    · rw [Assembler.work_faults, h.pending, List.flatMap_map, List.map_flatMap, List.map_flatMap]
      exact List.flatMap_congr fun field _ ↦ field.placed
    · obtain ⟨field, hfield, herror⟩ := List.mem_flatMap.1 herror
      exact (h.within field hfield).2 (field.numbers error herror)
  isClean := h.isClean

/-- Something is kept once for a key. -/
theorem once (h : Assembles base kept spans assembler ledger) :
    (Dict.keys (kept.map fun field => (field.key, field.span))).Nodup := by
  have honce := h.tidy.pendingOnce
  rw [h.pending, Dict.keys, List.map_map] at honce
  rw [Dict.keys, List.map_map]
  exact honce

/-- The spans are taken out for the fields for which work is kept. -/
theorem takeSpan (h : Assembles base kept spans assembler ledger) (key : String) :
    (spans.takeSpan key).1 = Dict.get? (kept.map fun field => (field.key, field.span)) key ∧
      (spans.takeSpan key).2.Perm
        ((kept.filter (·.key != key)).map fun field => (field.key, field.span)) := by
  have honce : (Dict.keys spans.spans).Nodup := (h.spans.map Prod.fst).nodup_iff.2 h.once
  have hothers : (kept.map fun field => (field.key, field.span)).filter (·.1 != key)
      = (kept.filter (·.key != key)).map fun field => (field.key, field.span) := by
    rw [List.filter_map]
    rfl
  rw [SpanAssembler.takeSpan]
  split
  · obtain ⟨hfound, hremaining⟩ := Dict.swapRemove_spec honce key
    exact ⟨hfound.trans (Dict.get?_eq_of_perm honce h.spans key),
      hremaining.trans (hothers ▸ h.spans.filter _)⟩
  · next hcontains =>
    -- without a field nothing is kept
    have habsent : key ∉ Dict.keys (kept.map fun field => (field.key, field.span)) := by
      intro hkey
      rw [Dict.keys, List.map_map] at hkey
      obtain ⟨field, hfield, rfl⟩ := List.mem_map.1 hkey
      have hpending : (field.key, field.work) ∈ assembler.pending :=
        h.pending ▸ List.mem_map_of_mem hfield
      refine hcontains ?_
      rw [h.object, Dict.contains, Dict.get?_isSome_iff]
      exact h.tidy.pendingSet _ hpending
    rw [(Dict.get?_eq_none_iff _ _).2 habsent, ← hothers, Dict.filter_ne_eq_self habsent]
    exact ⟨rfl, h.spans⟩

/-- What is taken out is the span of the field with the key. -/
theorem forall_takeSpan (h : Assembles base kept spans assembler ledger) {key : String}
    {p : Span → Prop} :
    (∀ span ∈ (spans.takeSpan key).1, p span) ↔
      ∀ field ∈ kept, field.key = key → p field.span := by
  have hfound (span : Span) : span ∈ (spans.takeSpan key).1 ↔
      (key, span) ∈ kept.map fun field => (field.key, field.span) := by
    rw [(h.takeSpan key).1, Option.mem_def, Dict.get?_eq_some_iff h.once]
  simp only [hfound, List.mem_map, Prod.mk.injEq]
  constructor
  · exact fun hspans field hfield hkey ↦ hspans _ ⟨field, hfield, hkey, rfl⟩
  · rintro hfields span ⟨field, hfield, hkey, rfl⟩
    exact hfields field hfield hkey

/-- What is in the spans that are taken out lies in the span of the object. -/
theorem takeSpan_within (h : Assembles base kept spans assembler ledger) (key : String) :
    ∀ span ∈ (spans.takeSpan key).1, span.pending ⊆ (ledger.spanSince base.mark).pending ∧
      span.errors ⊆ (ledger.spanSince base.mark).errors :=
  h.forall_takeSpan.2 fun field hfield _ ↦ h.within field hfield

/-- The deferred fields after one with a key has been set. -/
theorem livePending_insert (h : Assembles base kept spans assembler ledger) (hbase : base.Sound)
    (hgains : ledger.Gains work after) (key : String) :
    (after.supersede? (spans.takeSpan key).1).livePending = base.livePending
      ++ ((kept.filter (·.key != key)).flatMap (·.work.deferred) ++ work.deferred) := by
  rw [livePending_supersede?, hgains.pending, h.livePending,
    ← Kept.filter_entries (·.span.pending) Deferred.id
      (fun field _ ↦ field.ids) (h.apart.imp And.left)
      (fun field hfield ↦ (h.within field hfield).1)
      (fun deferred hdeferred ↦ hbase.id_lt hdeferred)
      (fun deferred hdeferred ↦ (Finset.mem_Ico.1 (hgains.ids deferred hdeferred)).1) key]
  exact List.filter_congr fun deferred _ ↦ decide_eq_decide.2 h.forall_takeSpan

/-- The errors after a field with a key has been set. -/
theorem liveErrors_insert (h : Assembles base kept spans assembler ledger)
    {entered : List (PlacedError × Nat)}
    (hentered : after.liveErrors = ledger.liveErrors ++ entered)
    (hnumbers : ∀ error ∈ entered, error.2 ∈ (after.spanSince ledger.mark).errors) (key : String) :
    (after.supersede? (spans.takeSpan key).1).liveErrors = base.liveErrors
      ++ ((kept.filter (·.key != key)).flatMap (·.errors) ++ entered) := by
  rw [liveErrors_supersede?, hentered, h.liveErrors,
    ← Kept.filter_entries (·.span.errors) Prod.snd
      (fun field _ ↦ field.numbers) (h.apart.imp And.right)
      (fun field hfield ↦ (h.within field hfield).2) (fun error herror ↦ number_lt herror)
      (fun error herror ↦ (Finset.mem_Ico.1 (hnumbers error herror)).1) key]
  exact List.filter_congr fun error _ ↦ decide_eq_decide.2 h.forall_takeSpan

/-- The numbers have been given out after a field has been set. -/
theorem sound_insert (h : Assembles base kept spans assembler ledger)
    (hgains : ledger.Gains work after) (key : String) :
    (after.supersede? (spans.takeSpan key).1).Sound := by
  have hle := hgains.nextPending_le
  have hle' := hgains.errors_le
  refine ⟨fun deferred hdeferred ↦ ?_, fun id hid ↦ ?_, fun number hnumber ↦ ?_⟩
  · rw [nextPending_supersede?]
    exact hgains.sound.pending deferred (by simpa using hdeferred)
  · rw [nextPending_supersede?]
    rcases mem_superseded_supersede?.1 hid with hid | ⟨span, hspan, hid⟩
    · exact hgains.sound.superseded id hid
    · have hlt := (Finset.mem_Ico.1 ((h.takeSpan_within key span hspan).1 hid)).2
      omega
  · rw [errors_supersede?]
    rcases mem_droppedErrors_supersede?.1 hnumber with hnumber | ⟨span, hspan, hnumber⟩
    · exact hgains.sound.droppedErrors number hnumber
    · have hlt := (Finset.mem_Ico.1 ((h.takeSpan_within key span hspan).2 hnumber)).2
      omega

/-- **Setting a field.** The spans stay in step with the work, also if another field is replaced:
its span covers its work and no other one, so passing over the span gives up just this work. -/
theorem insert (h : Assembles base kept spans assembler ledger) (hbase : base.Sound)
    (hgains : ledger.Gains work after) (key : String) (value : Json) :
    ∃ kept', Assembles base kept' (spans.insert key value (after.spanSince ledger.mark)).1
      (assembler.insert key value work).1 (after.supersede? (spans.takeSpan key).1) := by
  obtain ⟨entered, hentered, hplaced, hnumbers⟩ := hgains.errors
  let field : Kept World :=
    ⟨key, work, after.spanSince ledger.mark, entered, hgains.ids, hplaced, hnumbers⟩
  have hle := h.nextPending_le
  have hle' := h.errors_le
  refine ⟨kept.filter (·.key != key) ++ field.ofField, ?_⟩
  exact {
    object := congrArg (Dict.insert · key value) h.object
    tidy := h.tidy.insert
    pending := by
      rw [Assembler.pending_insert, h.pending, List.map_append, List.filter_map]
      refine congrArg₂ _ rfl ?_
      cases hclean : work.isClean <;> simp [Kept.ofField, field, hclean]
    spans := by
      have hothers := (h.takeSpan key).2
      have hspan : (after.spanSince ledger.mark).isClean = work.isClean := hgains.isClean
      rw [SpanAssembler.insert, List.map_append]
      dsimp only
      rw [hspan]
      cases hclean : work.isClean with
      | false => simpa [Kept.ofField, field, hclean] using hothers.append_right _
      | true => simpa [Kept.ofField, field, hclean] using hothers
    apart := by
      refine List.pairwise_append.2
        ⟨h.apart.filter _, field.pairwise_ofField, fun first hfirst second hsecond ↦ ?_⟩
      obtain ⟨hfirst, hfirst'⟩ := h.within first (List.mem_filter.1 hfirst).1
      rw [Kept.eq_of_mem_ofField hsecond]
      -- the span of the object so far ends where that of the field begins
      exact ⟨(Finset.Ico_disjoint_Ico_consecutive _ _ _).mono_left hfirst,
        (Finset.Ico_disjoint_Ico_consecutive _ _ _).mono_left hfirst'⟩
    within := by
      intro other hother
      rw [spanSince_supersede?]
      rcases List.mem_append.1 hother with hother | hother
      · obtain ⟨hother, hother'⟩ := h.within other (List.mem_filter.1 hother).1
        exact ⟨hother.trans (Finset.Ico_subset_Ico_right hgains.nextPending_le),
          hother'.trans (Finset.Ico_subset_Ico_right hgains.errors_le)⟩
      · rw [Kept.eq_of_mem_ofField hother]
        exact ⟨Finset.Ico_subset_Ico_left hle, Finset.Ico_subset_Ico_left hle'⟩
    sound := h.sound_insert hgains key
    nextPending_le := by
      rw [nextPending_supersede?]
      exact hle.trans hgains.nextPending_le
    errors_le := by
      rw [errors_supersede?]
      exact hle'.trans hgains.errors_le
    superseded := by
      intro id hid
      rcases mem_superseded_supersede?.1 hid with hid | ⟨span, hspan, hid⟩
      · rcases hgains.superseded id hid with hid | hid
        · exact h.superseded id hid
        · exact .inr (hle.trans hid)
      · exact .inr (Finset.mem_Ico.1 ((h.takeSpan_within key span hspan).1 hid)).1
    livePending := by
      rw [h.livePending_insert hbase hgains, List.flatMap_append,
        Kept.flatMap_ofField Work.deferred_of_isClean]
    liveErrors := by
      rw [h.liveErrors_insert hentered hnumbers, List.flatMap_append,
        Kept.flatMap_ofField Kept.errors_of_isClean]
    isClean := by
      rw [spanSince_supersede?, (h.gains.trans hgains).isClean, Work.isClean_append,
        h.tidy.isClean_insert] }

end Assembles

end Ledger

end GraphCache
