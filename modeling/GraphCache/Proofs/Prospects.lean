import GraphCache.Proofs.Relocation
import GraphCache.Proofs.Slots
import Mathlib.Data.List.Perm.Basic

/-!
# What a completed value leads to

A completed value with deferred fields leads to a final value and final faults: the slots of the
deferred fields are filled with what these fields come to, and their faults are added. The order in
which the deferred fields are finished plays no part in this.

## Main definitions

* `Deferred.slots`, `Deferred.laterFaults`: the values and faults that deferred fields come to.
* `Deferred.Below`: deferred fields whose slots lie under certain steps.
* `LeadsTo`, `LeadsToItems`, `Assembler.LeadsTo`: the final outcome of a value, of the items of a
  list and of an object under construction.

## Main results

* `LeadsTo.settle`: finishing any of the deferred fields does not change the final outcome.
* `LeadsTo.eq_of_finished`: without deferred fields the final value has been reached.
* `Assembler.LeadsTo.insert`: setting a field of an object under construction sets it in the final
  object.
-/

namespace GraphCache

variable {World : Type} (outcome : Deferred World → Json × List Fault)

namespace Deferred

/-- The values that fill the slots of deferred fields. -/
def slots (deferred : List (Deferred World)) (path : Path) : Option Json :=
  (deferred.find? (·.trail.path == path)).map fun d => (outcome d).1

/-- The faults that deferred fields come to. -/
def laterFaults (deferred : List (Deferred World)) : List Fault :=
  deferred.flatMap fun d => (outcome d).2.map (·.under d.trail)

/-- The slots of deferred fields lie under steps that satisfy a condition. -/
def Below (condition : PathElement → Prop) (deferred : List (Deferred World)) : Prop :=
  ∀ d ∈ deferred, ∃ step path, d.trail.path = step :: path ∧ condition step

/-- What a deferred field comes to does not depend on its position. -/
def Portable : Prop :=
  ∀ trail deferred, outcome (Deferred.under trail deferred) = outcome deferred

section Slots

variable {outcome} {a b deferred : List (Deferred World)}

theorem slots_append (a b : List (Deferred World)) (path : Path) :
    slots outcome (a ++ b) path = (slots outcome a path).or (slots outcome b path) := by
  simp only [slots, List.find?_append]
  cases a.find? (·.trail.path == path) <;> rfl

theorem slots_eq_none {path : Path} (h : ∀ d ∈ deferred, d.trail.path ≠ path) :
    slots outcome deferred path = none := by
  rw [slots, Option.map_eq_none_iff, List.find?_eq_none]
  simpa using h

theorem slots_of_mem {d : Deferred World}
    (hapart : deferred.Pairwise fun a b => a.trail.path.Apart b.trail.path)
    (hd : d ∈ deferred) : slots outcome deferred d.trail.path = some (outcome d).1 := by
  induction deferred with
  | nil => cases hd
  | cons first rest ih =>
    obtain ⟨hfirst, hrest⟩ := List.pairwise_cons.1 hapart
    rcases List.mem_cons.1 hd with rfl | hd
    · simp [slots]
    · have hne : first.trail.path ≠ d.trail.path := (hfirst d hd).ne
      have htail : slots outcome (first :: rest) d.trail.path
          = slots outcome rest d.trail.path := by simp [slots, hne]
      rw [htail, ih hrest hd]

theorem slots_perm (hapart : a.Pairwise fun a b => a.trail.path.Apart b.trail.path)
    (hperm : a.Perm b) : slots outcome a = slots outcome b := by
  have hapart' : b.Pairwise fun a b => a.trail.path.Apart b.trail.path :=
    hperm.pairwise hapart fun h ↦ h.symm
  funext path
  by_cases h : ∃ d ∈ a, d.trail.path = path
  · obtain ⟨d, hd, rfl⟩ := h
    rw [slots_of_mem hapart hd, slots_of_mem hapart' (hperm.mem_iff.1 hd)]
  · have hne : ∀ d ∈ a, d.trail.path ≠ path := fun d hd heq ↦ h ⟨d, hd, heq⟩
    rw [slots_eq_none hne, slots_eq_none fun d hd ↦ hne d (hperm.mem_iff.2 hd)]

theorem slots_under (hportable : Portable outcome) (trail : Trail)
    (deferred : List (Deferred World)) (path : Path) :
    slots outcome (deferred.map (·.under trail)) (trail.path ++ path)
      = slots outcome deferred path := by
  induction deferred with
  | nil => rfl
  | cons d rest ih =>
    have hpath : (d.under trail).trail.path = trail.path ++ d.trail.path := rfl
    by_cases h : d.trail.path = path
    · simp [slots, hpath, h, hportable trail d]
    · have hhere : slots outcome ((d :: rest).map (·.under trail)) (trail.path ++ path)
          = slots outcome (rest.map (·.under trail)) (trail.path ++ path) := by
        simp [slots, hpath, h]
      have hthere : slots outcome (d :: rest) path = slots outcome rest path := by simp [slots, h]
      rw [hhere, ih, hthere]

theorem slots_under_of_not_prefix (trail : Trail) (deferred : List (Deferred World)) {path : Path}
    (h : ¬ trail.path <+: path) : slots outcome (deferred.map (·.under trail)) path = none := by
  refine slots_eq_none fun d hd heq ↦ h ?_
  obtain ⟨inner, _, rfl⟩ := List.mem_map.1 hd
  exact ⟨inner.trail.path, heq⟩

section Below

variable {condition : PathElement → Prop}

theorem Below.slots_root (h : Below condition deferred) : slots outcome deferred [] = none := by
  refine slots_eq_none fun d hd heq ↦ ?_
  obtain ⟨step, path, hpath, _⟩ := h d hd
  rw [hpath] at heq
  cases heq

theorem Below.slots_cons (h : Below condition deferred) {step : PathElement}
    (hstep : ¬ condition step) (path : Path) : slots outcome deferred (step :: path) = none := by
  refine slots_eq_none fun d hd heq ↦ hstep ?_
  obtain ⟨step', path', hpath, hstep'⟩ := h d hd
  rw [hpath] at heq
  rwa [(List.cons.inj heq).1] at hstep'

theorem Below.apart (h : Below condition deferred) {d : Deferred World} (hd : d ∈ deferred)
    {step : PathElement} (hstep : ¬ condition step) (path : Path) :
    Path.Apart (step :: path) d.trail.path := by
  obtain ⟨step', path', hpath, hstep'⟩ := h d hd
  have hne : step ≠ step' := by
    rintro rfl
    exact hstep hstep'
  rw [hpath]
  exact .of_head_ne hne path path'

theorem below_under {trail : Trail} {step : PathElement} (h : trail.path = [step])
    (deferred : List (Deferred World)) : Below (· = step) (deferred.map (·.under trail)) := by
  intro d hd
  obtain ⟨inner, _, rfl⟩ := List.mem_map.1 hd
  have hpath : (inner.under trail).trail.path = trail.path ++ inner.trail.path := rfl
  exact ⟨step, inner.trail.path, by rw [hpath, h, List.singleton_append], rfl⟩

end Below

theorem laterFaults_append (a b : List (Deferred World)) :
    laterFaults outcome (a ++ b) = laterFaults outcome a ++ laterFaults outcome b := by
  simp [laterFaults]

theorem laterFaults_under (hportable : Portable outcome) (trail : Trail)
    (deferred : List (Deferred World)) :
    laterFaults outcome (deferred.map (·.under trail))
      = (laterFaults outcome deferred).map (·.under trail) := by
  induction deferred with
  | nil => rfl
  | cons d rest ih =>
    have hd : (outcome (d.under trail)).2.map (·.under (d.under trail).trail)
        = ((outcome d).2.map (·.under d.trail)).map (·.under trail) := by
      rw [hportable, List.map_map]
      exact List.map_congr_left fun fault _ ↦ (Fault.under_under trail d.trail fault).symm
    simp only [laterFaults, List.map_cons, List.flatMap_cons, List.map_append] at ih ⊢
    rw [hd, ih]

end Slots

end Deferred

open Deferred

/-- A value with deferred fields leads to a final value and final faults. -/
structure LeadsTo (value : Json) (faults : List Fault) (deferred : List (Deferred World))
    (final : Json × List Fault) : Prop where
  /-- The fields have slots in the value. -/
  awaits : ∀ d ∈ deferred, value.Awaits d.trail.path
  /-- No slot is part of another one. -/
  apart : deferred.Pairwise fun a b => a.trail.path.Apart b.trail.path
  /-- The final value has these slots filled. -/
  filled : value.fill (slots outcome deferred) = final.1
  /-- The faults so far and those to come are the final faults. -/
  faults : (faults ++ laterFaults outcome deferred).Perm final.2

/-- The items of a list, the first with a given index, lead to final items and faults. -/
structure LeadsToItems (position : Nat) (values : List Json) (faults : List Fault)
    (deferred : List (Deferred World)) (final : List Json × List Fault) : Prop where
  /-- The fields have slots in the items. -/
  awaits : ∀ d ∈ deferred, ∃ index item path, values[index]? = some item ∧
    d.trail.path = .index (position + index) :: path ∧ item.Awaits path
  /-- No slot is part of another one. -/
  apart : deferred.Pairwise fun a b => a.trail.path.Apart b.trail.path
  /-- The final items have these slots filled. -/
  filled : Json.fillItems (slots outcome deferred) position values = final.1
  /-- The faults so far and those to come are the final faults. -/
  faults : (faults ++ laterFaults outcome deferred).Perm final.2

variable {outcome}

namespace LeadsTo

theorem finished (value : Json) : LeadsTo outcome value [] [] (value, []) where
  awaits := by simp
  apart := .nil
  filled := Json.fill_eq_self (fun _ ↦ rfl) value
  faults := .refl _

theorem failed (error : FieldError) :
    LeadsTo outcome .null [⟨{}, error⟩] [] (.null, [⟨{}, error⟩]) where
  awaits := by simp
  apart := .nil
  filled := Json.fill_eq_self (fun _ ↦ rfl) _
  faults := .refl _

theorem deferred {d : Deferred World} (h : d.trail = {}) :
    LeadsTo outcome .null [] [d] (outcome d) where
  awaits := by simp [h, Json.Awaits]
  apart := List.pairwise_singleton _ _
  filled := Json.fill_of_root (by simp [slots, h]) _
  faults := by
    have hfaults : (outcome d).2.map (·.under d.trail) = (outcome d).2 := by simp [h]
    simp [laterFaults, hfaults]

/-- Without deferred fields the final value has been reached. -/
theorem eq_of_finished {value : Json} {faults : List Fault} {final : Json × List Fault}
    (h : LeadsTo outcome value faults [] final) : value = final.1 ∧ faults.Perm final.2 := by
  have hself : value.fill (slots outcome []) = value := Json.fill_eq_self (fun _ ↦ rfl) value
  exact ⟨hself.symm.trans h.filled, by simpa [laterFaults] using h.faults⟩

theorem congr_deferred {value : Json} {faults : List Fault} {a b : List (Deferred World)}
    {final : Json × List Fault} (h : LeadsTo outcome value faults a final) (hperm : a.Perm b) :
    LeadsTo outcome value faults b final where
  awaits d hd := h.awaits d (hperm.mem_iff.2 hd)
  apart := hperm.pairwise h.apart fun h ↦ h.symm
  filled := by rw [← slots_perm h.apart hperm, h.filled]
  faults := ((hperm.symm.flatMap_right _).append_left faults).trans h.faults

theorem congr_faults {value final : Json} {faults a b : List Fault}
    {deferred : List (Deferred World)} (h : LeadsTo outcome value faults deferred (final, a))
    (hperm : a.Perm b) : LeadsTo outcome value faults deferred (final, b) where
  awaits := h.awaits
  apart := h.apart
  filled := h.filled
  faults := h.faults.trans hperm

/-- The faults of a value at a position are moved there. -/
theorem faults_under (hportable : Portable outcome) {value : Json} {faults : List Fault}
    {deferred : List (Deferred World)} {final : Json × List Fault}
    (h : LeadsTo outcome value faults deferred final) (trail : Trail) :
    (faults.map (·.under trail) ++ laterFaults outcome (deferred.map (·.under trail))).Perm
      (final.2.map (·.under trail)) := by
  rw [laterFaults_under hportable, ← List.map_append]
  exact h.faults.map _

/-- The faults that a deferred field comes to are those of its value and those still to come. -/
theorem laterFaults_settle (hportable : Portable outcome) {inner : Json} {more : List Fault}
    {next : Deferred World} {deeper : List (Deferred World)}
    (hnext : LeadsTo outcome inner more deeper (outcome next)) (others : List (Deferred World)) :
    (more.map (·.under next.trail)
      ++ laterFaults outcome (others ++ deeper.map (·.under next.trail))).Perm
        (laterFaults outcome (next :: others)) := by
  have hlater : laterFaults outcome (next :: others)
      = (outcome next).2.map (·.under next.trail) ++ laterFaults outcome others := rfl
  rw [hlater, laterFaults_append]
  refine List.Perm.trans ?_ ((hnext.faults_under hportable next.trail).append_right _)
  rw [List.append_assoc]
  exact List.Perm.append_left _ List.perm_append_comm

/-- Finishing one of the deferred fields does not change the final outcome. -/
theorem settle (hportable : Portable outcome) {value inner : Json} {faults more : List Fault}
    {next : Deferred World} {others deeper : List (Deferred World)} {final : Json × List Fault}
    (h : LeadsTo outcome value faults (next :: others) final)
    (hnext : LeadsTo outcome inner more deeper (outcome next)) :
    ∃ value', value.replaceAt? next.trail.path inner = some value' ∧
      LeadsTo outcome value' (faults ++ more.map (·.under next.trail))
        (others ++ deeper.map (·.under next.trail)) final := by
  obtain ⟨hothers, hapart⟩ := List.pairwise_cons.1 h.apart
  have hawaits := h.awaits next List.mem_cons_self
  obtain ⟨value', hreplace, helse, hbelow⟩ := hawaits.replaceAt? inner
  refine ⟨value', hreplace, ?_, ?_, ?_, ?_⟩
  · intro d hd
    rcases List.mem_append.1 hd with hd | hd
    · exact helse _ (hothers d hd) (h.awaits d (List.mem_cons_of_mem _ hd))
    · obtain ⟨inner, hinner, rfl⟩ := List.mem_map.1 hd
      exact hbelow _ (hnext.awaits inner hinner)
  · rw [List.pairwise_append]
    refine ⟨hapart, List.pairwise_map.2 (hnext.apart.imp fun hab ↦ ?_), fun a ha b hb ↦ ?_⟩
    · exact (Path.Apart.prefix_append_iff _ _ _).2 hab
    · obtain ⟨d, _, rfl⟩ := List.mem_map.1 hb
      exact (hothers a ha).symm.append_right _
  · have hpath : slots outcome (next :: others) next.trail.path
        = some (inner.fill (slots outcome deeper)) := by
      rw [slots_of_mem h.apart List.mem_cons_self, hnext.filled]
    rw [← h.filled]
    refine Json.fill_replaceAt? hawaits hreplace hpath ?_ ?_ ?_
    · intro other hprefix hne
      refine slots_eq_none fun d hd heq ↦ ?_
      rcases List.mem_cons.1 hd with rfl | hd
      · exact hne heq.symm
      · exact (hothers d hd).2 (heq ▸ hprefix)
    · intro path
      have hnone : slots outcome others (next.trail.path ++ path) = none :=
        slots_eq_none fun d hd heq ↦ (hothers d hd).1 (heq ▸ List.prefix_append _ _)
      rw [slots_append, hnone, Option.none_or, slots_under hportable]
    · intro other hnot
      have hne : next.trail.path ≠ other := fun heq ↦ hnot (heq ▸ List.prefix_refl _)
      rw [slots_append, slots_under_of_not_prefix _ _ hnot, Option.or_none]
      simp [slots, hne]
  · rw [List.append_assoc]
    exact ((hnext.laterFaults_settle hportable others).append_left faults).trans h.faults

end LeadsTo

namespace LeadsToItems

theorem nil (position : Nat) : LeadsToItems outcome position [] [] [] ([], []) where
  awaits := by simp
  apart := .nil
  filled := rfl
  faults := .refl _

/-- The items of a list lead to what each of them leads to. -/
theorem cons (hportable : Portable outcome) {position : Nat} {value : Json} {values : List Json}
    {faults more : List Fault} {deferred others : List (Deferred World)}
    {final : Json × List Fault} {finals : List Json × List Fault}
    (h : LeadsTo outcome value faults deferred final)
    (hrest : LeadsToItems outcome (position + 1) values more others finals) :
    LeadsToItems outcome position (value :: values)
      (faults.map (·.under (({} : Trail).index position)) ++ more)
      (deferred.map (·.under (({} : Trail).index position)) ++ others)
      (final.1 :: finals.1,
        final.2.map (·.under (({} : Trail).index position)) ++ finals.2) := by
  have hbelow := below_under (rfl : (({} : Trail).index position).path = [.index position]) deferred
  have hothers : Below (∃ index, · = .index index ∧ position < index) others := by
    intro d hd
    obtain ⟨index, item, path, _, hpath, _⟩ := hrest.awaits d hd
    exact ⟨_, path, hpath, position + 1 + index, rfl, by omega⟩
  have hnotOthers : ¬ ∃ index, PathElement.index position = .index index ∧ position < index := by
    rintro ⟨index, heq, hlt⟩
    injection heq with hindex
    omega
  refine ⟨?_, ?_, ?_, ?_⟩
  · intro d hd
    rcases List.mem_append.1 hd with hd | hd
    · obtain ⟨inner, hinner, rfl⟩ := List.mem_map.1 hd
      exact ⟨0, value, inner.trail.path, rfl, rfl, h.awaits inner hinner⟩
    · obtain ⟨index, item, path, hitem, hpath, hawaits⟩ := hrest.awaits d hd
      exact ⟨index + 1, item, path, hitem, by rw [hpath]; congr 2; omega, hawaits⟩
  · rw [List.pairwise_append]
    refine ⟨List.pairwise_map.2 (h.apart.imp fun hab ↦ ?_), hrest.apart, fun a ha b hb ↦ ?_⟩
    · exact (Path.Apart.prefix_append_iff _ _ _).2 hab
    · obtain ⟨inner, _, rfl⟩ := List.mem_map.1 ha
      exact hothers.apart hb hnotOthers inner.trail.path
  · have hhere : (fun path ↦ slots outcome
        (deferred.map (·.under (({} : Trail).index position)) ++ others) (.index position :: path))
        = slots outcome deferred := by
      funext path
      rw [slots_append, hothers.slots_cons hnotOthers, Option.or_none]
      exact slots_under hportable (({} : Trail).index position) deferred path
    have hthere : Json.fillItems (slots outcome
        (deferred.map (·.under (({} : Trail).index position)) ++ others)) (position + 1) values
        = Json.fillItems (slots outcome others) (position + 1) values := by
      refine Json.fillItems_congr values fun index path hle ↦ ?_
      have hne : PathElement.index index ≠ .index position := by
        intro heq
        injection heq with hindex
        omega
      rw [slots_append, hbelow.slots_cons hne, Option.none_or]
    rw [Json.fillItems, hhere, hthere, h.filled, hrest.filled]
  · rw [laterFaults_append]
    have hown := h.faults_under hportable (({} : Trail).index position)
    refine List.Perm.trans ?_ (hown.append hrest.faults)
    rw [List.append_assoc, List.append_assoc]
    refine List.Perm.append_left _ ?_
    rw [← List.append_assoc, ← List.append_assoc]
    exact List.Perm.append_right _ List.perm_append_comm

/-- A list leads to the list of what its items lead to. -/
theorem array {values : List Json} {faults : List Fault} {deferred : List (Deferred World)}
    {finals : List Json × List Fault} (h : LeadsToItems outcome 0 values faults deferred finals) :
    LeadsTo outcome (.array values) faults deferred (.array finals.1, finals.2) where
  awaits d hd := by
    obtain ⟨index, item, path, hitem, hpath, hawaits⟩ := h.awaits d hd
    rw [hpath, Nat.zero_add]
    exact ⟨trivial, item, hitem, hawaits⟩
  apart := h.apart
  filled := by
    have hbelow : Below (fun _ => True) deferred := by
      intro d hd
      obtain ⟨index, item, path, _, hpath, _⟩ := h.awaits d hd
      exact ⟨_, path, hpath, trivial⟩
    rw [Json.fill, hbelow.slots_root, Option.getD_none, h.filled]
  faults := h.faults

end LeadsToItems

namespace Work

theorem deferred_foldl (works : List (Work World)) (start : Work World) :
    (works.foldl (· ++ ·) start).deferred = start.deferred ++ works.flatMap (·.deferred) := by
  induction works generalizing start with
  | nil => simp
  | cons work works ih => simp [ih]

theorem faults_foldl (works : List (Work World)) (start : Work World) :
    (works.foldl (· ++ ·) start).faults = start.faults ++ works.flatMap (·.faults) := by
  induction works generalizing start with
  | nil => simp
  | cons work works ih => simp [ih]

end Work

namespace Assembler

variable (outcome) in
/-- An object under construction leads to a final object, so far as its current fields go. -/
structure LeadsTo (assembler : Assembler World) (final : Object) : Prop where
  /-- No key is repeated. -/
  once : (Dict.keys assembler.object).Nodup
  /-- The work of each key is kept once. -/
  pendingOnce : (assembler.pending.map Prod.fst).Nodup
  /-- The deferred fields have slots under the keys that their work is kept for. -/
  awaits : ∀ entry ∈ assembler.pending, ∃ value, Dict.get? assembler.object entry.1 = some value ∧
    ∀ d ∈ entry.2.deferred, ∃ path, d.trail.path = .key entry.1 :: path ∧ value.Awaits path
  /-- No slot is part of another one. -/
  apart : ∀ entry ∈ assembler.pending,
    entry.2.deferred.Pairwise fun a b => a.trail.path.Apart b.trail.path
  /-- The final object has these slots filled. -/
  filled : Json.fillFields (slots outcome (assembler.pending.flatMap (·.2.deferred)))
    assembler.object = final

/-- The faults that the work kept for a key comes to. -/
def dueFaults (outcome : Deferred World → Json × List Fault) (entry : String × Work World) :
    List Fault :=
  entry.2.faults ++ laterFaults outcome entry.2.deferred

/-- The faults that the work of all keys comes to, apart from those of keys that are set again. -/
def dueBeside (outcome : Deferred World → Json × List Fault) (assembler : Assembler World)
    (others : Object) : List Fault :=
  (assembler.pending.filter fun entry => !Dict.contains others entry.1).flatMap (dueFaults outcome)

theorem LeadsTo.empty : LeadsTo outcome (Assembler.empty : Assembler World) [] where
  once := .nil
  pendingOnce := .nil
  awaits := by simp [Assembler.empty]
  apart := by simp [Assembler.empty]
  filled := rfl

/-- Only the work kept for a key has slots under it. -/
theorem slots_key {entries : List (String × Work World)} (key : String) (path : Path)
    (h : ∀ entry ∈ entries, Below (· = .key entry.1) entry.2.deferred) :
    slots outcome (entries.flatMap (·.2.deferred)) (.key key :: path)
      = slots outcome ((entries.filter (·.1 == key)).flatMap (·.2.deferred))
          (.key key :: path) := by
  induction entries with
  | nil => rfl
  | cons entry rest ih =>
    have hrest := ih fun other hother ↦ h other (List.mem_cons_of_mem _ hother)
    rw [List.flatMap_cons, slots_append, hrest]
    by_cases hkey : entry.1 = key
    · rw [List.filter_cons_of_pos (by simpa using hkey), List.flatMap_cons, slots_append]
    · have hne : PathElement.key key ≠ .key entry.1 := fun heq ↦ hkey (PathElement.key.inj heq).symm
      rw [List.filter_cons_of_neg (by simpa using hkey),
        (h entry List.mem_cons_self).slots_cons hne, Option.none_or]

section Insert

variable {assembler : Assembler World} {key : String} {value : Json} {work : Work World}

theorem mem_pending_insert {entry : String × Work World}
    (h : entry ∈ (assembler.insert key value work).1.pending) :
    (entry ∈ assembler.pending ∧ entry.1 ≠ key) ∨ entry = (key, work) := by
  simp only [Assembler.insert] at h
  split at h
  · simpa using Or.inl (List.mem_filter.1 h)
  · rcases List.mem_append.1 h with h | h
    · simpa using Or.inl (List.mem_filter.1 h)
    · exact .inr (List.mem_singleton.1 h)

theorem nodup_pending_insert (h : (assembler.pending.map Prod.fst).Nodup) :
    ((assembler.insert key value work).1.pending.map Prod.fst).Nodup := by
  have hothers : ((assembler.pending.filter (·.1 != key)).map Prod.fst).Nodup :=
    h.sublist (List.filter_sublist.map _)
  simp only [Assembler.insert]
  split
  · exact hothers
  · rw [List.map_append, List.nodup_append]
    refine ⟨hothers, by simp, fun a ha b hb ↦ ?_⟩
    obtain ⟨entry, hentry, rfl⟩ := List.mem_map.1 ha
    simp only [List.map_cons, List.map_nil, List.mem_singleton] at hb
    subst hb
    simpa using (List.mem_filter.1 hentry).2

theorem deferred_insert :
    (assembler.insert key value work).1.pending.flatMap (·.2.deferred)
      = (assembler.pending.filter (·.1 != key)).flatMap (·.2.deferred) ++ work.deferred := by
  simp only [Assembler.insert]
  split
  · next hclean => simp [Work.deferred_of_isClean hclean]
  · simp

/-- A field that is replaced further on leaves no faults. -/
theorem dueBeside_insert_of_replaced {others : Object} (h : Dict.contains others key = true)
    (later : Json) :
    (assembler.insert key value work).1.dueBeside outcome others
      = assembler.dueBeside outcome ((key, later) :: others.filter (·.1 != key)) := by
  have hkeep : ∀ entry : String × Work World,
      (!Dict.contains others entry.1 && entry.1 != key)
        = !Dict.contains ((key, later) :: others.filter (·.1 != key)) entry.1 := by
    intro entry
    rw [Dict.contains_cons]
    by_cases hkey : key = entry.1
    · simp [hkey]
    · rw [Dict.contains_filter_ne _ hkey, Bool.not_or, Bool.and_comm, bne, Bool.beq_comm]
  have hpending : (assembler.insert key value work).1.pending.filter
        (fun entry => !Dict.contains others entry.1)
      = assembler.pending.filter
          fun entry => !Dict.contains others entry.1 && entry.1 != key := by
    simp only [Assembler.insert]
    split
    · rw [List.filter_filter]
    · rw [List.filter_append, List.filter_filter, List.filter_cons_of_neg (by simp [h]),
        List.filter_nil, List.append_nil]
  rw [dueBeside, hpending, dueBeside, List.filter_congr fun entry _ ↦ hkeep entry]

/-- The last field with a key leaves the faults that are due for it. -/
theorem dueBeside_insert_of_last {others : Object} (h : Dict.contains others key = false)
    (last : Json) :
    (assembler.insert key value work).1.dueBeside outcome others
      = assembler.dueBeside outcome ((key, last) :: others) ++ dueFaults outcome (key, work) := by
  have hkeep : ∀ entry : String × Work World,
      (!Dict.contains others entry.1 && entry.1 != key)
        = !Dict.contains ((key, last) :: others) entry.1 := by
    intro entry
    rw [Dict.contains_cons, Bool.not_or, Bool.and_comm, bne, Bool.beq_comm]
  have hothers : (assembler.pending.filter (·.1 != key)).filter
        (fun entry => !Dict.contains others entry.1)
      = assembler.pending.filter
          fun entry => !Dict.contains ((key, last) :: others) entry.1 := by
    rw [List.filter_filter, List.filter_congr fun entry _ ↦ hkeep entry]
  simp only [dueBeside, Assembler.insert]
  split
  · next hclean =>
    have hdue : dueFaults outcome (key, work) = [] := by
      simp [dueFaults, Work.deferred_of_isClean hclean, Work.faults_of_isClean hclean, laterFaults]
    rw [hothers, hdue, List.append_nil]
  · rw [List.filter_append, hothers, List.filter_cons_of_pos (by simp [h]), List.filter_nil,
      List.flatMap_append, List.flatMap_singleton]

/-- The faults that are due for a key are those that its value leads to. -/
theorem dueFaults_under (hportable : Portable outcome) {value : Json} {work : Work World}
    {final : Json × List Fault}
    (h : GraphCache.LeadsTo outcome value work.faults work.deferred final) (key : String)
    (trail : Trail) :
    (dueFaults outcome (key, work.under trail)).Perm (final.2.map (·.under trail)) :=
  h.faults_under hportable trail

theorem LeadsTo.below {final : Object} (h : assembler.LeadsTo outcome final) :
    ∀ entry ∈ assembler.pending, Below (· = .key entry.1) entry.2.deferred := by
  intro entry hentry d hd
  obtain ⟨value, _, hawaits⟩ := h.awaits entry hentry
  obtain ⟨path, hpath, _⟩ := hawaits d hd
  exact ⟨_, path, hpath, rfl⟩

/-- Setting a field of an object under construction sets it in the final object. -/
theorem LeadsTo.insert (hportable : Portable outcome) {final : Object}
    (h : assembler.LeadsTo outcome final) {finalValue : Json × List Fault}
    (hvalue : GraphCache.LeadsTo outcome value work.faults work.deferred finalValue)
    (position : Nat) :
    (assembler.insert key value (work.under (({} : Trail).field position key))).1.LeadsTo outcome
      (Dict.insert final key finalValue.1) := by
  have hobject : (assembler.insert key value
      (work.under (({} : Trail).field position key))).1.object
        = Dict.insert assembler.object key value := rfl
  refine ⟨?_, ?_, ?_, ?_, ?_⟩
  · exact Dict.nodup_keys_insert h.once key value
  · exact nodup_pending_insert h.pendingOnce
  · intro entry hentry
    rw [hobject]
    rcases mem_pending_insert hentry with ⟨hentry, hne⟩ | rfl
    · obtain ⟨inner, hinner, hawaits⟩ := h.awaits entry hentry
      exact ⟨inner, by rw [Dict.get?_insert_of_ne _ _ hne.symm, hinner], hawaits⟩
    · refine ⟨value, Dict.get?_insert_self _ _ _, fun d hd ↦ ?_⟩
      obtain ⟨inner, hinner, rfl⟩ := List.mem_map.1 hd
      exact ⟨inner.trail.path, rfl, hvalue.awaits inner hinner⟩
  · intro entry hentry
    rcases mem_pending_insert hentry with ⟨hentry, _⟩ | rfl
    · exact h.apart entry hentry
    · exact List.pairwise_map.2 (hvalue.apart.imp fun hab ↦
        (Path.Apart.prefix_append_iff _ _ _).2 hab)
  · rw [deferred_insert, Work.deferred_under, hobject, ← h.filled]
    have hbelow := below_under (rfl : (({} : Trail).field position key).path = [.key key])
      work.deferred
    have hothers : ∀ entry ∈ assembler.pending.filter (·.1 != key),
        Below (· = .key entry.1) entry.2.deferred :=
      fun entry hentry ↦ h.below entry (List.mem_filter.1 hentry).1
    rw [Json.fillFields_insert h.once key value ?_]
    · have hhere : (fun path ↦ slots outcome
          ((assembler.pending.filter (·.1 != key)).flatMap (·.2.deferred)
            ++ work.deferred.map (·.under (({} : Trail).field position key))) (.key key :: path))
          = slots outcome work.deferred := by
        funext path
        have hnone : slots outcome
            ((assembler.pending.filter (·.1 != key)).flatMap (·.2.deferred)) (.key key :: path)
            = none := by
          rw [slots_key key path hothers, List.filter_filter]
          simp [slots]
        rw [slots_append, hnone, Option.none_or]
        exact slots_under hportable (({} : Trail).field position key) work.deferred path
      rw [hhere, hvalue.filled]
    · intro other hother path
      have hne : PathElement.key other ≠ .key key := fun heq ↦ hother (PathElement.key.inj heq)
      have hsame : (assembler.pending.filter (·.1 != key)).filter (·.1 == other)
          = assembler.pending.filter (·.1 == other) := by
        rw [List.filter_filter]
        refine List.filter_congr fun entry _ ↦ ?_
        by_cases heq : entry.1 = other <;> simp [heq, hother]
      rw [slots_append, hbelow.slots_cons hne, Option.or_none, slots_key other path hothers, hsame,
        ← slots_key other path h.below]

end Insert

theorem work_deferred (assembler : Assembler World) :
    assembler.work.deferred = assembler.pending.flatMap (·.2.deferred) := by
  simp [work, Work.deferred_foldl, List.flatMap_map]

theorem work_faults (assembler : Assembler World) :
    assembler.work.faults = assembler.pending.flatMap (·.2.faults) := by
  simp [work, Work.faults_foldl, List.flatMap_map, Work.none, Work.giveUp]

/-- A finished object leads to the final object. -/
theorem LeadsTo.finish {assembler : Assembler World} {final : Object}
    (h : assembler.LeadsTo outcome final) :
    GraphCache.LeadsTo outcome (.object assembler.object) assembler.work.faults
      assembler.work.deferred (.object final, assembler.dueBeside outcome []) where
  awaits d hd := by
    rw [work_deferred] at hd
    obtain ⟨entry, hentry, hd⟩ := List.mem_flatMap.1 hd
    obtain ⟨value, hvalue, hawaits⟩ := h.awaits entry hentry
    obtain ⟨path, hpath, hslot⟩ := hawaits d hd
    rw [hpath]
    exact ⟨h.once, value, hvalue, hslot⟩
  apart := by
    rw [work_deferred, List.pairwise_flatMap]
    refine ⟨h.apart, (List.pairwise_map.1 h.pendingOnce).imp_of_mem ?_⟩
    intro a b ha hb hne x hx y hy
    obtain ⟨_, path, hpath, rfl⟩ := h.below a ha x hx
    rw [hpath]
    exact (h.below b hb).apart hy (fun heq ↦ hne (PathElement.key.inj heq)) path
  filled := by
    have hbelow : Below (fun _ => True) (assembler.pending.flatMap (·.2.deferred)) := by
      intro d hd
      obtain ⟨entry, hentry, hd⟩ := List.mem_flatMap.1 hd
      obtain ⟨step, path, hpath, _⟩ := h.below entry hentry d hd
      exact ⟨step, path, hpath, trivial⟩
    rw [Json.fill, work_deferred, hbelow.slots_root, Option.getD_none, h.filled]
  faults := by
    have hall : assembler.dueBeside outcome [] = assembler.pending.flatMap (dueFaults outcome) := by
      simp [dueBeside, Dict.contains]
    rw [work_deferred, work_faults, hall]
    have hsplit (entries : List (String × Work World)) :
        (entries.flatMap (·.2.faults) ++ laterFaults outcome (entries.flatMap (·.2.deferred))).Perm
          (entries.flatMap (dueFaults outcome)) := by
      have hlater : laterFaults outcome (entries.flatMap (·.2.deferred))
          = entries.flatMap fun entry => laterFaults outcome entry.2.deferred := by
        simp [laterFaults, List.flatMap_assoc]
      rw [hlater]
      exact List.flatMap_append_perm entries _ _
    exact hsplit _

end Assembler

end GraphCache
