import GraphCache.Proofs.Entries
import GraphCache.Proofs.Prevailing
import Mathlib.Data.List.Induction
import Mathlib.Data.List.ReduceOption

/-!
# What is reported of replaced fields

While an object is assembled, a field may be set under a key that is there already. The work of the
field that it replaces is reported then, so that it can be given up. All work is accounted for: what
is left behind by a field is reported exactly once, or it is still kept in the end. The order in
which work is kept makes no difference to this. It might as well be kept in a list from which an
entry is taken by moving the last one to its place.

## Main definitions

* `Insertion`, `Insertion.run`: fields that are set one after the other, and what is reported.
* `Insertion.Accounted`: what is reported, kept and held after a number of insertions.
* `Dict.swapRemove`, `SwappingAssembler`: an object that keeps the work of its fields in no
  particular order.

## Main results

* `Assembler.Records.insert`: what one insertion makes of an object under construction.
* `SwappingAssembler.Agrees.insert`: the order of the kept work does not matter for an insertion.
* `Assembler.replacements_accounted`: everything is accounted for after any insertions.
-/

namespace GraphCache

variable {World : Type}

/-- A field that is set in an object under construction. -/
structure Insertion (World : Type) where
  /-- The response key. -/
  key : String
  /-- The value. -/
  value : Json
  /-- The work that completing the field left behind. -/
  work : Work World

namespace Insertion

/-! ### Insertions in sequence -/

/-- Makes the listed insertions one after the other, and collects what is reported for each. -/
def run {State : Type} (insert : State → Insertion World → State × Option (Work World))
    (state : State) : List (Insertion World) → State × List (Option (Work World))
  | [] => (state, [])
  | insertion :: insertions =>
    let next := insert state insertion
    let last := run insert next.1 insertions
    (last.1, next.2 :: last.2)

section Run

variable {State : Type} (insert : State → Insertion World → State × Option (Work World))

/-- Insertions can be made in two portions. -/
theorem run_append (state : State) (insertions others : List (Insertion World)) :
    run insert state (insertions ++ others)
      = ((run insert (run insert state insertions).1 others).1,
          (run insert state insertions).2
            ++ (run insert (run insert state insertions).1 others).2) := by
  induction insertions generalizing state with
  | nil => rfl
  | cons insertion insertions ih => rw [List.cons_append, run, run, ih, List.cons_append]

theorem run_concat (state : State) (insertions : List (Insertion World))
    (insertion : Insertion World) :
    run insert state (insertions ++ [insertion])
      = ((insert (run insert state insertions).1 insertion).1,
          (run insert state insertions).2
            ++ [(insert (run insert state insertions).1 insertion).2]) :=
  run_append insert state insertions [insertion]

theorem length_run (state : State) (insertions : List (Insertion World)) :
    (run insert state insertions).2.length = insertions.length := by
  induction insertions generalizing state with
  | nil => rfl
  | cons insertion insertions ih => rw [run, List.length_cons, List.length_cons, ih]

/-- What is reported for one of the insertions depends on the earlier ones only. -/
theorem getElem?_run (state : State) (earlier : List (Insertion World))
    (insertion : Insertion World) (later : List (Insertion World)) :
    (run insert state (earlier ++ insertion :: later)).2[earlier.length]?
      = some (insert (run insert state earlier).1 insertion).2 := by
  have hlength := length_run insert state earlier
  rw [run_append, List.getElem?_append_right (Nat.le_of_eq hlength), hlength, Nat.sub_self, run,
    List.getElem?_cons_zero]

end Run

/-- The last insertion with a key is the one that is made last, if it has this key. -/
theorem findRev?_concat (insertions : List (Insertion World)) (insertion : Insertion World)
    (key : String) :
    (insertions ++ [insertion]).findRev? (·.key == key)
      = if insertion.key = key then some insertion
        else insertions.findRev? (·.key == key) := by
  rw [List.findRev?_eq_find?_reverse, List.findRev?_eq_find?_reverse, List.reverse_append,
    List.reverse_singleton, List.singleton_append]
  by_cases hkey : insertion.key = key
  · rw [List.find?_cons_of_pos (by simpa using hkey), if_pos hkey]
  · rw [List.find?_cons_of_neg (by simpa using hkey), if_neg hkey]

/-- What there is after a number of insertions into an empty object: the object, the work that is
kept, each under its key, and what was reported for each insertion. -/
structure Accounted (insertions : List (Insertion World)) (object : Object)
    (kept : List (String × Work World)) (reports : List (Option (Work World))) : Prop where
  /-- Every insertion has a report, which may be empty. -/
  length : reports.length = insertions.length
  /-- An insertion reports the work of the previous one with its key, if this left work behind. -/
  reported : ∀ earlier insertion later, insertions = earlier ++ insertion :: later → ∀ work,
    reports[earlier.length]? = some (some work) ↔
      ∃ previous, earlier.findRev? (·.key == insertion.key) = some previous ∧
        previous.work = work ∧ work.isClean = false
  /-- At most one work is kept for a key. -/
  keptOnce : (Dict.keys kept).Nodup
  /-- What was reported and what is kept is all work that was left behind, each as often as it
  was. -/
  conserved : (reports.reduceOption ++ kept.map Prod.snd).Perm
    ((insertions.map (·.work)).filter (!·.isClean))
  /-- The keys are in the order in which they were first inserted. -/
  keys : Dict.keys object = (insertions.map (·.key)).eraseDups
  /-- Each key has the value that was inserted last. -/
  values : ∀ key, Dict.get? object key = (insertions.findRev? (·.key == key)).map (·.value)

end Insertion

/-! ### Objects under construction -/

namespace Assembler

/-- What is left of an empty object after the listed insertions, and what was reported for them. -/
def ofInsertions (insertions : List (Insertion World)) :
    Assembler World × List (Option (Work World)) :=
  Insertion.run (fun assembler insertion ↦
    assembler.insert insertion.key insertion.value insertion.work) .empty insertions

theorem ofInsertions_concat (insertions : List (Insertion World)) (insertion : Insertion World) :
    ofInsertions (insertions ++ [insertion])
      = (((ofInsertions insertions).1.insert insertion.key insertion.value insertion.work).1,
          (ofInsertions insertions).2 ++ [(ofInsertions insertions).1.workOf? insertion.key]) :=
  Insertion.run_concat _ _ insertions insertion

theorem pending_insert (assembler : Assembler World) (key : String) (value : Json)
    (work : Work World) :
    (assembler.insert key value work).1.pending
      = assembler.pending.filter (·.1 != key)
          ++ ([work].filter (!·.isClean)).map (key, ·) := by
  simp only [insert]
  split
  · next hclean => simp [hclean]
  · next hclean => simp [hclean]

/-- Work is kept for the field that was set last, if it left work behind. -/
theorem workOf?_insert_eq (assembler : Assembler World) (key other : String) (value : Json)
    (work : Work World) :
    (assembler.insert key value work).1.workOf? other
      = if key = other then (some work).filter (!·.isClean) else assembler.workOf? other := by
  rw [workOf?, pending_insert, Dict.get?_append, Dict.get?_filter_ne]
  by_cases hkey : key = other
  · cases hclean : work.isClean <;> simp [hkey, hclean, Dict.get?_cons, Option.filter_some]
  · cases hclean : work.isClean <;> simp [hkey, hclean, Dict.get?_cons, workOf?]

/-- What an insertion reports, and what is kept then, is the work that was kept before and that of
the insertion. -/
theorem Tidy.conserves {assembler : Assembler World} (h : assembler.Tidy) (key : String)
    (value : Json) (work : Work World) :
    ((assembler.workOf? key).toList ++
        (assembler.insert key value work).1.pending.map Prod.snd).Perm
      (assembler.pending.map Prod.snd ++ [work].filter (!·.isClean)) := by
  have hworks (works : List (Work World)) : (works.map (key, ·)).map Prod.snd = works := by
    rw [List.map_map]
    exact List.map_id works
  have hsplit := (Dict.perm_filter_ne h.pendingOnce key).map Prod.snd
  rw [List.map_append, hworks] at hsplit
  rw [pending_insert, List.map_append, hworks, ← List.append_assoc]
  exact (List.perm_append_comm.trans hsplit.symm).append_right _

/-- An object under construction holds what the listed insertions make of an empty one. -/
structure Records (insertions : List (Insertion World)) (assembler : Assembler World) : Prop where
  /-- No key is repeated, and work is kept for keys that are set. -/
  tidy : assembler.Tidy
  /-- The keys are in the order in which they were first inserted. -/
  keys : Dict.keys assembler.object = (insertions.map (·.key)).eraseDups
  /-- Each key has the value that was inserted last. -/
  values : ∀ key, Dict.get? assembler.object key
    = (insertions.findRev? (·.key == key)).map (·.value)
  /-- The work of this insertion is kept, if there is some. -/
  works : ∀ key, assembler.workOf? key
    = ((insertions.findRev? (·.key == key)).map (·.work)).filter (!·.isClean)

namespace Records

theorem empty : Records [] (empty : Assembler World) where
  tidy := .empty
  keys := rfl
  values _ := rfl
  works _ := rfl

variable {insertions : List (Insertion World)} {assembler : Assembler World}

/-- One insertion more sets its field, and keeps its work in place of that of the last insertion
with the same key. -/
theorem insert (h : Records insertions assembler) (insertion : Insertion World) :
    Records (insertions ++ [insertion])
      (assembler.insert insertion.key insertion.value insertion.work).1 where
  tidy := h.tidy.insert
  keys := by
    have hobject : (assembler.insert insertion.key insertion.value insertion.work).1.object
        = Dict.insert assembler.object insertion.key insertion.value := rfl
    rw [hobject, Dict.keys_insert, List.map_append, List.map_singleton, eraseDups_concat, h.keys]
  values key := by
    have hobject : (assembler.insert insertion.key insertion.value insertion.work).1.object
        = Dict.insert assembler.object insertion.key insertion.value := rfl
    rw [hobject, Dict.get?_insert, Insertion.findRev?_concat, h.values]
    split
    · rfl
    · rfl
  works key := by
    rw [workOf?_insert_eq, Insertion.findRev?_concat, h.works]
    split
    · rfl
    · rfl

end Records

/-- After any insertions into an empty object, it holds what they make of it. -/
theorem records_ofInsertions (insertions : List (Insertion World)) :
    Records insertions (ofInsertions insertions).1 := by
  -- The reports look back, so the induction adds insertions at the end.
  induction insertions using List.reverseRecOn with
  | nil => exact .empty
  | append_singleton insertions insertion ih =>
    rw [ofInsertions_concat]
    exact ih.insert insertion

end Assembler

/-! ### Work in no particular order -/

namespace Dict

variable {α : Type}

/-- The list without the element at an index; the last element is moved to its place. -/
def swapRemoveAt (elements : List α) (index : Nat) : List α :=
  match elements.getLast? with
  | some last => (elements.set index last).dropLast
  | none => elements

/-- Takes out the first entry with a key, and moves the last entry to its place. -/
def swapRemove (d : Dict α) (key : String) : Option α × Dict α :=
  match d.findIdx? (·.1 == key) with
  | some index => ((d[index]?).map Prod.snd, swapRemoveAt d index)
  | none => (none, d)

/-- Only the order of the other elements changes. -/
theorem swapRemoveAt_perm (before : List α) (element : α) (after : List α) :
    (swapRemoveAt (before ++ element :: after) before.length).Perm (before ++ after) := by
  rcases List.eq_nil_or_concat after with rfl | ⟨rest, last, rfl⟩
  · simp [swapRemoveAt]
  · have hlast : (before ++ element :: (rest ++ [last])).getLast? = some last := by
      rw [← List.cons_append, ← List.append_assoc, List.getLast?_concat]
    have hset : (before ++ element :: (rest ++ [last])).set before.length last
        = (before ++ last :: rest) ++ [last] := by
      rw [List.set_append_right _ _ (Nat.le_refl _), Nat.sub_self, List.set_cons_zero,
        List.append_assoc, List.cons_append]
    rw [List.concat_eq_append, swapRemoveAt, hlast]
    dsimp only
    rw [hset, List.dropLast_concat]
    exact (List.perm_append_singleton last rest).symm.append_left before

theorem findIdx?_eq_none {d : Dict α} {key : String} (h : key ∉ keys d) :
    d.findIdx? (·.1 == key) = none := by
  refine List.findIdx?_eq_none_iff.2 fun entry hentry ↦ beq_false_of_ne ?_
  rintro rfl
  exact h (List.mem_map_of_mem hentry)

/-- Taking an entry out in this way finds the value of the key, and leaves the other entries. -/
theorem swapRemove_spec {d : Dict α} (h : (keys d).Nodup) (key : String) :
    (swapRemove d key).1 = get? d key ∧
      (swapRemove d key).2.Perm (d.filter (·.1 != key)) := by
  by_cases hkey : key ∈ keys d
  · obtain ⟨entry, hentry, rfl⟩ := List.mem_map.1 hkey
    obtain ⟨before, after, rfl⟩ := List.append_of_mem hentry
    rw [keys, List.map_append, List.map_cons, List.nodup_middle, List.nodup_cons,
      List.mem_append, not_or] at h
    obtain ⟨⟨hbefore, hafter⟩, -⟩ := h
    have hindex : (before ++ entry :: after).findIdx? (·.1 == entry.1) = some before.length := by
      simp [List.findIdx?_append, findIdx?_eq_none hbefore, List.findIdx?_cons]
    have hget : get? (before ++ entry :: after) entry.1 = some entry.2 := by
      rw [get?_append, (get?_eq_none_iff before entry.1).2 hbefore, Option.none_or]
      exact if_pos rfl
    have hothers : (before ++ entry :: after).filter (·.1 != entry.1) = before ++ after := by
      rw [List.filter_append, filter_ne_eq_self hbefore, List.filter_cons_of_neg (by simp),
        filter_ne_eq_self hafter]
    rw [swapRemove, hindex, hget, hothers]
    exact ⟨by simp, swapRemoveAt_perm before entry after⟩
  · rw [swapRemove, findIdx?_eq_none hkey, (get?_eq_none_iff d key).2 hkey,
      filter_ne_eq_self hkey]
    exact ⟨rfl, .refl d⟩

end Dict

/-- An object under construction that keeps the work of its fields in no particular order. -/
structure SwappingAssembler (World : Type) where
  /-- The fields so far. -/
  object : Object := []
  /-- The work of the fields that have some, each under its response key. -/
  pending : List (String × Work World) := []

namespace SwappingAssembler

/-- Takes out the work of the field with a key; without such a field there is none. -/
def takeWork (assembler : SwappingAssembler World) (key : String) :
    Option (Work World) × List (String × Work World) :=
  if Dict.contains assembler.object key then Dict.swapRemove assembler.pending key
  else (none, assembler.pending)

/-- Sets a field, and returns the work of the field that is replaced, if there was any. -/
def insert (assembler : SwappingAssembler World) (insertion : Insertion World) :
    SwappingAssembler World × Option (Work World) :=
  let (superseded, others) := assembler.takeWork insertion.key
  ({ object := Dict.insert assembler.object insertion.key insertion.value
     pending :=
      if insertion.work.isClean then others else others ++ [(insertion.key, insertion.work)] },
    superseded)

/-- What is left of an empty object after the listed insertions, and what was reported for them. -/
def ofInsertions (insertions : List (Insertion World)) :
    SwappingAssembler World × List (Option (Work World)) :=
  Insertion.run insert {} insertions

/-- Two objects under construction differ in the order of the kept work at most. -/
structure Agrees (swapping : SwappingAssembler World) (assembler : Assembler World) : Prop where
  /-- The fields are the same. -/
  object : swapping.object = assembler.object
  /-- The same work is kept. -/
  pending : swapping.pending.Perm assembler.pending

namespace Agrees

variable {swapping : SwappingAssembler World} {assembler : Assembler World}

theorem takeWork (h : swapping.Agrees assembler) (htidy : assembler.Tidy) (key : String) :
    (swapping.takeWork key).1 = assembler.workOf? key ∧
      (swapping.takeWork key).2.Perm (assembler.pending.filter (·.1 != key)) := by
  have honce : (Dict.keys swapping.pending).Nodup :=
    (h.pending.map Prod.fst).nodup_iff.2 htidy.pendingOnce
  have hget : Dict.get? swapping.pending key = assembler.workOf? key :=
    Dict.get?_eq_of_perm honce h.pending key
  rw [SwappingAssembler.takeWork]
  split
  · obtain ⟨hfound, hothers⟩ := Dict.swapRemove_spec honce key
    exact ⟨hfound.trans hget, hothers.trans (h.pending.filter _)⟩
  · next hcontains =>
    -- The order of the look-ups does not matter either: without a field there is no work.
    have habsent : key ∉ Dict.keys assembler.pending := by
      intro hkey
      obtain ⟨entry, hentry, rfl⟩ := List.mem_map.1 hkey
      refine hcontains ?_
      rw [h.object, Dict.contains, Dict.get?_isSome_iff]
      exact htidy.pendingSet entry hentry
    rw [Assembler.workOf?, (Dict.get?_eq_none_iff _ _).2 habsent, Dict.filter_ne_eq_self habsent]
    exact ⟨rfl, h.pending⟩

/-- The order of the kept work makes no difference to what an insertion reports, and to what is
held and kept after it. -/
theorem insert (h : swapping.Agrees assembler) (htidy : assembler.Tidy)
    (insertion : Insertion World) :
    (swapping.insert insertion).1.Agrees
        (assembler.insert insertion.key insertion.value insertion.work).1 ∧
      (swapping.insert insertion).2
        = (assembler.insert insertion.key insertion.value insertion.work).2 := by
  obtain ⟨hfound, hothers⟩ := h.takeWork htidy insertion.key
  refine ⟨⟨congrArg (Dict.insert · insertion.key insertion.value) h.object, ?_⟩, hfound⟩
  simp only [SwappingAssembler.insert, Assembler.insert]
  split
  · exact hothers
  · exact hothers.append_right _

end Agrees

/-- After any insertions, what is held is the same, and so is what was reported. -/
theorem agrees_ofInsertions (insertions : List (Insertion World)) :
    (ofInsertions insertions).1.Agrees (Assembler.ofInsertions insertions).1 ∧
      (ofInsertions insertions).2 = (Assembler.ofInsertions insertions).2 := by
  induction insertions using List.reverseRecOn with
  | nil => exact ⟨⟨rfl, .nil⟩, rfl⟩
  | append_singleton insertions insertion ih =>
    obtain ⟨hagrees, hreports⟩ := ih
    obtain ⟨hinsert, hreport⟩ :=
      hagrees.insert (Assembler.records_ofInsertions insertions).tidy insertion
    rw [ofInsertions, Insertion.run_concat, Assembler.ofInsertions, Insertion.run_concat]
    exact ⟨hinsert, congrArg₂ (fun reports report ↦ reports ++ [report]) hreports hreport⟩

end SwappingAssembler

/-! ### What is accounted for -/

namespace Assembler

/-- What was reported for an insertion is what was kept for its key. -/
theorem getElem?_ofInsertions (earlier : List (Insertion World)) (insertion : Insertion World)
    (later : List (Insertion World)) :
    (ofInsertions (earlier ++ insertion :: later)).2[earlier.length]?
      = some (((earlier.findRev? (·.key == insertion.key)).map (·.work)).filter
          (!·.isClean)) := by
  rw [← (records_ofInsertions earlier).works]
  exact Insertion.getElem?_run _ _ earlier insertion later

theorem conserved_ofInsertions (insertions : List (Insertion World)) :
    ((ofInsertions insertions).2.reduceOption
        ++ (ofInsertions insertions).1.pending.map Prod.snd).Perm
      ((insertions.map (·.work)).filter (!·.isClean)) := by
  induction insertions using List.reverseRecOn with
  | nil => exact .nil
  | append_singleton insertions insertion ih =>
    have hstep := (records_ofInsertions insertions).tidy.conserves insertion.key insertion.value
      insertion.work
    rw [ofInsertions_concat, List.reduceOption_append, List.reduceOption_singleton,
      List.map_append, List.filter_append, List.append_assoc]
    refine (hstep.append_left _).trans ?_
    rw [← List.append_assoc]
    exact ih.append_right _

end Assembler

open Insertion (Accounted)

/-- **Replaced fields are accounted for.** Whatever fields are set one after the other in an empty
object: each reports the work of the previous field with its key, if this left work behind, and
nothing otherwise; at most one work is kept for a key, and no work is reported twice, since what was
reported and what is still kept is all work that was left behind; the object has its keys in the
order of their first insertion, each with the value that was inserted last. All this is so, with the
same reports and the same object, if work is kept in a list from which an entry is taken by moving
the last one to its place. -/
theorem Assembler.replacements_accounted (insertions : List (Insertion World)) :
    Accounted insertions (Assembler.ofInsertions insertions).1.object
        (Assembler.ofInsertions insertions).1.pending (Assembler.ofInsertions insertions).2 ∧
      Accounted insertions (SwappingAssembler.ofInsertions insertions).1.object
        (SwappingAssembler.ofInsertions insertions).1.pending
        (SwappingAssembler.ofInsertions insertions).2 ∧
      (SwappingAssembler.ofInsertions insertions).1.object
        = (Assembler.ofInsertions insertions).1.object ∧
      (SwappingAssembler.ofInsertions insertions).1.pending.Perm
        (Assembler.ofInsertions insertions).1.pending ∧
      (SwappingAssembler.ofInsertions insertions).2 = (Assembler.ofInsertions insertions).2 := by
  have haccounted : Accounted insertions (Assembler.ofInsertions insertions).1.object
      (Assembler.ofInsertions insertions).1.pending (Assembler.ofInsertions insertions).2 := by
    have hrecords := Assembler.records_ofInsertions insertions
    refine ⟨Insertion.length_run _ _ insertions, ?_, hrecords.tidy.pendingOnce,
      Assembler.conserved_ofInsertions insertions, hrecords.keys, hrecords.values⟩
    rintro earlier insertion later rfl work
    rw [Assembler.getElem?_ofInsertions, Option.some_inj, Option.filter_eq_some_iff]
    constructor
    · rintro ⟨hlast, hclean⟩
      obtain ⟨previous, hprevious, hwork⟩ := Option.map_eq_some_iff.1 hlast
      exact ⟨previous, hprevious, hwork, by simpa using hclean⟩
    · rintro ⟨previous, hprevious, hwork, hclean⟩
      exact ⟨Option.map_eq_some_iff.2 ⟨previous, hprevious, hwork⟩, by simpa using hclean⟩
  obtain ⟨⟨hobject, hpending⟩, hreports⟩ := SwappingAssembler.agrees_ofInsertions insertions
  refine ⟨haccounted, ?_, hobject, hpending, hreports⟩
  rw [hobject, hreports]
  exact { haccounted with
    keptOnce := (hpending.map Prod.fst).nodup_iff.2 haccounted.keptOnce
    conserved := ((hpending.map Prod.snd).append_left _).trans haccounted.conserved }

/-- When the first field is replaced, the work of the third one is moved to its place; it is found
there when the third one is replaced in turn. -/
example :
    let fault (name : String) : Work Nat := .ofFault {} (.missingField name)
    (SwappingAssembler.ofInsertions [⟨"a", .null, fault "a"⟩, ⟨"b", .null, fault "b"⟩,
        ⟨"c", .null, fault "c"⟩, ⟨"a", .bool true, .none⟩, ⟨"c", .bool true, .none⟩]).2
      = [none, none, none, some (fault "a"), some (fault "c")] := rfl

end GraphCache
