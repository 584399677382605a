import GraphCache.Proofs.Prevailing
import Mathlib.Data.List.Nodup

/-!
# Slots of faults and of deferred fields

A completed value holds `null` for every fault in it and for every field that is still deferred,
each in a slot of its own. This holds whatever the resolvers answer, and it stays so when a deferred
field is finished: its value takes the slot, with slots of its own inside.

The position of each of them is told by the plan: a step to a key is at the position of the field
that prevails for the key, a step to an item at the index of the item. So different slots have
different positions.

## Main definitions

* `Json.Vacancies`: slots that hold `null`, no two of them the same.
* `Trail.Within`: the positions along a path are those of the plan.
* `Work.Fits`: faults and deferred fields have slots of their own, at positions of the plan.

## Main results

* `Json.Vacancies.replaceAt?`: filling one vacancy by a value with vacancies of its own.
* `Work.Fits.settle`: finishing one deferred field keeps what is said of the others.
* `Work.FitsItems.cons`, `Assembler.Built.fits`: lists and objects.
* `Work.Fits.inOrder_sorted`: faults are reported in strictly increasing order.
-/

namespace GraphCache

variable {World : Type}

/-! ### Vacancies -/

namespace Json

/-- The slots at the listed paths hold `null`, and no path is listed twice. -/
structure Vacancies (value : Json) (paths : List Path) : Prop where
  /-- The slots hold `null`. -/
  awaits : ∀ path ∈ paths, value.Awaits path
  /-- No path is listed twice. -/
  once : paths.Nodup

/-- The slot of a vacancy holds `null`. -/
theorem Awaits.at? {value : Json} {path : Path} (h : value.Awaits path) :
    value.at? path = some .null := by
  induction path generalizing value with
  | nil => exact congrArg some h
  | cons step path ih =>
    obtain ⟨_, inner, hinner, hawaits⟩ := h
    rw [Json.at?, hinner, Option.bind_some]
    exact ih hawaits

/-- A vacancy has no part. -/
theorem Awaits.eq_of_below {value : Json} {p q : Path} (hp : value.Awaits p)
    (hq : value.Awaits q) (h : p <+: q) : p = q := by
  induction p generalizing value q with
  | nil =>
    cases q with
    | nil => rfl
    | cons step q =>
      obtain rfl : value = .null := hp
      obtain ⟨_, _, hinner, _⟩ := hq
      cases hinner
  | cons step p ih =>
    cases q with
    | nil => simp at h
    | cons step' q =>
      obtain ⟨rfl, hprefix⟩ := List.cons_prefix_cons.1 h
      obtain ⟨_, inner, hinner, hp⟩ := hp
      obtain ⟨_, inner', hinner', hq⟩ := hq
      obtain rfl : inner = inner' := Option.some.inj (hinner.symm.trans hinner')
      rw [ih hp hq hprefix]

namespace Vacancies

variable {value : Json} {paths : List Path}

theorem nil (value : Json) : value.Vacancies [] :=
  ⟨by simp, .nil⟩

theorem root : Vacancies .null [[]] :=
  ⟨by simp [Awaits], by simp⟩

theorem perm {others : List Path} (h : value.Vacancies paths) (hperm : paths.Perm others) :
    value.Vacancies others :=
  ⟨fun path hpath ↦ h.awaits path (hperm.mem_iff.2 hpath), hperm.nodup_iff.1 h.once⟩

/-- No vacancy is part of another one. -/
theorem apart (h : value.Vacancies paths) : paths.Pairwise Path.Apart := by
  refine h.once.imp_of_mem fun {p q} hp hq hne ↦ ⟨fun hprefix ↦ hne ?_, fun hprefix ↦ hne ?_⟩
  · exact (h.awaits p hp).eq_of_below (h.awaits q hq) hprefix
  · exact ((h.awaits q hq).eq_of_below (h.awaits p hp) hprefix).symm

/-- A vacancy can be filled; the others remain, and those of the new value are added. -/
theorem replaceAt? {target : Json} {path : Path} {others : List Path}
    (h : target.Vacancies (path :: others)) (hvalue : value.Vacancies paths) :
    ∃ target', target.replaceAt? path value = some target' ∧
      target'.Vacancies (others ++ paths.map (path ++ ·)) := by
  obtain ⟨hothers, hapart⟩ := List.pairwise_cons.1 h.apart
  obtain ⟨target', hreplace, helse, hbelow⟩ :=
    (h.awaits path List.mem_cons_self).replaceAt? value
  refine ⟨target', hreplace, ?_, ?_⟩
  · intro other hother
    rcases List.mem_append.1 hother with hother | hother
    · exact helse other (hothers other hother) (h.awaits other (List.mem_cons_of_mem _ hother))
    · obtain ⟨inner, hinner, rfl⟩ := List.mem_map.1 hother
      exact hbelow inner (hvalue.awaits inner hinner)
  · rw [List.nodup_append]
    refine ⟨h.once.of_cons, hvalue.once.map fun _ _ ↦ List.append_cancel_left, ?_⟩
    rintro other hother _ hmoved rfl
    obtain ⟨inner, _, rfl⟩ := List.mem_map.1 hmoved
    exact (hothers _ hother).1 (List.prefix_append _ _)

end Vacancies

end Json

/-! ### Positions in the plan -/

/-- The nested selections of a field, if it has some. -/
def FieldPlan.nestedFields : FieldPlan → List FieldPlan
  | .leaf _ => []
  | .nested _ _ fields => fields

namespace Trail

/-- A path leads from a value of the given selections to a value of inner ones, and the positions
along it are those of the fields that prevail and of the items. -/
inductive Within (vars : Object) : List FieldPlan → Path → List Nat → List FieldPlan → Prop
  | here (fields : List FieldPlan) : Within vars fields [] [] fields
  | item (position : Nat) {fields inner : List FieldPlan} {path : Path} {order : List Nat}
      (h : Within vars fields path order inner) :
      Within vars fields (.index position :: path) (position :: order) inner
  | field {typename : Option String} {key : String} {position : Nat} {plan : FieldPlan}
      {fields inner : List FieldPlan} {path : Path} {order : List Nat}
      (hprevails : FieldPlan.prevailing? vars typename key 0 fields = some (position, plan))
      (h : Within vars plan.nestedFields path order inner) :
      Within vars fields (.key key :: path) (position :: order) inner

namespace Within

variable {vars : Object} {fields middle inner other : List FieldPlan} {path more : Path}
  {order further : List Nat}

theorem append (h : Within vars fields path order middle)
    (hmore : Within vars middle more further inner) :
    Within vars fields (path ++ more) (order ++ further) inner := by
  induction h with
  | here => exact hmore
  | item position _ ih => exact .item position (ih hmore)
  | field hprevails _ ih => exact .field hprevails (ih hmore)

/-- Different slots of a value have different positions. -/
theorem path_eq {value : Json} (h : Within vars fields path order inner)
    (hmore : Within vars fields more order other) (hpath : value.Awaits path)
    (hmorePath : value.Awaits more) : path = more := by
  induction h generalizing value more with
  | here fields =>
    cases hmore with
    | here => rfl
  | item position h ih =>
    obtain ⟨_, first, hfirst, hpath⟩ := hpath
    cases hmore with
    | item _ hmore =>
      obtain ⟨_, second, hsecond, hmorePath⟩ := hmorePath
      obtain rfl : first = second := Option.some.inj (hfirst.symm.trans hsecond)
      rw [ih hmore hpath hmorePath]
    | field _ _ =>
      obtain ⟨_, second, hsecond, _⟩ := hmorePath
      cases value <;> simp [Json.child?] at hfirst hsecond
  | field hprevails h ih =>
    obtain ⟨_, first, hfirst, hpath⟩ := hpath
    cases hmore with
    | item _ hmore =>
      obtain ⟨_, second, hsecond, _⟩ := hmorePath
      cases value <;> simp [Json.child?] at hfirst hsecond
    | field hprevails' hmore =>
      obtain ⟨_, second, hsecond, hmorePath⟩ := hmorePath
      obtain ⟨_, hlisted, hkey, _⟩ := FieldPlan.of_prevailing? hprevails
      obtain ⟨_, hlisted', hkey', _⟩ := FieldPlan.of_prevailing? hprevails'
      obtain rfl := Option.some.inj (hlisted.symm.trans hlisted')
      obtain rfl := hkey.symm.trans hkey'
      obtain rfl : first = second := Option.some.inj (hfirst.symm.trans hsecond)
      rw [ih hmore hpath hmorePath]

end Within

/-- Positions that come no later than each other are the same. -/
theorem positionsLE_antisymm {is js : List Nat} (hij : positionsLE is js)
    (hji : positionsLE js is) : is = js := by
  induction is generalizing js with
  | nil =>
    cases js with
    | nil => rfl
    | cons j js => simp [positionsLE] at hji
  | cons i is ih =>
    cases js with
    | nil => simp [positionsLE] at hij
    | cons j js =>
      simp only [positionsLE, Bool.or_eq_true, Bool.and_eq_true, decide_eq_true_eq,
        beq_iff_eq] at hij hji
      rcases hij with h | ⟨rfl, hij⟩
      · omega
      · rcases hji with h | ⟨_, hji⟩
        · omega
        · rw [ih hij hji]

end Trail

/-! ### Work that fits a value -/

namespace Work

/-- The positions of the faults and of the deferred fields. -/
def trails (work : Work World) : List Trail :=
  work.faults.map Fault.trail ++ work.deferred.map Deferred.trail

theorem mem_trails {work : Work World} {trail : Trail} :
    trail ∈ work.trails ↔
      (∃ fault ∈ work.faults, fault.trail = trail) ∨ ∃ d ∈ work.deferred, d.trail = trail := by
  simp [trails]

theorem trails_under (trail : Trail) (work : Work World) :
    (work.under trail).trails = work.trails.map (trail ++ ·) := by
  simp [trails, Function.comp_def, Fault.under, Deferred.under]

theorem trails_append (a b : Work World) : (a ++ b).trails.Perm (a.trails ++ b.trails) := by
  simp only [trails, faults_append, deferred_append, List.map_append, List.append_assoc]
  exact List.Perm.append_left _ (List.perm_append_comm_assoc _ _ _)

/-- The faults and the deferred fields of a work have positions in the plan, seen from a value of
the given selections. -/
structure Placed (vars : Object) (fields : List FieldPlan) (work : Work World) : Prop where
  /-- The faults have positions in the plan. -/
  faults : ∀ fault ∈ work.faults,
    ∃ inner, Trail.Within vars fields fault.trail.path fault.trail.order inner
  /-- The deferred fields are those at their positions in the plan. -/
  deferred : ∀ d ∈ work.deferred,
    Trail.Within vars fields d.trail.path d.trail.order d.plan.nestedFields

namespace Placed

variable {vars : Object} {fields inner : List FieldPlan} {a b work : Work World}

theorem append (ha : a.Placed vars fields) (hb : b.Placed vars fields) :
    (a ++ b).Placed vars fields where
  faults fault hfault := (List.mem_append.1 hfault).elim (ha.faults fault) (hb.faults fault)
  deferred d hd := (List.mem_append.1 hd).elim (ha.deferred d) (hb.deferred d)

/-- The work of an inner value has positions in the plan if the inner value has one. -/
theorem under (h : work.Placed vars inner) {trail : Trail}
    (htrail : Trail.Within vars fields trail.path trail.order inner) :
    (work.under trail).Placed vars fields where
  faults fault hfault := by
    obtain ⟨below, hbelow, rfl⟩ := List.mem_map.1 hfault
    obtain ⟨innermost, hwithin⟩ := h.faults below hbelow
    exact ⟨innermost, htrail.append hwithin⟩
  deferred d hd := by
    obtain ⟨below, hbelow, rfl⟩ := List.mem_map.1 hd
    exact htrail.append (h.deferred below hbelow)

end Placed

/-- The faults and the deferred fields in a value of the given selections have slots of their own,
at positions of the plan. -/
structure Fits (vars : Object) (fields : List FieldPlan) (value : Json) (work : Work World) :
    Prop where
  /-- The slots hold `null`, and no two of them are the same. -/
  vacancies : value.Vacancies (work.trails.map Trail.path)
  /-- The positions are those of the plan. -/
  placed : work.Placed vars fields

/-- The faults and the deferred fields in the items of a list, the first of which has the given
index, have slots of their own, at positions of the plan. -/
structure FitsItems (vars : Object) (fields : List FieldPlan) (position : Nat)
    (values : List Json) (work : Work World) : Prop where
  /-- The slots are in the items and hold `null`. -/
  awaits : ∀ trail ∈ work.trails, ∃ index item path, values[index]? = some item ∧
    trail.path = .index (position + index) :: path ∧ item.Awaits path
  /-- No two slots are the same. -/
  once : (work.trails.map Trail.path).Nodup
  /-- The positions are those of the plan. -/
  placed : work.Placed vars fields

variable {vars : Object} {fields : List FieldPlan}

namespace Fits

variable {value : Json} {work : Work World}

theorem none (value : Json) : Fits vars fields value (Work.none : Work World) where
  vacancies := .nil value
  placed := ⟨by simp [Work.none], by simp [Work.none]⟩

theorem ofFault (error : FieldError) :
    Fits vars fields .null (Work.ofFault {} error : Work World) where
  vacancies := .root
  placed := by
    refine ⟨fun fault hfault ↦ ?_, by simp⟩
    rw [List.mem_singleton.1 hfault]
    exact ⟨fields, .here fields⟩

theorem ofDeferred {d : Deferred World} (htrail : d.trail = {})
    (hfields : d.plan.nestedFields = fields) :
    Fits vars fields .null (Work.ofDeferred d) where
  vacancies := by
    have htrails : (Work.ofDeferred d).trails = [{}] := by simp [trails, Work.ofDeferred, htrail]
    rw [htrails]
    exact .root
  placed := by
    refine ⟨by simp [Work.ofDeferred], fun other hother ↦ ?_⟩
    rw [List.mem_singleton.1 hother, htrail, hfields]
    exact .here fields

/-- Only faults and deferred fields count for whether work fits. -/
theorem congr {other : Work World} (h : Fits vars fields value work)
    (hfaults : other.faults = work.faults) (hdeferred : other.deferred = work.deferred) :
    Fits vars fields value other where
  vacancies := by
    have htrails : other.trails = work.trails := by rw [trails, trails, hfaults, hdeferred]
    rw [htrails]
    exact h.vacancies
  placed := ⟨hfaults ▸ h.placed.faults, hdeferred ▸ h.placed.deferred⟩

theorem perm {faults : List Fault} {a b : List (Deferred World)}
    (h : Fits vars fields value { faults, deferred := a }) (hperm : a.Perm b) :
    Fits vars fields value { faults, deferred := b } where
  vacancies := h.vacancies.perm (((hperm.map Deferred.trail).append_left _).map Trail.path)
  placed := ⟨h.placed.faults, fun d hd ↦ h.placed.deferred d (hperm.mem_iff.2 hd)⟩

/-- Finishing a deferred field keeps what is said of the faults and of the others. -/
theorem settle {rest deeper : Work World} {next : Deferred World} {inner : Json}
    (h : Fits vars fields value (Work.ofDeferred next ++ rest))
    (hinner : Fits vars next.plan.nestedFields inner deeper) :
    ∃ value', value.replaceAt? next.trail.path inner = some value' ∧
      Fits vars fields value' (rest ++ deeper.under next.trail) := by
  have hnext : next ∈ (Work.ofDeferred next ++ rest).deferred := List.mem_cons_self
  have hpaths : value.Vacancies (next.trail.path :: rest.trails.map Trail.path) :=
    h.vacancies.perm ((trails_append _ _).map Trail.path)
  obtain ⟨value', hreplace, hvacancies⟩ := hpaths.replaceAt? hinner.vacancies
  refine ⟨value', hreplace, hvacancies.perm ?_, ?_⟩
  · have happend := (trails_append rest (deeper.under next.trail)).map Trail.path
    rw [trails_under, List.map_append, List.map_map] at happend
    rw [List.map_map]
    exact happend.symm
  · have hrest : rest.Placed vars fields :=
      ⟨fun fault hfault ↦ h.placed.faults fault (List.mem_append_right _ hfault),
        fun d hd ↦ h.placed.deferred d (List.mem_append_right _ hd)⟩
    exact hrest.append (hinner.placed.under (h.placed.deferred next hnext))

/-- The reported faults come in strictly increasing order of their positions. -/
theorem inOrder_sorted {faults : List Fault} {deferred : List (Deferred World)}
    (h : Fits vars fields value { faults, deferred }) :
    (Fault.inOrder faults).Pairwise Fault.Before := by
  have hperm := Fault.inOrder_perm faults
  have hpaths : ((Fault.inOrder faults).map (·.trail.path)).Nodup := by
    have honce : (faults.map (·.trail.path)).Nodup := by
      have hall := h.vacancies.once
      rw [trails, List.map_append, List.map_map] at hall
      exact (List.nodup_append.1 hall).1
    exact (hperm.map _).nodup_iff.2 honce
  refine ((Fault.inOrder_pairwise faults).and (List.pairwise_map.1 hpaths)).imp_of_mem ?_
  rintro a b ha hb ⟨hle, hne⟩
  by_contra hnot
  have hge : Trail.positionsLE b.trail.order a.trail.order = true := by
    simpa [Fault.Before] using hnot
  obtain ⟨inner, hwithin⟩ := h.placed.faults a (hperm.mem_iff.1 ha)
  obtain ⟨inner', hwithin'⟩ := h.placed.faults b (hperm.mem_iff.1 hb)
  rw [Trail.positionsLE_antisymm hle hge] at hwithin
  have hawaits : ∀ fault ∈ Fault.inOrder faults, value.Awaits fault.trail.path := by
    intro fault hfault
    have htrail : fault.trail ∈ (Work.mk faults deferred [] []).trails :=
      mem_trails.2 (.inl ⟨fault, hperm.mem_iff.1 hfault, rfl⟩)
    exact h.vacancies.awaits _ (List.mem_map_of_mem htrail)
  exact hne (hwithin.path_eq hwithin' (hawaits a ha) (hawaits b hb))

end Fits

namespace FitsItems

variable {position : Nat} {value : Json} {values : List Json} {work more : Work World}

theorem nil (position : Nat) : FitsItems vars fields position [] (Work.none : Work World) where
  awaits := by simp [trails, Work.none]
  once := .nil
  placed := (Fits.none .null).placed

theorem cons (h : Fits vars fields value work)
    (hrest : FitsItems vars fields (position + 1) values more) :
    FitsItems vars fields position (value :: values)
      (work.under (({} : Trail).index position) ++ more) where
  awaits trail htrail := by
    rcases List.mem_append.1 ((trails_append _ _).mem_iff.1 htrail) with htrail | htrail
    · rw [trails_under] at htrail
      obtain ⟨inner, hinner, rfl⟩ := List.mem_map.1 htrail
      exact ⟨0, value, inner.path, rfl, rfl,
        h.vacancies.awaits _ (List.mem_map_of_mem hinner)⟩
    · obtain ⟨index, item, path, hitem, hpath, hawaits⟩ := hrest.awaits trail htrail
      exact ⟨index + 1, item, path, hitem, by rw [hpath]; congr 2; omega, hawaits⟩
  once := by
    have hperm := (trails_append (work.under (({} : Trail).index position)) more).map Trail.path
    rw [hperm.nodup_iff, trails_under, List.map_append, List.nodup_append]
    refine ⟨?_, hrest.once, ?_⟩
    · rw [List.map_map]
      have honce := h.vacancies.once.map (List.cons_injective (a := PathElement.index position))
      rwa [List.map_map] at honce
    · intro path hpath other hother
      obtain ⟨trail, htrail, rfl⟩ := List.mem_map.1 hpath
      obtain ⟨inner, _, rfl⟩ := List.mem_map.1 htrail
      obtain ⟨later, hlater, rfl⟩ := List.mem_map.1 hother
      obtain ⟨index, _, below, _, hbelow, _⟩ := hrest.awaits later hlater
      rw [hbelow]
      intro heq
      have hindex : PathElement.index position = .index (position + 1 + index) :=
        (List.cons.inj heq).1
      injection hindex with hindex
      omega
  placed := (h.placed.under (.item position (.here fields))).append hrest.placed

theorem array (h : FitsItems vars fields 0 values work) :
    Fits vars fields (.array values) work where
  vacancies := by
    refine ⟨fun path hpath ↦ ?_, h.once⟩
    obtain ⟨trail, htrail, rfl⟩ := List.mem_map.1 hpath
    obtain ⟨index, item, path, hitem, hpath, hawaits⟩ := h.awaits trail htrail
    rw [hpath, Nat.zero_add]
    exact ⟨trivial, item, hitem, hawaits⟩
  placed := h.placed

end FitsItems

end Work

namespace Assembler

variable {assembler : Assembler World}

theorem trails_work (assembler : Assembler World) :
    assembler.work.trails.Perm (assembler.pending.flatMap (·.2.trails)) := by
  rw [Work.trails, work_faults, work_deferred, List.map_flatMap, List.map_flatMap]
  exact List.flatMap_append_perm _ _ _

/-- If what was completed for the fields of an object fits, then so does the object. -/
theorem Built.fits {vars : Object} {typename : Option String} {fields : List FieldPlan}
    {position : Nat}
    (h : Built vars typename fields
      (fun found completed => Work.Fits vars found.2.nestedFields completed.1 completed.2)
      position [] assembler) :
    Work.Fits vars fields (.object assembler.object) assembler.work where
  vacancies := by
    refine .perm ⟨fun path hpath ↦ ?_, ?_⟩ (assembler.trails_work.map Trail.path).symm
    · obtain ⟨trail, htrail, rfl⟩ := List.mem_map.1 hpath
      obtain ⟨entry, hentry, htrail⟩ := List.mem_flatMap.1 htrail
      obtain ⟨value, found, work, hvalue, _, hwork, hfits⟩ := h.prevails_of_mem hentry
      rw [hwork, Work.trails_under] at htrail
      obtain ⟨inner, hinner, rfl⟩ := List.mem_map.1 htrail
      exact ⟨h.tidy.once, value, hvalue, hfits.vacancies.awaits _ (List.mem_map_of_mem hinner)⟩
    · rw [List.map_flatMap, List.nodup_flatMap]
      -- All slots that are kept for a key are under the key.
      have hunder : ∀ entry ∈ assembler.pending, ∃ paths : List Path, paths.Nodup ∧
          entry.2.trails.map Trail.path = paths.map (.key entry.1 :: ·) := by
        intro entry hentry
        obtain ⟨value, found, work, _, _, hwork, hfits⟩ := h.prevails_of_mem hentry
        refine ⟨_, hfits.vacancies.once, ?_⟩
        rw [hwork, Work.trails_under, List.map_map, List.map_map]
        rfl
      refine ⟨fun entry hentry ↦ ?_,
        (List.pairwise_map.1 h.tidy.pendingOnce).imp_of_mem fun {a b} ha hb hne ↦ ?_⟩
      · obtain ⟨paths, honce, hpaths⟩ := hunder entry hentry
        rw [hpaths]
        exact honce.map (List.cons_injective)
      · obtain ⟨paths, _, hpaths⟩ := hunder a ha
        obtain ⟨others, _, hothers⟩ := hunder b hb
        show List.Disjoint (a.2.trails.map Trail.path) (b.2.trails.map Trail.path)
        rw [hpaths, hothers]
        intro path hpath hother
        obtain ⟨_, _, rfl⟩ := List.mem_map.1 hpath
        obtain ⟨_, _, heq⟩ := List.mem_map.1 hother
        exact hne (PathElement.key.inj (List.cons.inj heq).1).symm
  placed := by
    have hentries : ∀ entry ∈ assembler.pending, entry.2.Placed vars fields := by
      intro entry hentry
      obtain ⟨value, found, work, _, hprevails, hwork, hfits⟩ := h.prevails_of_mem hentry
      rw [hwork]
      exact hfits.placed.under (.field hprevails (.here _))
    constructor
    · rw [work_faults]
      intro fault hfault
      obtain ⟨entry, hentry, hfault⟩ := List.mem_flatMap.1 hfault
      exact (hentries entry hentry).faults fault hfault
    · rw [work_deferred]
      intro d hd
      obtain ⟨entry, hentry, hd⟩ := List.mem_flatMap.1 hd
      exact (hentries entry hentry).deferred d hd

end Assembler

end GraphCache
