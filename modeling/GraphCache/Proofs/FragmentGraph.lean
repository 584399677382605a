import GraphCache.Proofs.Flattening
import Mathlib.Logic.Relation

/-!
# The graph of fragments

Fragments form a graph: there is an edge from one to each fragment that is spread in it, at any
depth. The planner keeps no such graph. It follows spreads as they come, along two recursions, and
of the fields that it merges it only remembers where the first one was found. All the same a group
of selection sets that can be planned leads to defined fragments only, none of them on a cycle.

## Main definitions

* `Selection.spreadNames`: the fragments that are spread in a selection, at any depth.
* `Fragments.Spreads`, `Fragments.Leads`: the edges of the graph, and where selections lead to.
* `Fragments.Resolves`: a fragment of which all that is spread in it can be written out.

## Main results

* `Fragments.Resolves.acyclic`: a fragment that resolves does not lead back to itself.
* `Planner.planSelection_resolves`: what is spread in a group that can be planned resolves.
-/

namespace GraphCache

namespace Selection

mutual

/-- The names of the fragments that are spread in a selection, at any depth. -/
def spreadNames : Selection → List String
  | leaf _ => []
  | nested _ selections => listSpreadNames selections
  | inlineFragment _ _ selections => listSpreadNames selections
  | fragmentSpread name _ => [name]

/-- The names of the fragments that are spread in the listed selections, at any depth. -/
def listSpreadNames : List Selection → List String
  | [] => []
  | selection :: selections => spreadNames selection ++ listSpreadNames selections

end

theorem mem_listSpreadNames {selections : List Selection} {name : String} :
    name ∈ listSpreadNames selections ↔ ∃ selection ∈ selections, name ∈ selection.spreadNames := by
  induction selections with
  | nil => simp [listSpreadNames]
  | cons selection selections ih => simp [listSpreadNames, ih]

theorem mem_listSpreadNames_flatten {selectionSets : List (List Selection)} {name : String} :
    name ∈ listSpreadNames selectionSets.flatten ↔
      ∃ selections ∈ selectionSets, name ∈ listSpreadNames selections := by
  simp only [mem_listSpreadNames, List.mem_flatten]
  exact ⟨fun ⟨selection, ⟨selections, hset, hmem⟩, hname⟩ ↦
      ⟨selections, hset, selection, hmem, hname⟩,
    fun ⟨selections, hset, selection, hmem, hname⟩ ↦
      ⟨selection, ⟨selections, hset, hmem⟩, hname⟩⟩

end Selection

namespace Fragments

/-- A fragment of this name is defined. -/
def Defined (fragments : Fragments) (name : String) : Prop :=
  (Dict.get? fragments name).isSome

/-- One fragment is spread in another one, through fields and inline fragments. -/
def Spreads (fragments : Fragments) (outer inner : String) : Prop :=
  ∃ fragment, Dict.get? fragments outer = some fragment ∧
    inner ∈ Selection.listSpreadNames fragment.selections

/-- Selections lead to the fragments that are spread in them, and on to those that are spread in
these. -/
def Leads (fragments : Fragments) (selections : List Selection) (name : String) : Prop :=
  ∃ start ∈ Selection.listSpreadNames selections,
    Relation.ReflTransGen fragments.Spreads start name

/-- A fragment leads back to itself. -/
def Cyclic (fragments : Fragments) (name : String) : Prop :=
  Relation.TransGen fragments.Spreads name name

/-- A fragment resolves if it is defined and all that is spread in it resolves in turn. -/
inductive Resolves (fragments : Fragments) : String → Prop where
  | intro {name : String} {fragment : Fragment} (hget : Dict.get? fragments name = some fragment)
      (hinner : ∀ inner ∈ Selection.listSpreadNames fragment.selections, Resolves fragments inner) :
      Resolves fragments name

namespace Resolves

variable {fragments : Fragments} {name other : String}

theorem defined (h : fragments.Resolves name) : fragments.Defined name := by
  obtain ⟨hget, -⟩ := h
  rw [Defined, hget]
  rfl

theorem of_spreads (h : fragments.Resolves name) (hspreads : fragments.Spreads name other) :
    fragments.Resolves other := by
  obtain ⟨hget, hinner⟩ := h
  obtain ⟨fragment, hget', hmem⟩ := hspreads
  cases hget.symm.trans hget'
  exact hinner other hmem

theorem of_reflTransGen (h : fragments.Resolves name)
    (hreach : Relation.ReflTransGen fragments.Spreads name other) : fragments.Resolves other := by
  induction hreach with
  | refl => exact h
  | tail _ hspreads ih => exact ih.of_spreads hspreads

/-- A fragment that resolves does not lead back to itself. -/
theorem acyclic (h : fragments.Resolves name) : ¬ fragments.Cyclic name := by
  -- a cycle through a fragment is one through the next fragment on it
  induction h with
  | @intro name fragment hget _ ih =>
    intro hcycle
    obtain ⟨next, hspreads, hback⟩ := Relation.TransGen.head'_iff.1 hcycle
    obtain ⟨fragment', hget', hmem⟩ := hspreads
    cases hget.symm.trans hget'
    exact ih next hmem (Relation.TransGen.tail' hback ⟨fragment, hget, hmem⟩)

end Resolves

end Fragments

namespace Walker

/-- If the nested selections of all occurrences lead to fragments that resolve, so do the selections
through which the walk came. -/
theorem Meets.resolves {fragments : Fragments} {selections : List Selection}
    {occurrences : List Occurrence} (h : everywhere.Meets fragments selections occurrences)
    (hnested : ∀ occurrence ∈ occurrences, ∀ inner ∈ occurrence.selections?,
      ∀ name ∈ Selection.listSpreadNames inner, fragments.Resolves name) :
    ∀ name ∈ Selection.listSpreadNames selections, fragments.Resolves name := by
  induction h with
  | nil => exact List.forall_mem_nil _
  | leaf _ _ ih => exact ih (List.forall_mem_cons.1 hnested).2
  | nested _ _ ih =>
    obtain ⟨hfirst, hrest⟩ := List.forall_mem_cons.1 hnested
    exact List.forall_mem_append.2 ⟨hfirst _ rfl, ih hrest⟩
  | inlineFragment _ _ _ ihinner ihrest =>
    obtain ⟨hfirst, hrest⟩ := List.forall_mem_append.1 hnested
    exact List.forall_mem_append.2 ⟨ihinner (List.forall_mem_map.1 hfirst), ihrest hrest⟩
  | fragmentSpread hget _ _ _ ihinner ihrest =>
    obtain ⟨hfirst, hrest⟩ := List.forall_mem_append.1 hnested
    refine List.forall_mem_append.2 ⟨List.forall_mem_singleton.2 ?_, ihrest hrest⟩
    exact .intro hget (ihinner (List.forall_mem_map.1 hfirst))
  | leafPassed htakes => cases htakes
  | nestedPassed htakes => cases htakes
  | inlineFragmentPassed henters => cases henters
  | fragmentSpreadPassed _ henters => cases henters

end Walker

namespace CollectedField

/-- Nested selections that are to be planned below one of the fields. -/
def AnyHolds (collected : List CollectedField) (selections : List Selection) : Prop :=
  ∃ field ∈ collected, field.isLeaf = false ∧ selections ∈ field.selectionSets

variable {collected : List CollectedField} {selections : List Selection}

theorem AnyHolds.cons (h : AnyHolds collected selections) (field : CollectedField) :
    AnyHolds (field :: collected) selections := by
  obtain ⟨holder, hmem, hleaf, hholds⟩ := h
  exact ⟨holder, List.mem_cons_of_mem _ hmem, hleaf, hholds⟩

/-- Merging keeps the nested selections of all fields. -/
theorem anyHolds_addTo (found : CollectedField)
    (h : AnyHolds (found :: collected) selections) :
    AnyHolds (found.addTo collected) selections := by
  induction collected with
  | nil => exact h
  | cons first rest ih =>
    obtain ⟨holder, hmem, hleaf, hholds⟩ := h
    rw [addTo]
    split
    · next hmerges =>
      rw [mergesWith_eq] at hmerges
      obtain ⟨-, -, -, -, hsame, -⟩ := FieldKey.same_iff.1 hmerges
      rcases List.mem_cons.1 hmem with rfl | hmem
      · exact ⟨_, List.mem_cons_self, hsame.trans hleaf, List.mem_append_right _ hholds⟩
      · rcases List.mem_cons.1 hmem with rfl | hmem
        · exact ⟨_, List.mem_cons_self, hleaf, List.mem_append_left _ hholds⟩
        · exact ⟨holder, List.mem_cons_of_mem _ hmem, hleaf, hholds⟩
    · rcases List.mem_cons.1 hmem with rfl | hmem
      · exact (ih ⟨holder, List.mem_cons_self, hleaf, hholds⟩).cons first
      · rcases List.mem_cons.1 hmem with rfl | hmem
        · exact ⟨holder, List.mem_cons_self, hleaf, hholds⟩
        · exact (ih ⟨holder, List.mem_cons_of_mem _ hmem, hleaf, hholds⟩).cons first

end CollectedField

namespace Planner

open CollectedField

variable {fragments : Fragments} {scope : Scope}

theorem anyHolds_gather {found : List CollectedField} {occurrences : List Occurrence}
    {selections : List Selection}
    (h : AnyHolds found selections ∨
      ∃ occurrence ∈ occurrences, occurrence.selections? = some selections) :
    AnyHolds (gather scope found occurrences) selections := by
  induction occurrences generalizing found with
  | nil => exact h.resolve_right fun ⟨_, hmem, _⟩ ↦ List.not_mem_nil hmem
  | cons occurrence occurrences ih =>
    refine ih ?_
    rcases h with h | ⟨holder, hmem, hholds⟩
    · exact .inl (anyHolds_addTo _ (h.cons _))
    · rcases List.mem_cons.1 hmem with rfl | hmem
      · refine .inl (anyHolds_addTo _ ⟨_, List.mem_cons_self, ?_⟩)
        simp [Occurrence.collected, hholds]
      · exact .inr ⟨holder, hmem, hholds⟩

/-- All that is spread in a group of selection sets that can be planned resolves. -/
theorem planSelection_resolves {levels : Nat} {selectionSets : List (List Selection)} {next : Nat}
    {plan : SelectionPlan} {last : Nat}
    (h : planSelection fragments levels selectionSets scope next = .ok (plan, last)) :
    ∀ name ∈ Selection.listSpreadNames selectionSets.flatten, fragments.Resolves name := by
  induction levels generalizing selectionSets scope next plan last with
  | zero => cases h
  | succ levels ih =>
    obtain ⟨inner, occurrences, hlevels, hmeets, hplanned⟩ := planSelection_gathers h
    obtain rfl : levels = inner := Nat.succ.inj hlevels
    refine hmeets.resolves fun occurrence hmem selections hselections name hname ↦ ?_
    -- the nested selections of an occurrence are planned below some field
    have hany : AnyHolds (gather scope [] occurrences) selections :=
      anyHolds_gather (.inr ⟨occurrence, hmem, hselections⟩)
    obtain ⟨field, hfield, hleaf, hholds⟩ := hany
    obtain ⟨fieldPlan, -, hplan⟩ := exists_of_forall₂ hplanned.flip hfield
    cases hplan with
    | leaf htrue => exact absurd (hleaf.symm.trans htrue) Bool.false_ne_true
    | nested _ hinner =>
      exact ih hinner name (Selection.mem_listSpreadNames_flatten.2 ⟨selections, hholds, hname⟩)

end Planner

end GraphCache
