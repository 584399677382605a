/-!
# Replacing an element by smaller ones

Taking one element out of a list and putting any number of smaller elements in, at any places,
cannot go on forever if the order on the elements is well-founded.

## Main definitions

* `Replaces`: one list arises from another by replacing an element by smaller ones.

## Main results

* `Replaces.wellFounded`: the relation is well-founded.
-/

namespace GraphCache

variable {α : Type}

/-- The first list arises from the second by replacing one element by smaller ones; the order of
the elements in both lists does not matter. -/
inductive Replaces (lt : α → α → Prop) (new old : List α) : Prop
  | intro (a : α) (rest more : List α) (smaller : ∀ b ∈ more, lt b a)
      (old_perm : old.Perm (a :: rest)) (new_perm : new.Perm (rest ++ more))

namespace Replaces

variable {lt : α → α → Prop}

private theorem acc_of_perm {l l' : List α} (h : Acc (Replaces lt) l) (p : l'.Perm l) :
    Acc (Replaces lt) l' := by
  refine ⟨l', fun new hnew ↦ ?_⟩
  obtain ⟨a, rest, more, smaller, old_perm, new_perm⟩ := hnew
  exact h.inv ⟨a, rest, more, smaller, p.symm.trans old_perm, new_perm⟩

private theorem acc_append {l : List α} (hl : Acc (Replaces lt) l) :
    ∀ more : List α, (∀ b ∈ more, ∀ l, Acc (Replaces lt) l → Acc (Replaces lt) (b :: l)) →
      Acc (Replaces lt) (more ++ l)
  | [], _ => hl
  | b :: more, h =>
    h b List.mem_cons_self _
      (acc_append hl more fun c hc ↦ h c (List.mem_cons_of_mem b hc))

private theorem acc_cons {a : α}
    (smaller : ∀ b, lt b a → ∀ l, Acc (Replaces lt) l → Acc (Replaces lt) (b :: l))
    {l : List α} (hl : Acc (Replaces lt) l) : Acc (Replaces lt) (a :: l) := by
  induction hl with
  | intro l hl ih =>
    refine ⟨_, fun new hnew ↦ ?_⟩
    obtain ⟨x, rest, more, hmore, old_perm, new_perm⟩ := hnew
    rcases List.mem_cons.1 (old_perm.symm.mem_iff.1 List.mem_cons_self) with rfl | hx
    · have hrest : rest.Perm l := (List.Perm.cons_inv old_perm).symm
      refine acc_of_perm (acc_append ⟨l, hl⟩ more fun b hb ↦ smaller b (hmore b hb)) ?_
      exact new_perm.trans ((hrest.append_right more).trans List.perm_append_comm)
    · obtain ⟨s, t, rfl⟩ := List.append_of_mem hx
      have hxl : (s ++ x :: t).Perm (x :: (s ++ t)) := List.perm_middle
      have hrest : rest.Perm (a :: (s ++ t)) :=
        List.Perm.cons_inv
          (old_perm.symm.trans ((hxl.cons a).trans (List.Perm.swap x a (s ++ t))))
      refine acc_of_perm (ih ((s ++ t) ++ more) ⟨x, s ++ t, more, hmore, hxl, .refl _⟩) ?_
      exact new_perm.trans (hrest.append_right more)

/-- Elements cannot be replaced by smaller ones forever. -/
theorem wellFounded (h : WellFounded lt) : WellFounded (Replaces lt) := by
  have hcons (a : α) : ∀ l, Acc (Replaces lt) l → Acc (Replaces lt) (a :: l) := by
    induction h.apply a with
    | intro a _ ih => exact fun l hl ↦ acc_cons ih hl
  refine ⟨fun l ↦ ?_⟩
  induction l with
  | nil =>
    refine ⟨_, fun new hnew ↦ ?_⟩
    obtain ⟨a, rest, _, _, old_perm, _⟩ := hnew
    exact absurd old_perm.length_eq (by simp)
  | cons a l ih => exact hcons a l ih

end Replaces

end GraphCache
