import GraphCache.Dict
import Mathlib.Data.List.Forall2
import Mathlib.Data.List.Induction
import Mathlib.Data.List.Nodup
import Mathlib.Data.List.Perm.Basic

/-!
# The entries of dictionaries

What is in a dictionary that was made by inserting, merging or mapping entries, and in which order.

## Main results

* `Dict.insert_eq_self_iff`: when an insertion changes nothing.
* `Dict.get?_merge_eq_or`: entries that are merged into a dictionary prevail over what is there.
* `Dict.keys_merge_congr`: the keys after merging do not depend on the values.
* `Dict.merge_merge_self`: merging the same entries again changes nothing.
* `Dict.forall₂_iff`: when dictionaries are related entry by entry.
-/

namespace GraphCache

/-- One element more comes last among the distinct ones, if it is not there yet. -/
theorem eraseDups_concat {α : Type} [DecidableEq α] (xs : List α) (x : α) :
    (xs ++ [x]).eraseDups =
      if x ∈ xs.eraseDups then xs.eraseDups else xs.eraseDups ++ [x] := by
  rw [List.eraseDups_append]
  by_cases h : x ∈ xs <;> simp [List.removeAll, List.eraseDups_cons, h]

namespace Dict

variable {α β : Type} {d : Dict α}

/-! ### Entries and their values -/

theorem mem_of_get? {key : String} {value : α} (h : get? d key = some value) :
    (key, value) ∈ d := by
  induction d with
  | nil => cases h
  | cons entry d ih =>
    obtain ⟨k, v⟩ := entry
    rw [get?_cons] at h
    split at h
    · next hkey =>
      rw [← hkey, ← Option.some.inj h]
      exact List.mem_cons_self
    · exact List.mem_cons_of_mem _ (ih h)

/-- An insertion changes nothing exactly if the key has the value already. -/
theorem insert_eq_self_iff {key : String} {value : α} :
    insert d key value = d ↔ get? d key = some value := by
  constructor
  · intro h
    rw [← h, get?_insert_self]
  · intro h
    induction d with
    | nil => cases h
    | cons entry d ih =>
      obtain ⟨k, v⟩ := entry
      by_cases hk : k = key
      · rw [get?_cons, if_pos hk, Option.some.injEq] at h
        rw [insert, if_pos hk, h]
      · rw [get?_cons, if_neg hk] at h
        rw [insert, if_neg hk, ih h]

/-- An entry after an insertion is the new one or was there before. -/
theorem eq_or_mem_of_mem_insert {key : String} {value : α} {entry : String × α}
    (h : entry ∈ insert d key value) : entry = (key, value) ∨ entry ∈ d := by
  induction d with
  | nil => exact .inl (List.mem_singleton.1 h)
  | cons first d ih =>
    obtain ⟨k, v⟩ := first
    rw [insert] at h
    split at h
    · next hkey =>
      rcases List.mem_cons.1 h with rfl | h
      · exact .inl (by rw [hkey])
      · exact .inr (List.mem_cons_of_mem _ h)
    · rcases List.mem_cons.1 h with rfl | h
      · exact .inr List.mem_cons_self
      · exact (ih h).imp id (List.mem_cons_of_mem _)

theorem mem_or_mem_of_mem_merge {e : Dict α} {entry : String × α} (h : entry ∈ merge d e) :
    entry ∈ d ∨ entry ∈ e := by
  induction e generalizing d with
  | nil => exact .inl h
  | cons first e ih =>
    rw [merge_cons] at h
    rcases ih h with h | h
    · rcases eq_or_mem_of_mem_insert h with rfl | h
      · exact .inr List.mem_cons_self
      · exact .inl h
    · exact .inr (List.mem_cons_of_mem _ h)

theorem nodup_keys_merge (h : (keys d).Nodup) (e : Dict α) :
    (keys (merge d e)).Nodup := by
  induction e generalizing d with
  | nil => exact h
  | cons entry e ih => exact ih (nodup_keys_insert h _ _)

theorem nodup_keys_ofPairs (pairs : List (String × α)) : (keys (ofPairs pairs)).Nodup :=
  nodup_keys_merge (d := []) List.nodup_nil pairs

theorem mem_of_mem_ofPairs {pairs : List (String × α)} {entry : String × α}
    (h : entry ∈ ofPairs pairs) : entry ∈ pairs :=
  (mem_or_mem_of_mem_merge h).resolve_left List.not_mem_nil

/-! ### Merging -/

theorem merge_append (d e f : Dict α) : merge d (e ++ f) = merge (merge d e) f :=
  List.foldl_append

/-- Entries that are merged into a dictionary prevail over what is there. -/
theorem get?_merge_eq_or (d e : Dict α) (key : String) :
    get? (merge d e) key = (get? (ofPairs e) key).or (get? d key) := by
  induction e using List.reverseRecOn with
  | nil => rfl
  | append_singleton e entry ih =>
    have hconcat (d : Dict α) : merge d (e ++ [entry]) = insert (merge d e) entry.1 entry.2 :=
      merge_append d e [entry]
    rw [ofPairs, hconcat, hconcat, get?_insert, get?_insert, ih]
    split
    · rfl
    · rfl

/-- A field of a merged dictionary is that of the second one, or else that of the first one. -/
theorem get?_merge {e : Dict α} (he : (keys e).Nodup) (key : String) :
    get? (merge d e) key = (get? e key).or (get? d key) := by
  rw [get?_merge_eq_or, ofPairs, merge_nil_left he]

theorem isSome_get?_ofPairs {e : Dict α} {key : String} :
    (get? (ofPairs e) key).isSome ↔ key ∈ keys e := by
  induction e using List.reverseRecOn with
  | nil => simp [ofPairs, keys]
  | append_singleton e entry ih =>
    have hconcat : ofPairs (e ++ [entry]) = insert (ofPairs e) entry.1 entry.2 :=
      merge_append [] e [entry]
    rw [hconcat, get?_insert, keys, List.map_append, List.mem_append]
    split
    · next hkey => simp [hkey]
    · next hkey =>
      rw [ih]
      simp [keys, Ne.symm hkey]

/-- Merging entries whose keys are present keeps the order of the keys. -/
theorem keys_merge_of_subset {e : Dict α} (h : ∀ key ∈ keys e, key ∈ keys d) :
    keys (merge d e) = keys d := by
  induction e generalizing d with
  | nil => rfl
  | cons entry e ih =>
    obtain ⟨hfirst, hrest⟩ := List.forall_mem_cons.1 h
    have hkeys : keys (insert d entry.1 entry.2) = keys d := by
      rw [keys_insert, if_pos hfirst]
    rw [merge_cons, ih (by rwa [hkeys]), hkeys]

theorem mem_keys_merge {e : Dict α} {key : String} :
    key ∈ keys (merge d e) ↔ key ∈ keys e ∨ key ∈ keys d := by
  rw [← get?_isSome_iff, get?_merge_eq_or, Option.isSome_or, Bool.or_eq_true, isSome_get?_ofPairs,
    get?_isSome_iff]

/-- Merging the same entries again changes nothing. -/
theorem merge_merge_self (hd : (keys d).Nodup) (e : Dict α) : merge (merge d e) e = merge d e := by
  have hkeys : keys (merge (merge d e) e) = keys (merge d e) :=
    keys_merge_of_subset fun key hkey ↦ mem_keys_merge.2 (.inl hkey)
  refine ext_get? (nodup_keys_merge (nodup_keys_merge hd e) e) hkeys fun key ↦ ?_
  rw [get?_merge_eq_or, get?_merge_eq_or]
  cases get? (ofPairs e) key <;> rfl

/-- Setting a key that is present can be put off until other keys have been set. -/
theorem insert_merge {e : Dict α} {key : String} (hd : key ∈ keys d) (he : key ∉ keys e)
    (value : α) : insert (merge d e) key value = merge (insert d key value) e := by
  induction e generalizing d with
  | nil => rfl
  | cons entry e ih =>
    obtain ⟨hne, hrest⟩ : key ≠ entry.1 ∧ key ∉ keys e := by simpa [keys] using he
    have hmem : key ∈ keys (insert d entry.1 entry.2) := by
      rw [keys_insert]
      split
      · exact hd
      · exact List.mem_append_left _ hd
    rw [merge_cons, ih hmem hrest, insert_comm hd hne]
    rfl

/-- Merging a dictionary in which a key was set last is setting the key last. -/
theorem merge_insert (d : Dict α) {e : Dict α} (he : (keys e).Nodup) (key : String) (value : α) :
    merge d (insert e key value) = insert (merge d e) key value := by
  induction e generalizing d with
  | nil => rfl
  | cons entry e ih =>
    obtain ⟨k, v⟩ := entry
    obtain ⟨hfresh, hrest⟩ := List.nodup_cons.1 he
    by_cases hk : k = key
    · subst hk
      rw [insert, if_pos rfl, merge_cons, merge_cons,
        insert_merge (mem_keys_insert_self d k v) hfresh, insert_insert]
    · rw [insert, if_neg hk, merge_cons, merge_cons, ih _ hrest]

/-- It does not matter whether entries are merged among themselves first. -/
theorem merge_ofPairs (d e : Dict α) : merge d (ofPairs e) = merge d e := by
  induction e using List.reverseRecOn with
  | nil => rfl
  | append_singleton e entry ih =>
    have hconcat (d : Dict α) : merge d (e ++ [entry]) = insert (merge d e) entry.1 entry.2 :=
      merge_append d e [entry]
    rw [ofPairs, hconcat, hconcat, ← ih]
    exact merge_insert d (nodup_keys_ofPairs e) entry.1 entry.2

/-- Which keys there are after merging, and in which order, does not depend on the values. -/
theorem keys_merge_congr {e : Dict α} {d' e' : Dict β} (hd : keys d = keys d')
    (he : keys e = keys e') : keys (merge d e) = keys (merge d' e') := by
  induction e generalizing d d' e' with
  | nil =>
    obtain rfl := List.map_eq_nil_iff.1 he.symm
    exact hd
  | cons entry e ih =>
    cases e' with
    | nil => cases he
    | cons entry' e' =>
      obtain ⟨hfirst, hrest⟩ := List.cons.inj he
      rw [merge_cons, merge_cons]
      refine ih ?_ hrest
      rw [keys_insert, keys_insert, hd, hfirst]

/-- If every key has one value only, then this is what the dictionary holds. -/
theorem get?_ofPairs_map (names : List String) (value : String → α) (key : String) :
    get? (ofPairs (names.map fun name ↦ (name, value name))) key
      = if key ∈ names then some (value key) else none := by
  induction names using List.reverseRecOn with
  | nil => rfl
  | append_singleton names name ih =>
    rw [List.map_append, ofPairs, merge_append, List.map_singleton, merge_cons, merge_nil,
      get?_insert, ← ofPairs, ih]
    by_cases hname : name = key
    · subst hname
      simp
    · simp [hname, Ne.symm hname]

/-! ### Order and relations -/

/-- The order of the entries does not matter for looking up keys, if none is repeated. -/
theorem get?_eq_of_perm {e : Dict α} (hd : (keys d).Nodup) (h : d.Perm e) (key : String) :
    get? d key = get? e key := by
  have he : (keys e).Nodup := (h.map Prod.fst).nodup_iff.1 hd
  ext value
  rw [get?_eq_some_iff hd, get?_eq_some_iff he, h.mem_iff]

theorem keys_map (f : α → β) (d : Dict α) :
    keys (d.map fun entry ↦ (entry.1, f entry.2)) = keys d := by
  rw [keys, keys, List.map_map]
  rfl

theorem get?_map (f : α → β) (d : Dict α) (key : String) :
    get? (d.map fun entry ↦ (entry.1, f entry.2)) key = (get? d key).map f := by
  induction d with
  | nil => rfl
  | cons entry d ih =>
    obtain ⟨k, v⟩ := entry
    rw [List.map_cons, get?_cons, get?_cons, ih]
    split
    · rfl
    · rfl

/-- Dictionaries are related entry by entry if they list the same keys and the values of each key
are related. -/
theorem forall₂_iff {R : α → β → Prop} {e : Dict β} (hd : (keys d).Nodup) :
    List.Forall₂ (fun a b ↦ a.1 = b.1 ∧ R a.2 b.2) d e ↔
      keys d = keys e ∧
        ∀ key a b, get? d key = some a → get? e key = some b → R a b := by
  induction d generalizing e with
  | nil =>
    cases e with
    | nil => simp [keys]
    | cons entry e => simp [keys]
  | cons entry d ih =>
    obtain ⟨k, v⟩ := entry
    obtain ⟨hfresh, hrest⟩ := List.nodup_cons.1 hd
    obtain _ | ⟨⟨k', v'⟩, e⟩ := e
    · simp [keys]
    · rw [List.forall₂_cons, ih hrest]
      constructor
      · rintro ⟨⟨rfl, hfirst⟩, hkeys, hvalues⟩
        refine ⟨congrArg (k :: ·) hkeys, fun key a b ha hb ↦ ?_⟩
        rw [get?_cons] at ha hb
        split at ha
        · next hkey =>
          rw [if_pos hkey] at hb
          cases ha
          cases hb
          exact hfirst
        · next hkey =>
          rw [if_neg hkey] at hb
          exact hvalues key a b ha hb
      · rintro ⟨hkeys, hvalues⟩
        obtain ⟨rfl, hrest⟩ : k = k' ∧ keys d = keys e := List.cons.inj hkeys
        refine ⟨⟨rfl, hvalues k v v' (by simp [get?_cons]) (by simp [get?_cons])⟩, hrest,
          fun key a b ha hb ↦ ?_⟩
        have hne : k ≠ key := by
          rintro rfl
          exact hfresh ((get?_isSome_iff d k).1 (by rw [ha, Option.isSome_some]))
        exact hvalues key a b (by rw [get?_cons, if_neg hne, ha])
          (by rw [get?_cons, if_neg hne, hb])

end Dict

end GraphCache
