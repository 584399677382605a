/-!
# Dictionaries in insertion order

A dictionary is the list of its entries in the order in which their keys were first inserted.
Overwriting a key keeps its place, so the order of keys is an observable part of the value:
JSON objects, cache records and tables of names are all dictionaries of this kind.

## Main definitions

* `Dict.get?`, `Dict.insert`, `Dict.merge`, `Dict.ofPairs`: look-up and ordered insertion.
* `Dict.sortKeys`: the entries in the order of their keys.

## Main results

* `Dict.get?_insert`: insertion changes the value of one key only.
* `Dict.keys_insert`: an existing key keeps its place and a new one comes last.
* `Dict.insert_insert`, `Dict.insert_comm`: which insertions can be left out or exchanged.
* `Dict.merge_eq_of_get?`: a key that is set once while merging can be set at first.
-/

namespace GraphCache

/-- Entries in the order in which their keys were first inserted. -/
abbrev Dict (α : Type) := List (String × α)

namespace Dict

variable {α β : Type}

/-- The keys, in order. -/
def keys (d : Dict α) : List String :=
  d.map Prod.fst

/-- The value of the first entry with this key. -/
def get? : Dict α → String → Option α
  | [], _ => none
  | (k, v) :: rest, key => if k = key then some v else get? rest key

/-- Whether some entry has this key. -/
def contains (d : Dict α) (key : String) : Bool :=
  (get? d key).isSome

/-- Sets the value of a key: in place when it is present, else as a new last entry. -/
def insert : Dict α → String → α → Dict α
  | [], key, value => [(key, value)]
  | (k, v) :: rest, key, value =>
    if k = key then (k, value) :: rest else (k, v) :: insert rest key value

/-- Inserts every entry of the second dictionary into the first, in order. -/
def merge (d e : Dict α) : Dict α :=
  e.foldl (fun d entry => insert d entry.1 entry.2) d

/-- The dictionary that a list of assignments leaves: the first occurrence of a key fixes
its place, the last one its value. -/
def ofPairs (pairs : List (String × α)) : Dict α :=
  merge [] pairs

/-- The entries in increasing order of their keys, compared code point by code point. -/
def sortKeys (d : Dict α) : Dict α :=
  List.mergeSort d (fun a b => decide (a.1 ≤ b.1))

@[simp] theorem get?_nil (key : String) : get? ([] : Dict α) key = none := rfl

theorem get?_cons (k : String) (v : α) (d : Dict α) (key : String) :
    get? ((k, v) :: d) key = if k = key then some v else get? d key := rfl

/-- Insertion changes the value of one key only. -/
theorem get?_insert (d : Dict α) (key other : String) (value : α) :
    get? (insert d key value) other = if key = other then some value else get? d other := by
  induction d with
  | nil => rfl
  | cons entry d ih =>
    obtain ⟨k, v⟩ := entry
    by_cases hk : k = key
    · subst hk
      by_cases ho : k = other <;> simp [insert, get?_cons, ho]
    · by_cases ho : k = other
      · subst ho
        simp [insert, get?_cons, hk, Ne.symm hk]
      · simp [insert, get?_cons, hk, ho, ih]

@[simp] theorem get?_insert_self (d : Dict α) (key : String) (value : α) :
    get? (insert d key value) key = some value := by
  simp [get?_insert]

theorem get?_insert_of_ne (d : Dict α) {key other : String} (value : α) (h : key ≠ other) :
    get? (insert d key value) other = get? d other := by
  simp [get?_insert, h]

/-- A key is present exactly when it is among the keys. -/
theorem get?_isSome_iff (d : Dict α) (key : String) : (get? d key).isSome ↔ key ∈ keys d := by
  induction d with
  | nil => simp [keys]
  | cons entry d ih =>
    obtain ⟨k, v⟩ := entry
    by_cases hk : k = key
    · simp [get?_cons, keys, hk]
    · simp only [get?_cons, hk, ite_false, ih, keys, List.map_cons, List.mem_cons,
        Ne.symm hk, false_or]

/-- An existing key keeps its place and a new one comes last. -/
theorem keys_insert (d : Dict α) (key : String) (value : α) :
    keys (insert d key value) = if key ∈ keys d then keys d else keys d ++ [key] := by
  induction d with
  | nil => simp [insert, keys]
  | cons entry d ih =>
    obtain ⟨k, v⟩ := entry
    by_cases hk : k = key
    · simp [insert, keys, hk]
    · simp only [keys] at ih
      simp only [insert, hk, ite_false, keys, List.map_cons, ih, List.mem_cons,
        Ne.symm hk, false_or]
      split <;> rename_i hm <;> simp [hm]

/-- Insertion never repeats a key. -/
theorem nodup_keys_insert {d : Dict α} (h : (keys d).Nodup) (key : String) (value : α) :
    (keys (insert d key value)).Nodup := by
  rw [keys_insert]
  split
  · exact h
  · next hk => exact List.nodup_append.2 ⟨h, by simp, by
      intro a ha b hb
      simp only [List.mem_singleton] at hb
      subst hb
      exact fun hab => hk (hab ▸ ha)⟩

/-- A key is absent exactly when it is not among the keys. -/
theorem get?_eq_none_iff (d : Dict α) (key : String) : get? d key = none ↔ key ∉ keys d := by
  rw [← get?_isSome_iff, Option.not_isSome_iff_eq_none]

theorem contains_cons (k : String) (v : α) (d : Dict α) (key : String) :
    contains ((k, v) :: d) key = (k == key || contains d key) := by
  by_cases hk : k = key <;> simp [contains, get?_cons, hk]

/-- Leaving out a key makes no difference to the other ones. -/
theorem contains_filter_ne (d : Dict α) {key other : String} (h : key ≠ other) :
    contains (d.filter (·.1 != key)) other = contains d other := by
  induction d with
  | nil => rfl
  | cons entry d ih =>
    obtain ⟨k, v⟩ := entry
    by_cases hk : k = key
    · subst hk
      rw [List.filter_cons_of_neg (by simp), ih, contains_cons]
      simp [h]
    · rw [List.filter_cons_of_pos (by simpa using hk), contains_cons, contains_cons, ih]

theorem mem_keys_insert_self (d : Dict α) (key : String) (value : α) :
    key ∈ keys (insert d key value) := by
  rw [← get?_isSome_iff, get?_insert_self, Option.isSome_some]

/-- Of two insertions under one key the first one only fixes the place. -/
theorem insert_insert (d : Dict α) (key : String) (value later : α) :
    insert (insert d key value) key later = insert d key later := by
  induction d with
  | nil => simp [insert]
  | cons entry d ih =>
    obtain ⟨k, v⟩ := entry
    by_cases hk : k = key
    · simp [insert, hk]
    · simp [insert, hk, ih]

/-- Setting a key that is present can be put off until another key has been set. -/
theorem insert_comm {d : Dict α} {key other : String} (hmem : key ∈ keys d) (hne : key ≠ other)
    (value otherValue : α) :
    insert (insert d other otherValue) key value
      = insert (insert d key value) other otherValue := by
  induction d with
  | nil => simp [keys] at hmem
  | cons entry d ih =>
    obtain ⟨k, v⟩ := entry
    by_cases hk : k = key
    · subst hk
      simp [insert, hne]
    · have hrest : key ∈ keys d := by simpa [keys, Ne.symm hk] using hmem
      by_cases ho : k = other
      · subst ho
        simp [insert, hk]
      · simp [insert, hk, ho, ih hrest]

@[simp] theorem merge_nil (d : Dict α) : merge d [] = d := rfl

theorem merge_cons (d : Dict α) (entry : String × α) (e : Dict α) :
    merge d (entry :: e) = merge (insert d entry.1 entry.2) e := rfl

/-- Merging a dictionary with new keys appends it. -/
theorem merge_eq_append {d e : Dict α} (h : (keys (d ++ e)).Nodup) : merge d e = d ++ e := by
  induction e generalizing d with
  | nil => simp
  | cons entry e ih =>
    have hnew : entry.1 ∉ keys d := by
      rw [keys, List.map_append, List.nodup_append] at h
      exact fun hmem ↦ h.2.2 _ hmem _ (by simp) rfl
    have hinsert : insert d entry.1 entry.2 = d ++ [entry] := by
      clear h ih
      induction d with
      | nil => rfl
      | cons first d ih =>
        simp only [keys, List.map_cons, List.mem_cons, not_or] at hnew
        simp [insert, Ne.symm hnew.1, ih hnew.2]
    rw [merge_cons, hinsert, ih (by simpa using h)]
    simp

theorem merge_nil_left {e : Dict α} (h : (keys e).Nodup) : merge [] e = e :=
  merge_eq_append h

/-- Nothing is left out with a key that is absent. -/
theorem filter_ne_eq_self {d : Dict α} {key : String} (h : key ∉ keys d) :
    d.filter (·.1 != key) = d := by
  refine List.filter_eq_self.2 fun entry hentry ↦ ?_
  have hmem : entry.1 ∈ keys d := List.mem_map_of_mem hentry
  have hne : entry.1 ≠ key := fun heq ↦ h (heq ▸ hmem)
  simpa using hne

/-- A key that is present and set once while merging can be set before everything else. -/
theorem merge_eq_of_get? {d e : Dict α} {key : String} {value : α} (hmem : key ∈ keys d)
    (honce : (keys e).Nodup) (hget : get? e key = some value) :
    merge d e = merge (insert d key value) (e.filter (·.1 != key)) := by
  induction e generalizing d with
  | nil => cases hget
  | cons entry e ih =>
    obtain ⟨k, v⟩ := entry
    obtain ⟨hfresh, hrest⟩ := List.nodup_cons.1 honce
    rw [merge_cons]
    by_cases hk : k = key
    · subst hk
      have hvalue : v = value := by simpa [get?_cons] using hget
      rw [List.filter_cons_of_neg (by simp), filter_ne_eq_self hfresh, hvalue]
    · have hget' : get? e key = some value := by simpa [get?_cons, hk] using hget
      have hmem' : key ∈ keys (insert d k v) := by
        rw [keys_insert]
        split
        · exact hmem
        · exact List.mem_append_left _ hmem
      rw [List.filter_cons_of_pos (by simpa using hk), merge_cons, ih hmem' hrest hget',
        insert_comm hmem (Ne.symm hk)]

theorem get?_filter_ne (d : Dict α) (key other : String) :
    get? (d.filter (·.1 != key)) other = if key = other then none else get? d other := by
  induction d with
  | nil => simp
  | cons entry d ih =>
    obtain ⟨k, v⟩ := entry
    by_cases hk : k = key
    · subst hk
      rw [List.filter_cons_of_neg (by simp), ih, get?_cons]
      split
      · rfl
      · rfl
    · rw [List.filter_cons_of_pos (by simpa using hk), get?_cons, get?_cons, ih]
      by_cases ho : k = other
      · rw [if_pos ho, if_pos ho, if_neg fun heq ↦ hk (ho.trans heq.symm)]
      · rw [if_neg ho, if_neg ho]

theorem keys_filter_ne (d : Dict α) (key : String) :
    keys (d.filter (·.1 != key)) = (keys d).filter (· != key) := by
  rw [keys, keys, List.filter_map]
  rfl

theorem get?_append (d e : Dict α) (key : String) :
    get? (d ++ e) key = (get? d key).or (get? e key) := by
  induction d with
  | nil => rfl
  | cons entry d ih =>
    obtain ⟨k, v⟩ := entry
    rw [List.cons_append, get?_cons, get?_cons, ih]
    split
    · rfl
    · rfl

/-- If no key is repeated, looking up keys finds all entries. -/
theorem get?_eq_some_iff {d : Dict α} (h : (keys d).Nodup) (key : String) (value : α) :
    get? d key = some value ↔ (key, value) ∈ d := by
  induction d with
  | nil => simp
  | cons entry d ih =>
    obtain ⟨k, v⟩ := entry
    obtain ⟨hfresh, hrest⟩ := List.nodup_cons.1 h
    rw [get?_cons, List.mem_cons, Prod.mk.injEq]
    by_cases hk : k = key
    · subst hk
      have hnot : (k, value) ∉ d := by
        intro hmem
        have hkey : (k, value).1 ∈ keys d := List.mem_map_of_mem hmem
        exact hfresh hkey
      simp [hnot, eq_comm]
    · simp [hk, Ne.symm hk, ih hrest]

/-- Dictionaries that repeat no key are the same if their keys come in the same order and have the
same values. -/
theorem ext_get? {d e : Dict α} (hd : (keys d).Nodup) (hkeys : keys d = keys e)
    (h : ∀ key, get? d key = get? e key) : d = e := by
  induction d generalizing e with
  | nil => exact (List.map_eq_nil_iff.1 hkeys.symm).symm
  | cons entry d ih =>
    obtain ⟨k, v⟩ := entry
    cases e with
    | nil => cases hkeys
    | cons other e =>
      obtain ⟨k', v'⟩ := other
      obtain ⟨rfl, hrest⟩ : k = k' ∧ keys d = keys e := List.cons.inj hkeys
      obtain ⟨hfresh, hd⟩ := List.nodup_cons.1 hd
      have hvalue : v = v' := by simpa [get?_cons] using h k
      have htail : ∀ key, get? d key = get? e key := by
        intro key
        by_cases hk : k = key
        · subst hk
          rw [(get?_eq_none_iff d k).2 hfresh, (get?_eq_none_iff e k).2 (hrest ▸ hfresh)]
        · simpa [get?_cons, hk] using h key
      rw [hvalue, ih hd hrest htail]

/-- If no key is repeated, then one entry at most is left out with a key. -/
theorem perm_filter_ne {d : Dict α} (h : (keys d).Nodup) (key : String) :
    d.Perm (d.filter (·.1 != key) ++ (get? d key).toList.map (key, ·)) := by
  induction d with
  | nil => exact .nil
  | cons entry d ih =>
    obtain ⟨k, v⟩ := entry
    obtain ⟨hfresh, hrest⟩ := List.nodup_cons.1 h
    rw [get?_cons]
    by_cases hk : k = key
    · subst hk
      rw [if_pos rfl, List.filter_cons_of_neg (by simp), filter_ne_eq_self hfresh]
      exact (List.perm_append_singleton _ _).symm
    · rw [if_neg hk, List.filter_cons_of_pos (by simpa using hk), List.cons_append]
      exact (ih hrest).cons _

end Dict

end GraphCache
