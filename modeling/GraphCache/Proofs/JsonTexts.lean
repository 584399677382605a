import GraphCache.Json.Lexeme
import GraphCache.Json.Text
import GraphCache.Proofs.Sameness

/-!
# The texts of values

The compact text of a value can be read in one way only, whatever follows it: it ends where it has
to, and it tells the kind of the value, the items of a list, and the keys of an object with their
values, in order. Of a number it tells no more than the text of that number.

## Main definitions

* `Number.isLetter`: the characters that occur in numbers.
* `Json.Ends`: what may follow a value.

## Main results

* `Json.Lexeme.stringTail?_quotedTail`: strings are read as they were before they were written.
* `Json.uniquelyRead`: texts end where they have to.
* `Json.chars_array_eq_iff`, `Json.chars_object_eq_iff`: texts tell the members of lists and
  objects.
* `Json.kind_eq_of_chars_eq`: texts tell the kind of a value.
-/

namespace GraphCache

/-! ### Numbers -/

namespace Number

/-- The characters of which numbers are written. -/
def isLetter (c : Char) : Bool :=
  c.isDigit || c == '-' || c == '+' || c == '.' || c == 'e'

theorem isLetter_of_mem_toDigits {n : Nat} {c : Char} (h : c ∈ Nat.toDigits 10 n) :
    isLetter c = true := by
  have hdigit : c.isDigit = true := Nat.isDigit_of_mem_toDigits (by decide) (by decide) h
  simp [isLetter, hdigit]

end Number

namespace DecimalLayout

theorem positional_ne_nil {digits : List Char} (h : digits ≠ []) (p : Int) :
    positional digits p ≠ [] := by
  rw [positional]
  split
  · simp [h]
  · dsimp only
    split <;> simp

theorem isLetter_of_mem_positional {digits : List Char} {p : Int}
    (h : ∀ c ∈ digits, Number.isLetter c = true) :
    ∀ c ∈ positional digits p, Number.isLetter c = true := by
  have hzero : Number.isLetter '0' = true := by decide
  have hpoint : Number.isLetter '.' = true := by decide
  have hzeros (n : Nat) : ∀ c ∈ List.replicate n '0', Number.isLetter c = true := by
    intro c hc
    rw [List.eq_of_mem_replicate hc, hzero]
  rw [positional]
  split
  · exact List.forall_mem_append.2 ⟨List.forall_mem_append.2 ⟨h, hzeros _⟩, by simp [hzero, hpoint]⟩
  · dsimp only
    split
    · exact List.forall_mem_append.2 ⟨fun c hc ↦ h c (List.mem_of_mem_take hc),
        List.forall_mem_cons.2 ⟨hpoint, fun c hc ↦ h c (List.mem_of_mem_drop hc)⟩⟩
    · exact List.forall_mem_cons.2 ⟨hzero, List.forall_mem_cons.2 ⟨hpoint,
        List.forall_mem_append.2 ⟨hzeros _, h⟩⟩⟩

theorem isLetter_of_mem_scientific {digits : List Char} {e : Int}
    (h : ∀ c ∈ digits, Number.isLetter c = true) :
    ∀ c ∈ scientific digits e, Number.isLetter c = true := by
  have hsign : Number.isLetter (if e < 0 then '-' else '+') = true := by
    split <;> decide
  have hpoint : Number.isLetter '.' = true := by decide
  rw [scientific]
  refine List.forall_mem_append.2 ⟨List.forall_mem_append.2
    ⟨fun c hc ↦ h c (List.mem_of_mem_take hc), ?_⟩, List.forall_mem_cons.2 ⟨by decide,
      List.forall_mem_cons.2 ⟨hsign, fun c hc ↦ Number.isLetter_of_mem_toDigits hc⟩⟩⟩
  split
  · exact List.forall_mem_nil _
  · exact List.forall_mem_cons.2 ⟨hpoint, fun c hc ↦ h c (List.mem_of_mem_drop hc)⟩

theorem write_ne_nil (layout : DecimalLayout) (coefficient : Nat) (p : Int) :
    layout.write coefficient p ≠ [] := by
  rw [write]
  split
  · exact positional_ne_nil Nat.toDigits_ne_nil p
  · simp [scientific]

theorem isLetter_of_mem_write {layout : DecimalLayout} {coefficient : Nat} {p : Int} :
    ∀ c ∈ layout.write coefficient p, Number.isLetter c = true := by
  have hdigits : ∀ c ∈ Nat.toDigits 10 coefficient, Number.isLetter c = true :=
    fun c hc ↦ Number.isLetter_of_mem_toDigits hc
  rw [write]
  split
  · exact isLetter_of_mem_positional hdigits
  · exact isLetter_of_mem_scientific hdigits

end DecimalLayout

namespace Number

theorem chars_ne_nil (n : Number) : n.chars ≠ [] := by
  cases n with
  | integer value =>
    have h := Nat.toDigits_ne_nil (n := value.natAbs) (b := 10)
    simp [chars, h]
  | float x =>
    have h := layout.write_ne_nil x.shortest.1 x.shortest.2
    simp [chars, h]

theorem isLetter_of_mem_chars (n : Number) : ∀ c ∈ n.chars, isLetter c = true := by
  have hsign (negative : Prop) [Decidable negative] :
      ∀ c ∈ if negative then ['-'] else [], isLetter c = true := by
    split
    · simp [isLetter]
    · exact List.forall_mem_nil _
  cases n with
  | integer value =>
    exact List.forall_mem_append.2 ⟨hsign _, fun c hc ↦ isLetter_of_mem_toDigits hc⟩
  | float x =>
    exact List.forall_mem_append.2 ⟨hsign _, DecimalLayout.isLetter_of_mem_write⟩

end Number

/-! ### Strings -/

namespace Json

theorem hexValues?_hexDigit : ∀ n < 32,
    Scan.hexValues? ['0', '0', hexDigit (n / 16), hexDigit (n % 16)] = some n := by
  decide +kernel

namespace Lexeme

section StringTail

variable {rest rest' : List Char} {units : List Nat} (h : stringTail? rest = some (units, rest'))

include h

theorem stringTail?_escape {c : Char} {unit : Nat} (hunit : escape? c = some unit) :
    stringTail? ('\\' :: c :: rest) = some (unit :: units, rest') := by
  have hu : c ≠ 'u' := by
    rintro rfl
    cases hunit
  rw [stringTail?, hunit, h]
  · rfl
  · rintro _ _ _ _ _ hcons -
    exact hu hcons

theorem stringTail?_plain {c : Char} (hquote : c ≠ '"') (hbackslash : c ≠ '\\')
    (hcontrol : ¬ c.toNat < 32) : stringTail? (c :: rest) = some (c.toNat :: units, rest') := by
  rw [stringTail?, h]
  · simp [hbackslash, hcontrol]
  · exact hquote
  · rintro _ _ _ _ _ rfl
    exact absurd rfl hbackslash
  · rintro _ _ rfl
    exact absurd rfl hbackslash

/-- A character that is written inside a string is read as it was. -/
theorem stringTail?_escaped (c : Char) :
    stringTail? (escaped c ++ rest) = some (c.toNat :: units, rest') := by
  rw [escaped]
  -- seven characters have an escape of their own
  iterate 7
    split
    · next heq =>
      subst heq
      exact stringTail?_escape h rfl
  split
  · next hcontrol =>
    simp [stringTail?, hexValues?_hexDigit _ hcontrol, h]
  · next hquote hbackslash _ _ _ _ _ hcontrol =>
    exact stringTail?_plain h hquote hbackslash hcontrol

end StringTail

/-- A string is read as it was before it was written, up to its closing quotation mark. -/
theorem stringTail?_quotedTail (cs rest : List Char) :
    stringTail? (quotedTail cs ++ rest) = some (cs.map Char.toNat, rest) := by
  induction cs with
  | nil => simp [quotedTail, stringTail?]
  | cons c cs ih =>
    rw [quotedTail, List.append_assoc]
    exact stringTail?_escaped ih c

end Lexeme

/-- A string ends at its closing quotation mark, and its text tells all of its characters. -/
theorem quotedTail_append_inj {cs ds rest rest' : List Char}
    (h : quotedTail cs ++ rest = quotedTail ds ++ rest') : cs = ds ∧ rest = rest' := by
  have hread := congrArg Lexeme.stringTail? h
  rw [Lexeme.stringTail?_quotedTail, Lexeme.stringTail?_quotedTail] at hread
  obtain ⟨hunits, hrest⟩ := Prod.mk.inj (Option.some.inj hread)
  exact ⟨List.map_injective_iff.2 (fun _ _ ↦ Char.toNat_inj.1) hunits, hrest⟩

theorem quoted_append_inj {s t : String} {rest rest' : List Char}
    (h : quoted s ++ rest = quoted t ++ rest') : s = t ∧ rest = rest' := by
  obtain ⟨hchars, hrest⟩ := quotedTail_append_inj (List.cons.inj h).2
  exact ⟨String.toList_inj.1 hchars, hrest⟩

/-! ### Where a value ends -/

/-- What may follow a value: whatever does not go on with a number. -/
def Ends (rest : List Char) : Prop :=
  ∀ c ∈ rest.head?, Number.isLetter c = false

theorem ends_cons {c : Char} {rest : List Char} (h : Number.isLetter c = false) :
    Ends (c :: rest) := by
  simpa [Ends] using h

theorem ends_itemsTail (items : List Json) (rest : List Char) : Ends (itemsTail items ++ rest) := by
  cases items <;> exact ends_cons (by decide)

theorem ends_fieldsTail (fields : List (String × Json)) (rest : List Char) :
    Ends (fieldsTail fields ++ rest) := by
  obtain _ | ⟨⟨key, value⟩, fields⟩ := fields <;> exact ends_cons (by decide)

theorem takeWhile_isLetter_append {n : Number} {rest : List Char} (h : Ends rest) :
    (n.chars ++ rest).takeWhile Number.isLetter = n.chars := by
  rw [List.takeWhile_append_of_pos n.isLetter_of_mem_chars]
  cases rest with
  | nil => simp
  | cons c rest => simp [h c rfl]

/-- A number ends where no further character of a number follows. -/
theorem number_append_inj {m n : Number} {rest rest' : List Char}
    (h : m.chars ++ rest = n.chars ++ rest') (hrest : Ends rest) (hrest' : Ends rest') :
    m.chars = n.chars ∧ rest = rest' := by
  have hchars : m.chars = n.chars := by
    rw [← takeWhile_isLetter_append hrest, h, takeWhile_isLetter_append hrest']
  exact ⟨hchars, List.append_cancel_left (hchars ▸ h)⟩

/-- The kind of the value with which a text begins. -/
def leadingKind? : List Char → Option String
  | [] => none
  | c :: _ =>
    if Number.isLetter c then some "number"
    else
      match c with
      | 'n' => some "null"
      | 't' | 'f' => some "boolean"
      | '"' => some "string"
      | '[' => some "list"
      | '\x7b' => some "object"
      | _ => none

/-- The first character of a text tells the kind of the value. -/
theorem leadingKind?_chars (value : Json) (rest : List Char) :
    leadingKind? (value.chars ++ rest) = some value.kind := by
  cases value with
  | null => rfl
  | bool value => cases value <;> rfl
  | number n =>
    obtain ⟨c, cs, hchars⟩ := List.exists_cons_of_ne_nil n.chars_ne_nil
    have hletter : Number.isLetter c = true :=
      n.isLetter_of_mem_chars c (hchars ▸ List.mem_cons_self)
    rw [chars, hchars]
    exact if_pos hletter
  | string text => rfl
  | array items => cases items <;> rfl
  | object fields => obtain _ | ⟨⟨key, value⟩, fields⟩ := fields <;> rfl

theorem chars_append_ne_cons {value : Json} {c : Char} {rest rest' : List Char}
    (h : leadingKind? (c :: rest') = none) : value.chars ++ rest ≠ c :: rest' := by
  intro heq
  have hkind := leadingKind?_chars value rest
  rw [heq, h] at hkind
  cases hkind

/-! ### Unique reading -/

theorem itemsTail_cons_append (item : Json) (items : List Json) (rest : List Char) :
    itemsTail (item :: items) ++ rest = ',' :: (item.chars ++ (itemsTail items ++ rest)) := by
  simp [itemsTail]

theorem fieldsTail_cons_append (key : String) (value : Json) (fields : List (String × Json))
    (rest : List Char) :
    fieldsTail ((key, value) :: fields) ++ rest =
      ',' :: (quoted key ++ ':' :: (value.chars ++ (fieldsTail fields ++ rest))) := by
  simp [fieldsTail]

/-- Whatever follows the value, its text ends where it has to, and no other value has this text. -/
def UniquelyRead (value : Json) : Prop :=
  ∀ {other : Json} {rest rest' : List Char}, Ends rest → Ends rest' →
    value.chars ++ rest = other.chars ++ rest' → value.chars = other.chars ∧ rest = rest'

theorem itemsTail_append_inj {items others : List Json} {rest rest' : List Char}
    (hitems : ∀ item ∈ items, UniquelyRead item)
    (h : itemsTail items ++ rest = itemsTail others ++ rest') :
    List.Forall₂ (fun a b ↦ a.chars = b.chars) items others ∧ rest = rest' := by
  induction items generalizing others with
  | nil =>
    cases others with
    | nil => exact ⟨.nil, (List.cons.inj h).2⟩
    | cons other others => cases (List.cons.inj h).1
  | cons item items ih =>
    cases others with
    | nil => cases (List.cons.inj h).1
    | cons other others =>
      obtain ⟨hfirst, hothers⟩ := List.forall_mem_cons.1 hitems
      rw [itemsTail_cons_append, itemsTail_cons_append] at h
      obtain ⟨hchars, htail⟩ := hfirst (ends_itemsTail items rest) (ends_itemsTail others rest')
        (List.cons.inj h).2
      obtain ⟨hrest, heq⟩ := ih hothers htail
      exact ⟨.cons hchars hrest, heq⟩

theorem fieldsTail_append_inj {fields others : List (String × Json)} {rest rest' : List Char}
    (hfields : ∀ field ∈ fields, UniquelyRead field.2)
    (h : fieldsTail fields ++ rest = fieldsTail others ++ rest') :
    List.Forall₂ (fun a b ↦ a.1 = b.1 ∧ a.2.chars = b.2.chars) fields others ∧ rest = rest' := by
  induction fields generalizing others with
  | nil =>
    obtain _ | ⟨⟨key', other⟩, others⟩ := others
    · exact ⟨.nil, (List.cons.inj h).2⟩
    · cases (List.cons.inj h).1
  | cons field fields ih =>
    obtain ⟨key, value⟩ := field
    obtain _ | ⟨⟨key', other⟩, others⟩ := others
    · cases (List.cons.inj h).1
    · obtain ⟨hfirst, hothers⟩ := List.forall_mem_cons.1 hfields
      rw [fieldsTail_cons_append, fieldsTail_cons_append] at h
      obtain ⟨hkey, htail⟩ := quoted_append_inj (List.cons.inj h).2
      obtain ⟨hchars, htail⟩ := hfirst (ends_fieldsTail fields rest) (ends_fieldsTail others rest')
        (List.cons.inj htail).2
      obtain ⟨hrest, heq⟩ := ih hothers htail
      exact ⟨.cons ⟨hkey, hchars⟩ hrest, heq⟩

/-- A list is written as its items are behind another item, but for the first comma. -/
theorem itemsTail_append_of_chars {items others : List Json} {rest rest' : List Char}
    (h : (array items).chars ++ rest = (array others).chars ++ rest') :
    itemsTail items ++ rest = itemsTail others ++ rest' := by
  cases items with
  | nil =>
    cases others with
    | nil => exact congrArg List.tail h
    | cons other others =>
      have hclose : other.chars ++ (itemsTail others ++ rest') = ']' :: rest := by
        simpa [chars] using h.symm
      exact absurd hclose (chars_append_ne_cons rfl)
  | cons item items =>
    cases others with
    | nil =>
      have hclose : item.chars ++ (itemsTail items ++ rest) = ']' :: rest' := by
        simpa [chars] using h
      exact absurd hclose (chars_append_ne_cons rfl)
    | cons other others => exact congrArg (',' :: ·) (List.cons.inj h).2

/-- An object is written as its fields are behind another field, but for the first comma. -/
theorem fieldsTail_append_of_chars {fields others : List (String × Json)} {rest rest' : List Char}
    (h : (object fields).chars ++ rest = (object others).chars ++ rest') :
    fieldsTail fields ++ rest = fieldsTail others ++ rest' := by
  obtain _ | ⟨⟨key, value⟩, fields⟩ := fields
  · obtain _ | ⟨⟨key', other⟩, others⟩ := others
    · exact congrArg List.tail h
    · cases (List.cons.inj (List.cons.inj h).2).1
  · obtain _ | ⟨⟨key', other⟩, others⟩ := others
    · cases (List.cons.inj (List.cons.inj h).2).1
    · exact congrArg (',' :: ·) (List.cons.inj h).2

theorem chars_array_congr {items others : List Json}
    (h : List.Forall₂ (fun a b ↦ a.chars = b.chars) items others) :
    (array items).chars = (array others).chars := by
  have htail {items others : List Json}
      (h : List.Forall₂ (fun a b ↦ a.chars = b.chars) items others) :
      itemsTail items = itemsTail others := by
    induction h with
    | nil => rfl
    | cons hfirst _ ih => rw [itemsTail, itemsTail, hfirst, ih]
  cases h with
  | nil => rfl
  | cons hfirst hrest => rw [chars, chars, hfirst, htail hrest]

theorem chars_object_congr {fields others : List (String × Json)}
    (h : List.Forall₂ (fun a b ↦ a.1 = b.1 ∧ a.2.chars = b.2.chars) fields others) :
    (object fields).chars = (object others).chars := by
  have htail {fields others : List (String × Json)}
      (h : List.Forall₂ (fun a b ↦ a.1 = b.1 ∧ a.2.chars = b.2.chars) fields others) :
      fieldsTail fields = fieldsTail others := by
    induction h with
    | nil => rfl
    | cons hfirst _ ih => rw [fieldsTail, fieldsTail, hfirst.1, hfirst.2, ih]
  cases h with
  | nil => rfl
  | cons hfirst hrest => rw [chars, chars, hfirst.1, hfirst.2, htail hrest]

/-- Texts tell the kind of a value, whatever follows. -/
theorem kind_eq_of_append {value other : Json} {rest rest' : List Char}
    (h : value.chars ++ rest = other.chars ++ rest') : value.kind = other.kind := by
  have hkind := congrArg leadingKind? h
  rw [leadingKind?_chars, leadingKind?_chars] at hkind
  exact Option.some.inj hkind

/-- The text of a value ends where it has to, whatever the value. -/
theorem uniquelyRead (value : Json) : UniquelyRead value := by
  induction value using induction_on_members with
  | null =>
    intro other rest rest' _ _ h
    cases other with
    | null => exact ⟨rfl, List.append_cancel_left h⟩
    | _ => exact absurd (kind_eq_of_append h) (by simp [kind])
  | bool value =>
    intro other rest rest' _ _ h
    cases other with
    | bool other =>
      cases value <;> cases other
      · exact ⟨rfl, List.append_cancel_left h⟩
      · cases (List.cons.inj h).1
      · cases (List.cons.inj h).1
      · exact ⟨rfl, List.append_cancel_left h⟩
    | _ => exact absurd (kind_eq_of_append h) (by simp [kind])
  | number n =>
    intro other rest rest' hrest hrest' h
    cases other with
    | number other => exact number_append_inj h hrest hrest'
    | _ => exact absurd (kind_eq_of_append h) (by simp [kind])
  | string text =>
    intro other rest rest' _ _ h
    cases other with
    | string other =>
      obtain ⟨rfl, heq⟩ := quoted_append_inj h
      exact ⟨rfl, heq⟩
    | _ => exact absurd (kind_eq_of_append h) (by simp [kind])
  | array items ih =>
    intro other rest rest' _ _ h
    cases other with
    | array others =>
      obtain ⟨hitems, heq⟩ := itemsTail_append_inj ih (itemsTail_append_of_chars h)
      exact ⟨chars_array_congr hitems, heq⟩
    | _ => exact absurd (kind_eq_of_append h) (by simp [kind])
  | object fields ih =>
    intro other rest rest' _ _ h
    cases other with
    | object others =>
      obtain ⟨hfields, heq⟩ := fieldsTail_append_inj ih (fieldsTail_append_of_chars h)
      exact ⟨chars_object_congr hfields, heq⟩
    | _ => exact absurd (kind_eq_of_append h) (by simp [kind])

theorem chars_append_nil {value other : Json} (h : value.chars = other.chars) :
    value.chars ++ [] = other.chars ++ [] := by
  rw [h]

theorem kind_eq_of_chars_eq {value other : Json} (h : value.chars = other.chars) :
    value.kind = other.kind :=
  kind_eq_of_append (chars_append_nil h)

theorem chars_array_eq_iff {items others : List Json} :
    (array items).chars = (array others).chars ↔
      List.Forall₂ (fun a b ↦ a.chars = b.chars) items others := by
  refine ⟨fun h ↦ ?_, chars_array_congr⟩
  have htail := itemsTail_append_of_chars (chars_append_nil h)
  exact (itemsTail_append_inj (fun item _ ↦ uniquelyRead item) htail).1

theorem chars_object_eq_iff {fields others : List (String × Json)} :
    (object fields).chars = (object others).chars ↔
      List.Forall₂ (fun a b ↦ a.1 = b.1 ∧ a.2.chars = b.2.chars) fields others := by
  refine ⟨fun h ↦ ?_, chars_object_congr⟩
  have htail := fieldsTail_append_of_chars (chars_append_nil h)
  exact (fieldsTail_append_inj (fun field _ ↦ uniquelyRead field.2) htail).1

theorem chars_string_eq_iff {s t : String} : (string s).chars = (string t).chars ↔ s = t :=
  ⟨fun h ↦ (quoted_append_inj (chars_append_nil h)).1, fun h ↦ h ▸ rfl⟩

theorem chars_bool_eq_iff {a b : Bool} : (bool a).chars = (bool b).chars ↔ a = b := by
  cases a <;> cases b <;> simp [chars]

end Json

end GraphCache
