import GraphCache.Document.Token
import GraphCache.Json.Path
import Mathlib.Data.List.TakeWhile

/-!
# The texts of paths

A path is written with a slash in front of every element, and a text is read by cutting it at its
slashes. A path can be read back from its text if its elements can: indices that fit a word, and
keys that are not empty, hold no slash and cannot be taken for an index. These are exactly the
elements that reading yields, so that what was read can be written and read again.

## Main definitions

* `PathElement.Legible`: the elements that can be read back.
* `Token.IsName`: the names that can be written in documents.

## Main results

* `Path.segments_append_chars`: the segments of the text of a path are its elements.
* `PathElement.indexOfSegment?_eq_some_iff`: which segments denote an index.
* `PathElement.legible_ofSegment`, `PathElement.Legible.ofSegment_segment`: one element.
* `Token.isName_of_mem_readAll?`: the names that the reader of documents finds are names.
* `Path.text_roundtrip`: paths and their texts.
-/

namespace GraphCache

/-! ### Segments -/

namespace Path

/-- The segments are what the library cuts a list into. -/
theorem segments_eq_splitOn (text : List Char) : segments text = text.splitOn '/' := by
  induction text with
  | nil => rfl
  | cons c text ih =>
    rw [segments, List.splitOn_cons_eq_if_modifyHead, ih]
    by_cases hslash : c = '/'
    · simp [hslash]
    · cases hrest : text.splitOn '/' with
      | nil => exact absurd hrest (List.splitOn_ne_nil '/' text)
      | cons first rest => simp [hslash]

/-- No slash is left in a segment. -/
theorem slash_not_mem_of_mem_segments {text segment : List Char} (h : segment ∈ segments text) :
    '/' ∉ segment := by
  induction text generalizing segment with
  | nil =>
    rw [List.mem_singleton.1 h]
    exact List.not_mem_nil
  | cons c text ih =>
    rw [segments] at h
    split at h
    · rcases List.mem_cons.1 h with rfl | h
      · exact List.not_mem_nil
      · exact ih h
    · next hslash =>
      have hhead {rest : List Char} (hrest : '/' ∉ rest) : '/' ∉ c :: rest :=
        fun hmem ↦ (List.mem_cons.1 hmem).elim (fun heq ↦ hslash heq.symm) hrest
      split at h
      · rw [List.mem_singleton.1 h]
        exact hhead List.not_mem_nil
      · next first rest hrest =>
        rw [hrest] at ih
        rcases List.mem_cons.1 h with rfl | h
        · exact hhead (ih List.mem_cons_self)
        · exact ih (List.mem_cons_of_mem _ h)

/-- The segments of a text that ends with that of a path. -/
theorem segments_append_chars {segment : List Char} (hsegment : '/' ∉ segment) {path : Path}
    (hpath : ∀ element ∈ path, '/' ∉ element.segment) :
    segments (segment ++ chars path) = segment :: path.map PathElement.segment := by
  rw [segments_eq_splitOn]
  induction path generalizing segment with
  | nil => rw [chars, List.append_nil, List.splitOn_eq_singleton hsegment, List.map_nil]
  | cons element path ih =>
    obtain ⟨helement, hpath⟩ := List.forall_mem_cons.1 hpath
    rw [chars, List.splitOn_append_cons_self_of_not_mem hsegment, ih helement hpath, List.map_cons]

end Path

/-! ### Elements -/

namespace PathElement

/-- Elements that can be read back: indices that fit a word, and keys that are not empty, hold no
slash and do not denote an index. -/
def Legible : PathElement → Prop
  | index position => position < indexLimit
  | key name => name ≠ "" ∧ '/' ∉ name.toList ∧ indexOfSegment? name.toList = none

/-- An index is written as digits, behind a plus sign or not, whose value fits a word. -/
theorem indexOfSegment?_eq_some_iff {segment : List Char} {position : Nat} :
    indexOfSegment? segment = some position ↔
      ∃ digits, (segment = digits ∨ segment = '+' :: digits) ∧ digits ≠ [] ∧
        (∀ c ∈ digits, c.isDigit = true) ∧ Scan.naturalValue digits = position ∧
        position < indexLimit := by
  have hread (digits : List Char) :
      (if digits.isEmpty || !digits.all Char.isDigit then none
        else if Scan.naturalValue digits < indexLimit then some (Scan.naturalValue digits)
          else none) = some position ↔
        digits ≠ [] ∧ (∀ c ∈ digits, c.isDigit = true) ∧ Scan.naturalValue digits = position ∧
          position < indexLimit := by
    have hdigits : (digits.isEmpty || !digits.all Char.isDigit) = false ↔
        digits ≠ [] ∧ ∀ c ∈ digits, c.isDigit = true := by simp
    rw [Option.ite_none_left_eq_some, Option.ite_none_right_eq_some, Option.some_inj,
      Bool.not_eq_true, hdigits]
    constructor
    · rintro ⟨⟨hne, hall⟩, hlt, rfl⟩
      exact ⟨hne, hall, rfl, hlt⟩
    · rintro ⟨hne, hall, rfl, hlt⟩
      exact ⟨⟨hne, hall⟩, hlt, rfl⟩
  constructor
  · intro h
    unfold indexOfSegment? at h
    dsimp only at h
    split at h
    · next rest => exact ⟨rest, .inr rfl, (hread rest).1 h⟩
    · exact ⟨segment, .inl rfl, (hread segment).1 h⟩
  · rintro ⟨digits, rfl | rfl, hdigits⟩
    · -- The sign is no digit, so the digits are read as they are.
      unfold indexOfSegment?
      dsimp only
      split
      · exact absurd (hdigits.2.1 '+' List.mem_cons_self) (by decide)
      · exact (hread segment).2 hdigits
    · exact (hread digits).2 hdigits

/-- What reading yields can be read back. -/
theorem legible_ofSegment {segment : List Char} (hne : segment ≠ []) (hslash : '/' ∉ segment) :
    (ofSegment segment).Legible := by
  rw [ofSegment]
  split
  · next position hposition =>
    obtain ⟨_, -, -, -, -, hlt⟩ := indexOfSegment?_eq_some_iff.1 hposition
    exact hlt
  · next hnone =>
    refine ⟨?_, ?_, ?_⟩
    · simpa using hne
    · rwa [String.toList_ofList]
    · rwa [String.toList_ofList]

namespace Legible

variable {element : PathElement}

/-- A legible element is read back from its text. -/
theorem ofSegment_segment (h : element.Legible) : ofSegment element.segment = element := by
  cases element with
  | index position =>
    have hindex : indexOfSegment? (Nat.toDigits 10 position) = some position :=
      indexOfSegment?_eq_some_iff.2 ⟨_, .inl rfl, Nat.toDigits_ne_nil,
        fun c hc ↦ Nat.isDigit_of_mem_toDigits (by decide) (by decide) hc,
        Nat.ofDigitChars_ten_toDigits, h⟩
    rw [segment, ofSegment, hindex]
  | key name =>
    rw [segment, ofSegment, h.2.2]
    exact congrArg key String.ofList_toList

theorem segment_ne_nil (h : element.Legible) : element.segment ≠ [] := by
  cases element with
  | index position => exact Nat.toDigits_ne_nil
  | key name => simpa [segment] using h.1

theorem slash_not_mem_segment (h : element.Legible) : '/' ∉ element.segment := by
  cases element with
  | index position =>
    intro hslash
    exact absurd (Nat.isDigit_of_mem_toDigits (by decide) (by decide) hslash) (by decide)
  | key name => exact h.2.1

end Legible

end PathElement

/-! ### Names -/

/-- Every piece of a text was taken from the front of some rest of it. -/
theorem Scan.exists_step_of_mem_all? {α β : Type} {step : List β → Option (α × List β)}
    {items : List β} {pieces : List α} (h : Scan.all? step items = some pieces) {piece : α}
    (hpiece : piece ∈ pieces) : ∃ front rest, step front = some (piece, rest) := by
  induction items using Scan.all?.induct step generalizing pieces with
  | case1 =>
    rw [Scan.all?] at h
    cases h
    cases hpiece
  | case2 item items hstep =>
    rw [Scan.all?, hstep] at h
    cases h
  | case3 item items first rest hstep hshorter ih =>
    rw [Scan.all?, hstep] at h
    dsimp only at h
    rw [if_pos hshorter] at h
    obtain ⟨others, hothers, rfl⟩ := Option.map_eq_some_iff.1 h
    rcases List.mem_cons.1 hpiece with rfl | hpiece
    · exact ⟨_, _, hstep⟩
    · exact ih hothers hpiece
  | case4 item items first rest hstep hshorter =>
    rw [Scan.all?, hstep] at h
    dsimp only at h
    rw [if_neg hshorter] at h
    cases h

namespace Token

/-- Names: a letter or an underscore, with letters, digits and underscores behind it. -/
def IsName (text : String) : Prop :=
  ∃ c cs, text.toList = c :: cs ∧ isNameStart c = true ∧ ∀ d ∈ cs, isNameChar d = true

theorem not_isDigit_of_isNameStart {c : Char} (h : isNameStart c = true) : c.isDigit = false := by
  refine Bool.eq_false_iff.2 fun hdigit ↦ ?_
  simp only [isNameStart, Char.isDigit, Bool.or_eq_true, Bool.and_eq_true, decide_eq_true_eq,
    beq_iff_eq, Char.le_def, ge_iff_le, UInt32.le_iff_toNat_le] at h hdigit
  rcases h with (⟨hlower, -⟩ | ⟨hlower, -⟩) | rfl
  · change 97 ≤ c.val.toNat at hlower
    change _ ∧ c.val.toNat ≤ 57 at hdigit
    omega
  · change 65 ≤ c.val.toNat at hlower
    change _ ∧ c.val.toNat ≤ 57 at hdigit
    omega
  · exact absurd hdigit (by decide)

/-- The token of a number is no name. -/
theorem number?_ne_name {text rest : List Char} {name : String} :
    number? text ≠ some (.name name, rest) := by
  intro h
  obtain ⟨⟨literal, rest'⟩, -, h⟩ := Option.bind_eq_some_iff.1 h
  dsimp only at h
  split at h
  · cases h
  · split at h
    · cases h
    · cases h

/-- A name at the front of a text is one. -/
theorem isName_of_nextPiece? {text rest : List Char} {name : String}
    (h : nextPiece? text = some (.token (.name name), rest)) : IsName name := by
  unfold nextPiece? at h
  split at h
  · cases h
  · cases h
  · obtain ⟨_, _, h⟩ := Option.map_eq_some_iff.1 h
    cases h
  · obtain ⟨_, _, h⟩ := Option.bind_eq_some_iff.1 h
    obtain ⟨_, _, h⟩ := Option.bind_eq_some_iff.1 h
    cases h
  · -- Every other token is told by its first character.
    split at h
    all_goals try cases h
    split at h
    · next hstart =>
      cases h
      exact ⟨_, _, String.toList_ofList, hstart, fun d hd ↦ List.mem_takeWhile_imp hd⟩
    · obtain ⟨⟨token, _⟩, hnumber, h⟩ := Option.map_eq_some_iff.1 h
      cases h
      exact (number?_ne_name hnumber).elim

/-- The tokens that are placed are among the pieces. -/
theorem mem_of_mem_placeAll {pieces : List Piece} {placed : Placed}
    (h : placed ∈ (placeAll pieces).1) : .token placed.token ∈ pieces := by
  induction pieces with
  | nil => cases h
  | cons piece pieces ih =>
    cases piece with
    | token token =>
      rcases List.mem_cons.1 h with rfl | h
      · exact List.mem_cons_self
      · exact List.mem_cons_of_mem _ (ih h)
    | comma => exact List.mem_cons_of_mem _ (ih h)
    | blank => exact List.mem_cons_of_mem _ (ih h)

/-- Joining dollar signs with names makes no names. -/
theorem exists_name_of_joinVariables? {tokens joined : List Placed}
    (h : joinVariables? tokens = some joined) {placed : Placed} (hplaced : placed ∈ joined)
    {text : String} (hname : placed.token = .name text) :
    ∃ other ∈ tokens, other.token = .name text := by
  induction tokens using joinVariables?.induct generalizing joined with
  | case1 =>
    cases h
    cases hplaced
  | case2 comma name comma' rest ih =>
    rw [joinVariables?] at h
    obtain ⟨others, hothers, rfl⟩ := Option.map_eq_some_iff.1 h
    rcases List.mem_cons.1 hplaced with rfl | hplaced
    · cases hname
    · obtain ⟨other, hother, hname⟩ := ih hothers hplaced
      exact ⟨other, List.mem_cons_of_mem _ (List.mem_cons_of_mem _ hother), hname⟩
  | case3 comma tokens hvariable =>
    rw [joinVariables?] at h
    · cases h
    · exact hvariable
  | case4 first tokens hvariable hdollar ih =>
    rw [joinVariables?] at h
    · obtain ⟨others, hothers, rfl⟩ := Option.map_eq_some_iff.1 h
      rcases List.mem_cons.1 hplaced with rfl | hplaced
      · exact ⟨_, List.mem_cons_self, hname⟩
      · obtain ⟨other, hother, hname⟩ := ih hothers hplaced
        exact ⟨other, List.mem_cons_of_mem _ hother, hname⟩
    · exact hvariable
    · exact hdollar

/-- The names in a document are names. -/
theorem isName_of_mem_readAll? {text name : String} {tokens : List Placed}
    (h : readAll? text = some tokens) {placed : Placed} (hplaced : placed ∈ tokens)
    (hname : placed.token = .name name) : IsName name := by
  obtain ⟨pieces, hpieces, h⟩ := Option.bind_eq_some_iff.1 h
  obtain ⟨other, hother, hname⟩ := exists_name_of_joinVariables? h hplaced hname
  obtain ⟨front, rest, hstep⟩ :=
    Scan.exists_step_of_mem_all? hpieces (mem_of_mem_placeAll hother)
  rw [hname] at hstep
  exact isName_of_nextPiece? hstep

/-- A name is a key that can be read back. -/
theorem IsName.legible {name : String} (h : IsName name) : (PathElement.key name).Legible := by
  obtain ⟨c, cs, htext, hstart, hchars⟩ := h
  refine ⟨?_, ?_, ?_⟩
  · rintro rfl
    cases htext
  · rw [htext]
    intro hslash
    rcases List.mem_cons.1 hslash with rfl | hslash
    · exact absurd hstart (by decide)
    · exact absurd (hchars _ hslash) (by decide)
  · refine Option.eq_none_iff_forall_ne_some.2 fun position hindex ↦ ?_
    obtain ⟨digits, hdigits, -, hall, -⟩ := PathElement.indexOfSegment?_eq_some_iff.1 hindex
    rw [htext] at hdigits
    rcases hdigits with rfl | hplus
    · have hdigit := hall c List.mem_cons_self
      rw [not_isDigit_of_isNameStart hstart] at hdigit
      cases hdigit
    · obtain ⟨rfl, -⟩ := List.cons.inj hplus
      exact absurd hstart (by decide)

end Token

/-! ### Paths -/

namespace Path

open PathElement (Legible)

/-- A path of legible elements is read back from its text. -/
theorem ofText_text {path : Path} (h : ∀ element ∈ path, element.Legible) :
    ofText (text path) = path := by
  have hsegments : segments (chars path) = [] :: path.map PathElement.segment :=
    segments_append_chars (List.not_mem_nil (a := '/')) fun element hmem ↦
      (h element hmem).slash_not_mem_segment
  have hnonempty : (path.map PathElement.segment).filter (!·.isEmpty)
      = path.map PathElement.segment := by
    refine List.filter_eq_self.2 fun segment hsegment ↦ ?_
    obtain ⟨element, hmem, rfl⟩ := List.mem_map.1 hsegment
    simpa using (h element hmem).segment_ne_nil
  rw [ofText, text, String.toList_ofList, ofChars, hsegments,
    List.filter_cons_of_neg (by simp), hnonempty, List.map_map]
  exact (List.map_congr_left fun element hmem ↦ (h element hmem).ofSegment_segment).trans
    (List.map_id path)

/-- The elements of a path that is read from a text are legible. -/
theorem legible_of_mem_ofText {text : String} {element : PathElement}
    (h : element ∈ ofText text) : element.Legible := by
  obtain ⟨segment, hsegment, rfl⟩ := List.mem_map.1 h
  obtain ⟨hmem, hne⟩ := List.mem_filter.1 hsegment
  exact PathElement.legible_ofSegment (by simpa using hne) (slash_not_mem_of_mem_segments hmem)

/-- **Paths can be read back from their texts.** Exactly the paths of legible elements are: indices
that fit a word, and keys that are not empty, hold no slash and cannot be read as an index. Paths
that were read from a text are among them, whatever the text. The names in a document, which are
the keys of its responses, are such keys. -/
theorem text_roundtrip :
    (∀ path : Path, ofText path.text = path ↔ ∀ element ∈ path, element.Legible) ∧
    (∀ text : String, ofText (ofText text).text = ofText text) ∧
    ∀ document tokens, Token.readAll? document = some tokens →
      ∀ placed ∈ tokens, ∀ name, placed.token = .name name → (PathElement.key name).Legible := by
  refine ⟨fun path ↦ ⟨fun h element hmem ↦ ?_, ofText_text⟩,
    fun text ↦ ofText_text fun element hmem ↦ legible_of_mem_ofText hmem,
    fun document tokens htokens placed hplaced name hname ↦ ?_⟩
  · rw [← h] at hmem
    exact legible_of_mem_ofText hmem
  · exact (Token.isName_of_mem_readAll? htokens hplaced hname).legible

/-- Empty segments, plus signs and leading zeros do not come back. -/
example : (ofText "//items/+03/-1/").text = "/items/3/-1" := by decide +kernel

end Path

end GraphCache
