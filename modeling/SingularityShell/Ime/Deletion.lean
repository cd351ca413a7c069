import SingularityShell.Ime.Service

/-!
# Deletions of the engine

An engine asks for characters to be deleted by where they stand from the cursor. The client is told
how many bytes to delete on each side of the cursor, so that what is deleted always touches it.

## Main definitions

* `Ime.Service.Spans` — the characters that two counts of bytes stand for
* `Ime.Service.Obeys` — the characters that were asked for are deleted
* `Ime.Service.Deletable`

## Main results

* `Ime.Service.onEngineDelete_iff` — when the engine is obeyed
-/

namespace SingularityShell

namespace Ime

namespace Service

open Ascii Machine

/-! ### Characters -/

/-- A byte that continues a character. -/
def isContinuation (b : UInt8) : Bool := 128 ≤ b ∧ b < 192

/-- The cursor stands between two characters, or at an end. -/
structure OnBoundary (s : State) : Prop where
  cursor_le : s.cursor ≤ s.surrounding.length
  starts : ∀ b ∈ s.surrounding[s.cursor]?, isContinuation b = false

theorem flatten_characters (text : Text) : (characters text).flatten = text :=
  List.flatten_splitBy _ text

theorem characters_append {text text' : Text} (h : ∀ b ∈ text'.head?, isContinuation b = false) :
    characters (text ++ text') = characters text ++ characters text' :=
  List.splitBy_append fun _ _ b hb => h b hb

/-- The characters of a text are those before and those after the cursor. -/
theorem OnBoundary.characters_eq {s : State} (h : OnBoundary s) : characters s.surrounding =
    characters (beforeCursor s) ++ characters (s.surrounding.drop s.cursor) := by
  have hsplit : beforeCursor s ++ s.surrounding.drop s.cursor = s.surrounding :=
    List.take_append_drop ..
  rw [← characters_append, hsplit]
  rw [List.head?_drop]
  exact h.starts

theorem OnBoundary.charCount_eq {s : State} (h : OnBoundary s) : charCount s.surrounding =
    charCount (beforeCursor s) + charCount (s.surrounding.drop s.cursor) := by
  rw [charCount, h.characters_eq, List.length_append, charCount, charCount]

theorem indexOfNthChar_add_drop (n : ℕ) (text : Text) :
    indexOfNthChar n text + ((characters text).drop n).flatten.length = text.length := by
  rw [indexOfNthChar, ← List.length_append, ← List.flatten_append, List.take_append_drop,
    flatten_characters]

theorem indexOfNthChar_le (n : ℕ) (text : Text) : indexOfNthChar n text ≤ text.length := by
  have hsum := indexOfNthChar_add_drop n text
  omega

theorem indexOfNthChar_charCount (text : Text) : indexOfNthChar (charCount text) text =
    text.length := by
  rw [indexOfNthChar, charCount, List.take_length, flatten_characters]

/-- Every character has a byte. -/
theorem indexOfNthChar_succ {n : ℕ} {text : Text} (h : n < charCount text) :
    indexOfNthChar n text < indexOfNthChar (n + 1) text := by
  have hmem : (characters text)[n] ∈ characters text := List.getElem_mem h
  have hne : (characters text)[n] ≠ [] := List.ne_nil_of_mem_splitBy hmem
  have hpos := List.length_pos_of_ne_nil hne
  rw [indexOfNthChar, indexOfNthChar, List.take_succ_eq_append_getElem h, List.flatten_append,
    List.flatten_singleton, List.length_append]
  omega

theorem indexOfNthChar_lt {m n : ℕ} {text : Text} (h : m < n) (hn : n ≤ charCount text) :
    indexOfNthChar m text < indexOfNthChar n text := by
  induction n, h using Nat.le_induction with
  | base => exact indexOfNthChar_succ hn
  | succ n hle ih => exact (ih (by omega)).trans (indexOfNthChar_succ hn)

/-- Two characters do not start at one byte. -/
theorem indexOfNthChar_inj {m n : ℕ} {text : Text} (hm : m ≤ charCount text)
    (hn : n ≤ charCount text) (h : indexOfNthChar m text = indexOfNthChar n text) : m = n := by
  rcases lt_trichotomy m n with hlt | heq | hlt
  · exact absurd h (indexOfNthChar_lt hlt hn).ne
  · exact heq
  · exact absurd h (indexOfNthChar_lt hlt hm).ne'

theorem charCount_le (text : Text) : charCount text ≤ text.length := by
  have hle : ∀ n ≤ charCount text, n ≤ indexOfNthChar n text := by
    intro n
    induction n with
    | zero => exact fun _ => Nat.zero_le _
    | succ n ih =>
      intro hn
      have hsucc := indexOfNthChar_succ hn
      have hn' := ih (by omega)
      omega
  rw [← indexOfNthChar_charCount]
  exact hle _ le_rfl

theorem OnBoundary.indexOfNthChar_before {s : State} (h : OnBoundary s) {n : ℕ}
    (hn : n ≤ charCount (beforeCursor s)) :
    indexOfNthChar n s.surrounding = indexOfNthChar n (beforeCursor s) := by
  rw [indexOfNthChar, h.characters_eq, List.take_append_of_le_length hn, indexOfNthChar]

theorem OnBoundary.length_before {s : State} (h : OnBoundary s) :
    (beforeCursor s).length = s.cursor := by
  rw [beforeCursor, List.length_take, min_eq_left h.cursor_le]

theorem OnBoundary.indexOfNthChar_after {s : State} (h : OnBoundary s) (n : ℕ) :
    indexOfNthChar (charCount (beforeCursor s) + n) s.surrounding =
      s.cursor + indexOfNthChar n (s.surrounding.drop s.cursor) := by
  rw [indexOfNthChar, h.characters_eq, charCount, List.take_length_add_append, List.flatten_append,
    List.length_append, flatten_characters, h.length_before, indexOfNthChar]

theorem take_indexOfNthChar (n : ℕ) (text : Text) :
    text.take (indexOfNthChar n text) = ((characters text).take n).flatten := by
  have hsplit : ((characters text).take n).flatten ++ ((characters text).drop n).flatten =
      text := by
    rw [← List.flatten_append, List.take_append_drop, flatten_characters]
  calc text.take (indexOfNthChar n text)
      = (((characters text).take n).flatten ++ ((characters text).drop n).flatten).take
          ((characters text).take n).flatten.length := by rw [hsplit, indexOfNthChar]
    _ = ((characters text).take n).flatten := List.take_left

/-! ### What is deleted -/

/-- The text that the client deletes. -/
def deleted (s : State) (before after : UInt32) : Text :=
  (s.surrounding.take (s.cursor + after.toNat)).drop (s.cursor - before.toNat)

/-- The bytes to be deleted are those of the characters from `first` to `last`, without the last,
and the cursor stands among these. -/
structure Spans (s : State) (before after : UInt32) (first last : ℕ) : Prop where
  first_le : first ≤ charCount (beforeCursor s)
  le_last : charCount (beforeCursor s) ≤ last
  last_le : last ≤ charCount s.surrounding
  starts : indexOfNthChar first s.surrounding + before.toNat = s.cursor
  ends : s.cursor + after.toNat = indexOfNthChar last s.surrounding
  text : deleted s before after = (((characters s.surrounding).take last).drop first).flatten

/-- The engine asked for the character `i`. -/
def Asked (offset count : ℤ) (s : State) (i : ℕ) : Prop :=
  charCount (beforeCursor s) + offset ≤ i ∧ (i : ℤ) < charCount (beforeCursor s) + offset + count

/-- What was asked for touches the cursor. -/
def Touches (offset count : ℤ) : Prop := offset ≤ 0 ∧ 0 ≤ offset + count

/-- The characters that are deleted are those that were asked for, or some of these where the cursor
is not among them. -/
def Obeys (offset count : ℤ) (s : State) : Prop :=
  ∃ first last, Spans s (deleteBefore offset s) (deleteAfter offset count s) first last ∧
    (Touches offset count → ∀ i < charCount s.surrounding,
      first ≤ i ∧ i < last ↔ Asked offset count s i) ∧
    (¬ Touches offset count → ∀ i, first ≤ i → i < last → Asked offset count s i)

/-- The cursor is among the characters, and their end is an `int` or there is nothing behind the
cursor. They end before the cursor, and nothing is before it. They start behind it, and there is
nothing behind it, or their end is so large that it becomes small. -/
def Deletable (offset count : ℤ) (s : State) : Prop :=
  let before : ℤ := charCount (beforeCursor s)
  let after : ℤ := charCount (s.surrounding.drop s.cursor)
  (Touches offset count ∧ (before + offset + count < 2 ^ 31 ∨ after = 0)) ∨
  (offset + count < 0 ∧ before = 0) ∨
  (0 < offset ∧ before + offset < 2 ^ 31 ∧
    (after = 0 ∨ 2 ^ 31 ≤ before + offset + count ∧ before + offset + count - 2 ^ 32 ≤ before))

variable {s : State} {before after : UInt32} {first last first' last' : ℕ}

theorem Spans.of_bytes (hfirst : first ≤ charCount (beforeCursor s))
    (hle : charCount (beforeCursor s) ≤ last) (hlast : last ≤ charCount s.surrounding)
    (hstarts : indexOfNthChar first s.surrounding + before.toNat = s.cursor)
    (hends : s.cursor + after.toNat = indexOfNthChar last s.surrounding) :
    Spans s before after first last := by
  refine ⟨hfirst, hle, hlast, hstarts, hends, ?_⟩
  have hstart : s.cursor - before.toNat = indexOfNthChar first s.surrounding := by omega
  have hsplit : ((characters s.surrounding).take first).flatten ++
      (((characters s.surrounding).take last).drop first).flatten =
      ((characters s.surrounding).take last).flatten := by
    have hfirst' : (characters s.surrounding).take first =
        ((characters s.surrounding).take last).take first := by
      rw [List.take_take, min_eq_left (hfirst.trans hle)]
    rw [hfirst', ← List.flatten_append, List.take_append_drop]
  rw [deleted, hends, take_indexOfNthChar, hstart, indexOfNthChar, ← hsplit, List.drop_left]

/-- The characters are told by the bytes. -/
theorem Spans.unique (h : Spans s before after first last)
    (h' : Spans s before after first' last') : first = first' ∧ last = last' := by
  have hstart : indexOfNthChar first s.surrounding = indexOfNthChar first' s.surrounding := by
    have hstarts := h.starts
    have hstarts' := h'.starts
    omega
  have hfirst := h.first_le.trans (h.le_last.trans h.last_le)
  have hfirst' := h'.first_le.trans (h'.le_last.trans h'.last_le)
  exact ⟨indexOfNthChar_inj hfirst hfirst' hstart,
    indexOfNthChar_inj h.last_le h'.last_le (h.ends.symm.trans h'.ends)⟩

/-- The first character that is deleted. -/
def firstDeleted (offset : ℤ) (s : State) : ℕ :=
  (min (max 0 (wrap32 (charCount (beforeCursor s) + offset))) (charCount (beforeCursor s))).toNat

/-- The first character behind the cursor that is left. -/
def lastDeleted (offset count : ℤ) (s : State) : ℕ :=
  let before : ℤ := charCount (beforeCursor s)
  let endChars := wrap32 (before + offset + count)
  charCount (beforeCursor s) +
    (max 0 (min (endChars - before) (charCount (s.surrounding.drop s.cursor)))).toNat

theorem deleteBefore_spec (hs : OnBoundary s) (hlength : s.surrounding.length < 2 ^ 31)
    (offset : ℤ) :
    indexOfNthChar (firstDeleted offset s) s.surrounding + (deleteBefore offset s).toNat =
      s.cursor := by
  have hle : firstDeleted offset s ≤ charCount (beforeCursor s) := by
    rw [firstDeleted]
    omega
  have hindex := indexOfNthChar_le (firstDeleted offset s) (beforeCursor s)
  have hcursor := hs.cursor_le
  rw [hs.length_before] at hindex
  rw [hs.indexOfNthChar_before hle, deleteBefore, hs.length_before]
  change _ + (UInt32.ofNat (s.cursor - indexOfNthChar (firstDeleted offset s) _)).toNat = _
  rw [UInt32.toNat_ofNat_of_lt' (by rw [UInt32.size]; omega)]
  omega

theorem deleteAfter_spec (hs : OnBoundary s) (hlength : s.surrounding.length < 2 ^ 31)
    (offset count : ℤ) :
    s.cursor + (deleteAfter offset count s).toNat =
      indexOfNthChar (lastDeleted offset count s) s.surrounding := by
  have hends : wrap32 (wrap32 (charCount (beforeCursor s) + offset) + wrap32 count) =
      wrap32 (charCount (beforeCursor s) + offset + count) := wrap32_add_wrap32 _ _
  have hindex := fun n => indexOfNthChar_le n (s.surrounding.drop s.cursor)
  have hdrop : (s.surrounding.drop s.cursor).length ≤ s.surrounding.length := by
    rw [List.length_drop]
    omega
  rw [lastDeleted, hs.indexOfNthChar_after, deleteAfter, hends]
  by_cases hbehind : wrap32 (charCount (beforeCursor s) + offset + count) >
      charCount (beforeCursor s)
  · rw [if_pos hbehind, max_eq_right (by omega), UInt32.toNat_ofNat_of_lt']
    have hbound := hindex (min (wrap32 (charCount (beforeCursor s) + offset + count) -
      charCount (beforeCursor s)) (charCount (s.surrounding.drop s.cursor))).toNat
    rw [UInt32.size]
    omega
  · rw [if_neg hbehind, max_eq_left (by omega)]
    rfl

/-- What is deleted is always a row of characters. -/
theorem spans_deleted (hs : OnBoundary s) (hlength : s.surrounding.length < 2 ^ 31)
    (offset count : ℤ) : Spans s (deleteBefore offset s) (deleteAfter offset count s)
      (firstDeleted offset s) (lastDeleted offset count s) := by
  refine .of_bytes ?_ ?_ ?_ (deleteBefore_spec hs hlength offset)
    (deleteAfter_spec hs hlength offset count)
  · rw [firstDeleted]
    omega
  · rw [lastDeleted]
    omega
  · rw [hs.charCount_eq, lastDeleted]
    omega

/-- The engine is obeyed by the characters that the code selects, or by none. -/
theorem obeys_iff_deleted (hs : OnBoundary s) (hlength : s.surrounding.length < 2 ^ 31)
    (offset count : ℤ) : Obeys offset count s ↔
      (Touches offset count → ∀ i < charCount s.surrounding,
        firstDeleted offset s ≤ i ∧ i < lastDeleted offset count s ↔ Asked offset count s i) ∧
      (¬ Touches offset count → ∀ i,
        firstDeleted offset s ≤ i → i < lastDeleted offset count s → Asked offset count s i) := by
  have hspans := spans_deleted hs hlength offset count
  constructor
  · rintro ⟨first, last, hspans', h⟩
    obtain ⟨rfl, rfl⟩ := hspans.unique hspans'
    exact h
  · exact fun h => ⟨_, _, hspans, h⟩

section Machine

variable {offset count : ℤ} (hoffset : -2 ^ 31 ≤ offset ∧ offset < 2 ^ 31)
variable (hcount : 0 ≤ count ∧ count < 2 ^ 32) (hbefore : charCount (beforeCursor s) < 2 ^ 31)
include hoffset hbefore

theorem firstDeleted_eq (h : charCount (beforeCursor s) + offset < 2 ^ 31) :
    (firstDeleted offset s : ℤ) =
      min (max 0 (charCount (beforeCursor s) + offset)) (charCount (beforeCursor s)) := by
  rw [firstDeleted, wrap32_eq (by omega) h]
  omega

/-- A start that is too large becomes negative. -/
theorem firstDeleted_of_ge (h : 2 ^ 31 ≤ charCount (beforeCursor s) + offset) :
    firstDeleted offset s = 0 := by
  rw [firstDeleted, wrap32_of_ge h (by omega)]
  omega

include hcount

theorem lastDeleted_eq (h : charCount (beforeCursor s) + offset + count < 2 ^ 31) :
    (lastDeleted offset count s : ℤ) = charCount (beforeCursor s) +
      max 0 (min (offset + count) (charCount (s.surrounding.drop s.cursor))) := by
  rw [lastDeleted, wrap32_eq (by omega) h]
  omega

omit hoffset hbefore in
theorem lastDeleted_of_ge (hstart : charCount (beforeCursor s) + offset < 2 ^ 31)
    (h : 2 ^ 31 ≤ charCount (beforeCursor s) + offset + count) :
    (lastDeleted offset count s : ℤ) = charCount (beforeCursor s) +
      max 0 (min (offset + count - (2 ^ 32 : ℤ))
        (charCount (s.surrounding.drop s.cursor) : ℤ)) := by
  rw [lastDeleted, wrap32_of_ge h (by omega)]
  omega

/-- Characters around the cursor. -/
theorem touches_iff (hs : OnBoundary s) (h : Touches offset count) :
    (∀ i < charCount s.surrounding,
      firstDeleted offset s ≤ i ∧ i < lastDeleted offset count s ↔ Asked offset count s i) ↔
    (charCount (beforeCursor s) + offset + count < 2 ^ 31 ∨
      (charCount (s.surrounding.drop s.cursor) : ℤ) = 0) := by
  obtain ⟨hstart, hend⟩ := h
  have hall := hs.charCount_eq
  have hfirst := firstDeleted_eq hoffset hbefore (by omega)
  rcases lt_or_ge (charCount (beforeCursor s) + offset + count) (2 ^ 31 : ℤ) with hlt | hge
  · have hlast := lastDeleted_eq hoffset hcount hbefore hlt
    refine iff_of_true (fun i hi => ?_) (Or.inl hlt)
    rw [Asked]
    omega
  · have hlast := lastDeleted_of_ge hcount (by omega) hge
    constructor
    · intro h
      by_contra hbad
      -- the first character behind the cursor is asked for, and it is left
      have hcursor := h (charCount (beforeCursor s)) (by omega)
      rw [Asked] at hcursor
      omega
    · rintro hgood i hi
      rw [Asked]
      omega

/-- Characters that end before the cursor. -/
theorem ends_before_iff (h : offset + count < 0) :
    (∀ i, firstDeleted offset s ≤ i → i < lastDeleted offset count s → Asked offset count s i) ↔
    (charCount (beforeCursor s) : ℤ) = 0 := by
  have hfirst := firstDeleted_eq hoffset hbefore (by omega)
  have hlast := lastDeleted_eq hoffset hcount hbefore (by omega)
  constructor
  · intro h
    by_contra hbad
    -- the last character before the cursor is deleted
    have hcursor := h (charCount (beforeCursor s) - 1) (by omega) (by omega)
    rw [Asked] at hcursor
    omega
  · intro hnone i hi hi'
    omega

/-- Characters that start behind the cursor. -/
theorem starts_behind_iff (h : 0 < offset) :
    (∀ i, firstDeleted offset s ≤ i → i < lastDeleted offset count s → Asked offset count s i) ↔
    charCount (beforeCursor s) + offset < 2 ^ 31 ∧
      ((charCount (s.surrounding.drop s.cursor) : ℤ) = 0 ∨
        2 ^ 31 ≤ charCount (beforeCursor s) + offset + count ∧
        charCount (beforeCursor s) + offset + count - 2 ^ 32 ≤ charCount (beforeCursor s)) := by
  have hle : charCount (beforeCursor s) ≤ lastDeleted offset count s := by
    rw [lastDeleted]
    omega
  rcases lt_or_ge (charCount (beforeCursor s) + offset) (2 ^ 31 : ℤ) with hstart | hstart
  · have hfirst := firstDeleted_eq hoffset hbefore hstart
    have hcursor : (∀ i, firstDeleted offset s ≤ i → i < lastDeleted offset count s →
        Asked offset count s i) ↔ lastDeleted offset count s = charCount (beforeCursor s) := by
      constructor
      · intro h
        by_contra hbad
        -- the first character behind the cursor is deleted
        have hcursor := h (charCount (beforeCursor s)) (by omega) (by omega)
        rw [Asked] at hcursor
        omega
      · intro hnone i hi hi'
        omega
    rw [hcursor]
    rcases lt_or_ge (charCount (beforeCursor s) + offset + count) (2 ^ 31 : ℤ) with hlt | hge
    · have hlast := lastDeleted_eq hoffset hcount hbefore hlt
      omega
    · have hlast := lastDeleted_of_ge hcount hstart hge
      omega
  · have hfirst := firstDeleted_of_ge hoffset hbefore hstart
    refine iff_of_false (fun h => ?_) (by omega)
    have hcursor := h 0 (by omega) (by omega)
    rw [Asked] at hcursor
    omega

end Machine

/-- **When the engine is obeyed.** The client is told to delete a row of characters around the
cursor. They are the characters that the engine asked for exactly when these touch the cursor and
their end is an `int`, or when there is nothing that could be deleted in their place. -/
theorem onEngineDelete_iff {offset : ℤ} {count : UInt32} (hactive : s.active = true)
    (hs : OnBoundary s) (hlength : s.surrounding.length < 2 ^ 31)
    (hoffset : -2 ^ 31 ≤ offset ∧ offset < 2 ^ 31) :
    onEngineDelete offset count.toNat s =
      imeReplace (deleteBefore offset s) (deleteAfter offset count.toNat s) [] s ∧
    (∃ first last, Spans s (deleteBefore offset s) (deleteAfter offset count.toNat s) first last) ∧
    (Obeys offset count.toNat s ↔ Deletable offset count.toNat s) := by
  refine ⟨if_neg (by simp [hactive]), ⟨_, _, spans_deleted hs hlength offset count.toNat⟩, ?_⟩
  have hcount : 0 ≤ (count.toNat : ℤ) ∧ (count.toNat : ℤ) < 2 ^ 32 := by
    have hlt := count.toNat_lt
    omega
  have hbefore : charCount (beforeCursor s) < 2 ^ 31 := by
    have hle := charCount_le (beforeCursor s)
    have hcursor := hs.cursor_le
    rw [hs.length_before] at hle
    omega
  rw [obeys_iff_deleted hs hlength, Deletable]
  by_cases htouches : Touches offset count.toNat
  · have hno : ¬ offset + count.toNat < 0 ∧ ¬ 0 < offset := by
      obtain ⟨hstart, hend⟩ := htouches
      omega
    simp only [htouches, hno.1, hno.2, true_and, false_and, or_false, not_true_eq_false,
      false_imp_iff, true_imp_iff, and_true]
    exact touches_iff hoffset hcount hbefore hs htouches
  · simp only [htouches, false_and, false_or, false_imp_iff, not_false_eq_true, true_imp_iff,
      true_and]
    rw [Touches, not_and_or, not_le, not_le] at htouches
    rcases htouches with hbehind | hends
    · rw [starts_behind_iff hoffset hcount hbefore hbehind]
      omega
    · rw [ends_before_iff hoffset hcount hbefore hends]
      omega

/-- A text of letters in one byte and in two, with the cursor behind the second. -/
def umlauts : State where
  active := true
  surrounding := [97, 0xc3, 0xa4, 0xc3, 0xb6, 98]
  cursor := 3

theorem onBoundary_umlauts : OnBoundary umlauts := ⟨by decide, by decide +kernel⟩

/-- One letter on each side of the cursor. -/
theorem obeys_umlauts : deleteBefore (-1) umlauts = 2 ∧ deleteAfter (-1) 2 umlauts = 2 ∧
    Obeys (-1) 2 umlauts :=
  ⟨by decide, by decide +kernel,
    (@onEngineDelete_iff umlauts (-1) 2 rfl onBoundary_umlauts (by decide) (by decide)).2.2.mpr
      (Or.inl ⟨⟨by decide, by decide +kernel⟩, Or.inl (by decide)⟩)⟩

/-- **Both letters are deleted.** The engine asked for the first of the two that are before the
cursor. -/
theorem not_obeys_umlauts : onEngineDelete (-2) 1 umlauts = imeReplace 3 0 [] umlauts ∧
    ¬ Obeys (-2) 1 umlauts := by
  refine ⟨rfl, fun h => ?_⟩
  have hno : ¬ Touches (-2) 1 := fun htouches => absurd htouches.2 (by decide)
  have hasked := ((obeys_iff_deleted onBoundary_umlauts (by decide) _ _).mp h).2 hno
  have hlast := hasked 1 (by decide) (by decide)
  exact absurd hlast.2 (by decide)

end Service

end Ime

end SingularityShell
