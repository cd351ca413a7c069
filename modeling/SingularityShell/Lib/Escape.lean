import SingularityShell.Lib.Utf8

/-!
# Texts on one line

A text is written on one line with a backslash before every backslash and in place of every line
feed, and read back.

## Main definitions

* `Escape.escape`, `Escape.unescape`

## Main results

* `Escape.unescape_escape` — a text that was written is read
* `Escape.strip_unescape` — so it is, up to blanks, when the line is stripped in between
-/

namespace SingularityShell

namespace Escape

open Ascii Utf8

/-- How a byte is written. -/
def piece (b : UInt8) : Text := if b = 92 then [92, 92] else if b = 10 then [92, 110] else [b]

def escape (text : Text) : Text := text.flatMap piece

/-- The reader, which may have a backslash behind it. -/
def unescapeFrom : Bool → Text → Text
  | _, [] => []
  | true, b :: text => (if b = 110 then 10 else b) :: unescapeFrom false text
  | false, b :: text => if b = 92 then unescapeFrom true text else b :: unescapeFrom false text

/-- A backslash at the end is dropped. -/
def unescape (text : Text) : Text := unescapeFrom false text

theorem piece_cases (b : UInt8) :
    (b = 92 ∧ piece b = [92, 92]) ∨ (b = 10 ∧ piece b = [92, 110]) ∨
      (b ≠ 92 ∧ b ≠ 10 ∧ piece b = [b]) := by
  by_cases hslash : b = 92
  · exact Or.inl ⟨hslash, if_pos hslash⟩
  · by_cases hline : b = 10
    · exact Or.inr (Or.inl ⟨hline, by rw [piece, if_neg hslash, if_pos hline]⟩)
    · exact Or.inr (Or.inr ⟨hslash, hline, by rw [piece, if_neg hslash, if_neg hline]⟩)

theorem escape_cons (b : UInt8) (text : Text) : escape (b :: text) = piece b ++ escape text :=
  List.flatMap_cons

theorem escape_append (text text' : Text) : escape (text ++ text') = escape text ++ escape text' :=
  List.flatMap_append

theorem unescape_escape (text : Text) : unescape (escape text) = text := by
  induction text with
  | nil => rfl
  | cons b text ih =>
    rw [unescape] at ih ⊢
    rw [escape_cons]
    rcases piece_cases b with ⟨rfl, hpiece⟩ | ⟨rfl, hpiece⟩ | ⟨hslash, -, hpiece⟩
    · rw [hpiece]
      exact congrArg (List.cons 92) ih
    · rw [hpiece]
      exact congrArg (List.cons 10) ih
    · rw [hpiece, List.singleton_append, unescapeFrom, if_neg hslash, ih]

theorem newline_notMem_escape (text : Text) : 10 ∉ escape text := by
  rw [escape, List.mem_flatMap]
  rintro ⟨b, -, hb⟩
  rcases piece_cases b with ⟨-, hpiece⟩ | ⟨-, hpiece⟩ | ⟨-, hline, hpiece⟩
  · simp [hpiece] at hb
  · simp [hpiece] at hb
  · rw [hpiece, List.mem_singleton] at hb
    exact hline hb.symm

theorem isString_escape {text : Text} (h : IsString text) : IsString (escape text) := by
  refine ⟨fun h0 => ?_, validateFrom_flatMap (fun b hb c hc => ?_) (fun b hb => ?_) (by simp) h.2⟩
  · obtain ⟨b, hb, h0⟩ := List.mem_flatMap.mp h0
    rcases piece_cases b with ⟨-, hpiece⟩ | ⟨-, hpiece⟩ | ⟨-, -, hpiece⟩
    · simp [hpiece] at h0
    · simp [hpiece] at h0
    · rw [hpiece, List.mem_singleton] at h0
      exact h.1 (h0 ▸ hb)
  · rcases piece_cases b with ⟨-, hpiece⟩ | ⟨-, hpiece⟩ | ⟨-, -, hpiece⟩
    · rw [hpiece] at hc
      rcases List.mem_cons.mp hc with rfl | hc
      · decide
      · rw [List.mem_singleton.mp hc]
        decide
    · rw [hpiece] at hc
      rcases List.mem_cons.mp hc with rfl | hc
      · decide
      · rw [List.mem_singleton.mp hc]
        decide
    · rw [hpiece, List.mem_singleton] at hc
      rwa [hc]
  · rcases piece_cases b with ⟨rfl, -⟩ | ⟨rfl, -⟩ | ⟨-, -, hpiece⟩
    · exact absurd (by decide) hb
    · exact absurd (by decide) hb
    · exact hpiece

/-- A blank that is written as it is. -/
def isPlainSpace (b : UInt8) : Bool := isSpace b && b ≠ 10

theorem piece_of_isPlainSpace {b : UInt8} (h : isPlainSpace b = true) :
    piece b = [b] ∧ isSpace b = true := by
  rw [isPlainSpace, Bool.and_eq_true, decide_eq_true_eq] at h
  refine ⟨?_, h.1⟩
  rcases piece_cases b with ⟨rfl, -⟩ | ⟨rfl, -⟩ | ⟨-, -, hpiece⟩
  · exact absurd h.1 (by decide)
  · exact absurd rfl h.2
  · exact hpiece

theorem escape_of_isPlainSpace {text : Text} (h : ∀ b ∈ text, isPlainSpace b = true) :
    escape text = text := by
  induction text with
  | nil => rfl
  | cons b text ih =>
    rw [escape_cons, (piece_of_isPlainSpace (h b List.mem_cons_self)).1, List.singleton_append,
      ih fun c hc => h c (List.mem_cons_of_mem _ hc)]

/-- Any other byte is written without a blank at its ends. -/
theorem piece_of_not {b : UInt8} (h : isPlainSpace b = false) : (∃ c tail, piece b = c :: tail ∧
    isSpace c = false) ∧ ∃ head c, piece b = head ++ [c] ∧ isSpace c = false := by
  rcases piece_cases b with ⟨-, hpiece⟩ | ⟨-, hpiece⟩ | ⟨-, hline, hpiece⟩
  · exact ⟨⟨92, [92], hpiece, by decide⟩, [92], 92, hpiece, by decide⟩
  · exact ⟨⟨92, [110], hpiece, by decide⟩, [92], 110, hpiece, by decide⟩
  · have hspace : isSpace b = false := by
      rw [isPlainSpace, decide_eq_true hline, Bool.and_true] at h
      exact h
    exact ⟨⟨b, [], hpiece, hspace⟩, [], b, hpiece, hspace⟩

/-- A text is plain blanks around one that has none at its ends. -/
theorem exists_trim (text : Text) : ∃ before core after, text = before ++ core ++ after ∧
    (∀ b ∈ before, isPlainSpace b = true) ∧ (∀ b ∈ after, isPlainSpace b = true) ∧
    (∀ b tail, core = b :: tail → isPlainSpace b = false) ∧
    ∀ head b, core = head ++ [b] → isPlainSpace b = false := by
  obtain ⟨rest, hrest⟩ : ∃ rest, rest = text.dropWhile isPlainSpace := ⟨_, rfl⟩
  have hsplit : rest.rdropWhile isPlainSpace ++ rest.rtakeWhile isPlainSpace = rest :=
    List.rdropWhile_append_rtakeWhile ..
  refine ⟨text.takeWhile isPlainSpace, rest.rdropWhile isPlainSpace,
    rest.rtakeWhile isPlainSpace, ?_, fun b hb => ?_, fun b hb => ?_, fun b tail hcore => ?_,
    fun head b hcore => ?_⟩
  · rw [List.append_assoc, hsplit, hrest, List.takeWhile_append_dropWhile]
  · exact List.mem_takeWhile_imp hb
  · exact List.mem_rtakeWhile_imp hb
  · have hhead := List.head?_dropWhile_not isPlainSpace text
    rw [← hrest, ← hsplit, hcore] at hhead
    exact hhead
  · have hne : rest.rdropWhile isPlainSpace ≠ [] := by
      rw [hcore]
      exact List.concat_ne_nil b head
    have hlast := List.rdropWhile_last_not _ _ hne
    simp only [hcore, List.getLast_append_singleton, Bool.not_eq_true] at hlast
    exact hlast

theorem strip_escape {core : Text} (hhead : ∀ b tail, core = b :: tail → isPlainSpace b = false)
    (hlast : ∀ head b, core = head ++ [b] → isPlainSpace b = false) :
    strip (escape core) = escape core := by
  rcases List.eq_nil_or_concat' core with rfl | ⟨head, last, hcore⟩
  · rfl
  · obtain ⟨first, tail, hfirst⟩ : ∃ first tail, core = first :: tail :=
      List.exists_cons_of_ne_nil (by simp [hcore])
    obtain ⟨⟨c, row, hpiece, hc⟩, -⟩ := piece_of_not (hhead first tail hfirst)
    obtain ⟨-, row', d, hpiece', hd⟩ := piece_of_not (hlast head last hcore)
    have hstart : (escape core).dropWhile isSpace = escape core := by
      rw [hfirst, escape_cons, hpiece, List.cons_append]
      exact List.dropWhile_cons_of_neg (by simp [hc])
    have hend : (escape core).rdropWhile isSpace = escape core := by
      have hsingle : escape [last] = piece last := by
        rw [escape_cons]
        exact List.append_nil _
      rw [hcore, escape_append, hsingle, hpiece', ← List.append_assoc]
      exact List.rdropWhile_concat_neg _ _ _ (by simp [hd])
    rw [strip, hstart, hend]

/-- **The line may be stripped.** A text that is read from its line without blanks at the ends is
the one that was written, but for blanks at its ends. -/
theorem strip_unescape (text : Text) : strip (unescape (strip (escape text))) = strip text := by
  obtain ⟨before, core, after, rfl, hbefore, hafter, hhead, hlast⟩ := exists_trim text
  have hb : ∀ b ∈ before, isSpace b = true := fun b h => (piece_of_isPlainSpace (hbefore b h)).2
  have ha : ∀ b ∈ after, isSpace b = true := fun b h => (piece_of_isPlainSpace (hafter b h)).2
  rw [escape_append, escape_append, escape_of_isPlainSpace hbefore, escape_of_isPlainSpace hafter,
    strip_append hb ha, strip_escape hhead hlast, unescape_escape, strip_append hb ha]

end Escape

end SingularityShell
