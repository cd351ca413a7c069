import SingularityShell.Wallpaper.Saved

/-!
# Times that are read

What `parse_clock` makes of a text. The parts of a time may have any number of digits, and a part is
cut to 32 bits before it is compared with its limit: what is left of a large number can be small or
negative.

## Main definitions

* `Wallpaper.Reads` — a text is a time, with the numbers its parts stand for
* `Wallpaper.AsWritten` — the result is the time that is written, or there is none
* `Wallpaper.Regular` — no part gets below its limit by being cut

## Main results

* `Wallpaper.parseClock_of_reads` — the result in terms of the cut numbers
* `Wallpaper.parseClock_asWritten_iff` — the headline: exactly the regular texts are read as written
-/

namespace SingularityShell

namespace Wallpaper

open Ascii Machine Numeral

/-! ### What is meant -/

/-- A row of digits. -/
def IsNumber (part : Text) : Prop := part ≠ [] ∧ ∀ b ∈ part, isDigit b = true

/-- The text is a time, with the numbers for the hours, the minutes and the seconds. -/
inductive Reads (text : Text) : ℕ → ℕ → ℕ → Prop
  | short {hours minutes : Text} (hhours : IsNumber hours) (hminutes : IsNumber minutes)
      (htext : strip text = hours ++ 58 :: minutes) :
      Reads text (value hours) (value minutes) 0
  | long {hours minutes seconds : Text} (hhours : IsNumber hours) (hminutes : IsNumber minutes)
      (hseconds : IsNumber seconds)
      (htext : strip text = hours ++ 58 :: (minutes ++ 58 :: seconds)) :
      Reads text (value hours) (value minutes) (value seconds)

/-- The numbers are those of a time of the day. -/
def InDay (h m s : ℕ) : Prop := h < 24 ∧ m < 60 ∧ s < 60

/-- The result is the time that is written, or that there is none. -/
structure AsWritten (text : Text) : Prop where
  time : ∀ h m s, Reads text h m s → InDay h m s → parseClock text = h * 3600 + m * 60 + s
  other : (¬ ∃ h m s, Reads text h m s ∧ InDay h m s) → parseClock text = -1
  range : parseClock text = -1 ∨ 0 ≤ parseClock text ∧ parseClock text < day

/-- The parts of a time are below their limits, or one of them is not after it was cut. The cut
numbers may also add up to the result for no time. -/
def Regular (text : Text) : Prop :=
  ∀ h m s, Reads text h m s → InDay h m s ∨ (24 ≤ cut h ∨ 60 ≤ cut m ∨ 60 ≤ cut s) ∨
    wrap32 (cut h * 3600 + cut m * 60 + cut s) = -1

/-! ### Parts -/

theorem splitOn_number {part : Text} (h : IsNumber part) : part.splitOn 58 = [part] :=
  List.splitOn_eq_singleton (colon_notMem h.2)

theorem splitOn_number_cons {part : Text} (h : IsNumber part) (rest : Text) :
    (part ++ 58 :: rest).splitOn 58 = part :: rest.splitOn 58 :=
  List.splitOn_append_cons_self_of_not_mem (colon_notMem h.2) rest

/-- A text is a time with one row of numbers at most. -/
theorem Reads.unique {text : Text} {h m s h' m' s' : ℕ} (hr : Reads text h m s)
    (hr' : Reads text h' m' s') : h = h' ∧ m = m' ∧ s = s' := by
  have key : ∀ {text : Text} {h m s : ℕ}, Reads text h m s →
      ((strip text).splitOn 58).map value = [h, m] ∧ s = 0 ∨
        ((strip text).splitOn 58).map value = [h, m, s] := by
    rintro text h m s (⟨hh, hm, htext⟩ | ⟨hh, hm, hs, htext⟩)
    · left
      rw [htext, splitOn_number_cons hh, splitOn_number hm]
      exact ⟨rfl, rfl⟩
    · right
      rw [htext, splitOn_number_cons hh, splitOn_number_cons hm, splitOn_number hs]
      rfl
  rcases key hr with ⟨hparts, rfl⟩ | hparts <;> rcases key hr' with ⟨hparts', rfl⟩ | hparts' <;>
    rw [hparts] at hparts' <;> simp_all

theorem parseParts_number {part : Text} (h : IsNumber part) (parts : List Text) (limit unit : ℤ)
    (units : List (ℤ × ℤ)) (total : ℤ) : parseParts (part :: parts) ((limit, unit) :: units) total =
      if limit ≤ cut (value part) then -1
      else parseParts parts units (wrap32 (total + wrap32 (cut (value part) * unit))) := by
  have hnumber : ¬ (part = [] ∨ ¬ part.all isDigit = true) := by
    rintro (hnil | hdigits)
    · exact h.1 hnil
    · exact hdigits (List.all_eq_true.mpr h.2)
  rw [parseParts, if_neg hnumber, atoi_digits h.1 h.2]

/-- What is no number ends the loop. -/
theorem parseParts_other {part : Text} (h : ¬ IsNumber part) (parts : List Text)
    (units : List (ℤ × ℤ)) (total : ℤ) : parseParts (part :: parts) units total = -1 := by
  have hother : part = [] ∨ ¬ part.all isDigit = true := by
    by_contra hnumber
    rw [not_or, not_not] at hnumber
    exact h ⟨hnumber.1, List.all_eq_true.mp hnumber.2⟩
  cases units with
  | nil => rfl
  | cons u units =>
    obtain ⟨limit, unit⟩ := u
    rw [parseParts, if_pos hother]

/-- **The result in terms of the cut numbers.** -/
theorem parseClock_of_reads {text : Text} {h m s : ℕ} (hr : Reads text h m s) :
    parseClock text = if 24 ≤ cut h ∨ 60 ≤ cut m ∨ 60 ≤ cut s then -1
      else wrap32 (cut h * 3600 + cut m * 60 + cut s) := by
  have hcut : cut 0 = 0 := by decide
  have hne : ∀ hours rest : Text, hours ++ 58 :: rest ≠ [] := fun hours rest =>
    List.append_ne_nil_of_right_ne_nil _ (List.cons_ne_nil _ _)
  rcases hr with @⟨hours, minutes, hh, hm, htext⟩ | @⟨hours, minutes, seconds, hh, hm, hs, htext⟩
  · rw [parseClock, htext, splitColon, if_neg (hne _ _), splitOn_number_cons hh, splitOn_number hm,
      if_neg (by simp), parseParts_number hh, parseParts_number hm, hcut, parseParts]
    by_cases hhours : 24 ≤ cut (value hours)
    · rw [if_pos hhours, if_pos (Or.inl hhours)]
    · rw [if_neg hhours]
      by_cases hminutes : 60 ≤ cut (value minutes)
      · rw [if_pos hminutes, if_pos (Or.inr (Or.inl hminutes))]
      · rw [if_neg hminutes, if_neg (by omega)]
        simp only [Int.zero_add, Int.add_zero, wrap32_wrap32, wrap32_add_wrap32]
  · rw [parseClock, htext, splitColon, if_neg (hne _ _), splitOn_number_cons hh,
      splitOn_number_cons hm, splitOn_number hs, if_neg (by simp), parseParts_number hh,
      parseParts_number hm, parseParts_number hs, parseParts]
    by_cases hhours : 24 ≤ cut (value hours)
    · rw [if_pos hhours, if_pos (Or.inl hhours)]
    · rw [if_neg hhours]
      by_cases hminutes : 60 ≤ cut (value minutes)
      · rw [if_pos hminutes, if_pos (Or.inr (Or.inl hminutes))]
      · rw [if_neg hminutes]
        by_cases hseconds : 60 ≤ cut (value seconds)
        · rw [if_pos hseconds, if_pos (Or.inr (Or.inr hseconds))]
        · rw [if_neg hseconds, if_neg (by omega)]
          simp only [Int.zero_add, Int.mul_one, wrap32_wrap32, wrap32_add_wrap32]

/-- A text that is no time has no result. -/
theorem parseClock_of_not_reads {text : Text} (h : ¬ ∃ h m s, Reads text h m s) :
    parseClock text = -1 := by
  obtain ⟨parts, hparts⟩ : ∃ parts, splitColon (strip text) = parts := ⟨_, rfl⟩
  rw [parseClock, hparts]
  split_ifs with hcount
  · rfl
  have hjoin : [58].intercalate parts = strip text := by
    rw [← hparts, splitColon]
    split_ifs with hnil
    · rw [hnil]
      rfl
    · exact List.intercalate_splitOn 58
  rcases parts with _ | ⟨hours, _ | ⟨minutes, _ | ⟨seconds, _ | ⟨part, parts⟩⟩⟩⟩
  · exact absurd (Or.inl (by simp)) hcount
  · exact absurd (Or.inl (by simp)) hcount
  · by_cases hh : IsNumber hours
    · rw [parseParts_number hh]
      by_cases hm : IsNumber minutes
      · refine absurd ⟨_, _, _, Reads.short hh hm ?_⟩ h
        rw [← hjoin]
        simp [List.intercalate]
      · rw [parseParts_other hm, ite_self]
    · exact parseParts_other hh _ _ _
  · by_cases hh : IsNumber hours
    · rw [parseParts_number hh]
      by_cases hm : IsNumber minutes
      · rw [parseParts_number hm]
        by_cases hs : IsNumber seconds
        · refine absurd ⟨_, _, _, Reads.long hh hm hs ?_⟩ h
          rw [← hjoin]
          simp [List.intercalate]
        · rw [parseParts_other hs, ite_self, ite_self]
      · rw [parseParts_other hm, ite_self]
    · exact parseParts_other hh _ _ _
  · exact absurd (Or.inr (by simp)) hcount

/-! ### Results -/

/-- A time of the day is read. -/
theorem parseClock_of_inDay {text : Text} {h m s : ℕ} (hr : Reads text h m s) (hday : InDay h m s) :
    parseClock text = h * 3600 + m * 60 + s := by
  obtain ⟨hh, hm, hs⟩ := hday
  rw [parseClock_of_reads hr, cut_of_lt (by omega), cut_of_lt (by omega), cut_of_lt (by omega),
    if_neg (by omega), wrap32_eq (by omega) (by omega)]

/-- **What was written is read**, for every time: as a time of the day in whole minutes. -/
theorem parseClock_formatClock_emod (t : ℤ) : parseClock (formatClock t) = t % day / 60 * 60 := by
  have hemod : ∀ t : ℤ, (t.tmod day + day).tmod day = t % day := by
    intro t
    have hlow := Int.lt_tmod_of_pos t (show (0 : ℤ) < day by decide)
    rw [Int.tmod_eq_emod_of_nonneg (by omega), Int.add_emod_right, Int.tmod_def,
      Int.sub_mul_emod_self_left]
  have htext : formatClock t = formatClock (t % day) := by
    rw [formatClock, formatClock, hemod, hemod, Int.emod_emod_of_dvd _ (dvd_refl _)]
  have hnonneg : 0 ≤ t % day := Int.emod_nonneg _ (by decide)
  rw [htext, parseClock_formatClock hnonneg, Int.emod_emod_of_dvd _ (dvd_refl _)]

/-- **Exactly the regular texts are read as they are written**, and every time that was written is
read. -/
theorem parseClock_asWritten_iff (t : ℤ) (text : Text) :
    parseClock (formatClock t) = t % day / 60 * 60 ∧ (AsWritten text ↔ Regular text) := by
  refine ⟨parseClock_formatClock_emod t, fun hw h m s hr => ?_, fun hreg => ?_⟩
  · by_cases hday : InDay h m s
    · exact Or.inl hday
    right
    have hnone : ¬ ∃ h m s, Reads text h m s ∧ InDay h m s := by
      rintro ⟨h', m', s', hr', hday'⟩
      obtain ⟨rfl, rfl, rfl⟩ := hr.unique hr'
      exact hday hday'
    have hresult := hw.other hnone
    rw [parseClock_of_reads hr] at hresult
    by_cases hlimit : 24 ≤ cut h ∨ 60 ≤ cut m ∨ 60 ≤ cut s
    · exact Or.inl hlimit
    · rw [if_neg hlimit] at hresult
      exact Or.inr hresult
  · have hother : (¬ ∃ h m s, Reads text h m s ∧ InDay h m s) → parseClock text = -1 := by
      intro hnone
      by_cases hreads : ∃ h m s, Reads text h m s
      · obtain ⟨h, m, s, hr⟩ := hreads
        rw [parseClock_of_reads hr]
        rcases hreg h m s hr with hday | hlimit | hsum
        · exact absurd ⟨h, m, s, hr, hday⟩ hnone
        · exact if_pos hlimit
        · rw [hsum, ite_self]
      · exact parseClock_of_not_reads hreads
    refine ⟨fun h m s hr hday => parseClock_of_inDay hr hday, hother, ?_⟩
    by_cases hday : ∃ h m s, Reads text h m s ∧ InDay h m s
    · obtain ⟨h, m, s, hr, hday⟩ := hday
      right
      rw [parseClock_of_inDay hr hday, day]
      obtain ⟨hh, hm, hs⟩ := hday
      omega
    · exact Or.inl (hother hday)

/-- The hours are `2^32`, of which nothing is left: the text is read as midnight. -/
theorem not_asWritten_large : ¬ AsWritten (ofString "4294967296:00") := by
  intro h
  have hresult : parseClock (ofString "4294967296:00") = 0 := by decide +kernel
  have hvalue : value (ofString "4294967296") = 4294967296 := by decide +kernel
  have hreads : Reads (ofString "4294967296:00") 4294967296 0 0 := by
    have hshort : Reads (ofString "4294967296:00") (value (ofString "4294967296"))
        (value (ofString "00")) 0 :=
      .short ⟨by decide, by decide +kernel⟩ ⟨by decide, by decide +kernel⟩ (by decide +kernel)
    rwa [hvalue] at hshort
  have hnone := h.other (by
    rintro ⟨h', m', s', hr, hday, -⟩
    obtain ⟨rfl, -, -⟩ := hreads.unique hr
    omega)
  rw [hresult] at hnone
  exact absurd hnone (by decide)

end Wallpaper

end SingularityShell
