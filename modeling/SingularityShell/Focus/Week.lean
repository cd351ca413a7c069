import Mathlib.Algebra.BigOperators.Group.Finset.Basic
import Mathlib.Algebra.Order.BigOperators.Group.Finset
import Mathlib.Data.Finset.Card
import Mathlib.Order.Interval.Finset.Nat
import SingularityShell.Focus.Model

/-!
# The week of a schedule

A schedule switches a focus mode on from its start on each of its days. What lasts past midnight
belongs to the day on which it has started.

## Main definitions

* `Focus.DateTime.minuteOfWeek` — a local time, counted from the beginning of Monday
* `Focus.FocusSchedule.Lies` — the minutes that are meant
* `Focus.timeAt` — the times of a week

## Main results

* `Focus.FocusSchedule.covers_iff` — the times that a schedule covers
* `Focus.FocusSchedule.card_lies` — the minutes of a week that are meant
* `Focus.FocusSchedule.covers_spec` — both for what `covers` says
-/

namespace SingularityShell

namespace Focus

structure DateTime.Valid (time : DateTime) : Prop where
  day : 1 ≤ time.dayOfWeek ∧ time.dayOfWeek ≤ 7
  hour : time.hour < 24
  minute : time.minute < 60

/-- A local time, counted from the beginning of Monday. -/
def DateTime.minuteOfWeek (time : DateTime) : ℤ :=
  (time.dayOfWeek - 1) * 1440 + (time.hour * 60 + time.minute)

/-- The times of a week. -/
def timeAt (m : ℕ) : DateTime where
  dayOfWeek := m / 1440 + 1
  hour := m % 1440 / 60
  minute := m % 60

theorem valid_timeAt {m : ℕ} (hm : m < 10080) : (timeAt m).Valid := by
  refine ⟨⟨?_, ?_⟩, ?_, ?_⟩
  · exact Nat.le_add_left 1 _
  · show m / 1440 + 1 ≤ 7
    omega
  · show m % 1440 / 60 < 24
    omega
  · exact Nat.mod_lt m (by decide)

theorem minuteOfWeek_timeAt (m : ℕ) : (timeAt m).minuteOfWeek = m := by
  rw [DateTime.minuteOfWeek, timeAt]
  push_cast
  omega

namespace FocusSchedule

/-- A schedule that is switched on, as the constructor makes it. -/
structure Proper (s : FocusSchedule) : Prop where
  enabled : s.enabled = true
  startMinute : 0 ≤ s.startMinute ∧ s.startMinute ≤ 1439
  endMinute : 0 ≤ s.endMinute ∧ s.endMinute ≤ 1439

/-- How long a schedule lasts, in minutes. -/
def length (s : FocusSchedule) : ℤ :=
  if s.startMinute = s.endMinute then 1440 else (s.endMinute - s.startMinute) % 1440

/-- The minute of a day at which a schedule begins. -/
def origin (s : FocusSchedule) : ℤ := if s.startMinute = s.endMinute then 0 else s.startMinute

/-- The minute of the week lies in an interval that begins on a chosen day. -/
def Lies (s : FocusSchedule) (m : ℤ) : Prop :=
  ∃ day : ℕ, (1 ≤ day ∧ day ≤ 7) ∧ s.hasDay day = true ∧
    (m - ((day - 1) * 1440 + s.origin)) % 10080 < s.length

/-- The days that are chosen. -/
def chosen (s : FocusSchedule) : Finset ℕ := (Finset.Icc 1 7).filter fun day => s.hasDay day = true

variable {s : FocusSchedule} {time : DateTime}

theorem Proper.length_bounds (h : s.Proper) : 0 < s.length ∧ s.length ≤ 1440 := by
  obtain ⟨-, hstart, hend⟩ := h
  rw [length]
  split_ifs with heq
  · omega
  · omega

theorem Proper.origin_bounds (h : s.Proper) : 0 ≤ s.origin ∧ s.origin ≤ 1439 := by
  rw [origin]
  split_ifs
  · omega
  · exact h.startMinute

/-! ### One moment -/

/-- An interval that begins on one day reaches no further than into the next. -/
theorem within_iff {today day : ℕ} {x o l : ℤ} (htoday : 1 ≤ today ∧ today ≤ 7)
    (hday : 1 ≤ day ∧ day ≤ 7) (hx : 0 ≤ x ∧ x < 1440) (ho : 0 ≤ o ∧ o < 1440) (hl : l ≤ 1440) :
    (((today : ℤ) - 1) * 1440 + x - ((day - 1) * 1440 + o)) % 10080 < l ↔
      day = today ∧ o ≤ x ∧ x - o < l ∨
        day = (if today = 1 then 7 else today - 1) ∧ x + 1440 - o < l := by
  split_ifs
  · omega
  · omega

theorem Lies.iff_days (h : s.Proper) (htime : time.Valid) {x : ℤ}
    (hx : x = time.hour * 60 + time.minute) : s.Lies time.minuteOfWeek ↔
      (s.hasDay time.dayOfWeek = true ∧ s.origin ≤ x ∧ x - s.origin < s.length) ∨
        s.hasDay (if time.dayOfWeek = 1 then 7 else time.dayOfWeek - 1) = true ∧
          x + 1440 - s.origin < s.length := by
  obtain ⟨hday, hhour, hminute⟩ := htime
  have hbounds : 0 ≤ x ∧ x < 1440 := by omega
  have horigin : 0 ≤ s.origin ∧ s.origin < 1440 := by
    have ho := h.origin_bounds
    omega
  have hwithin {day : ℕ} (hd : 1 ≤ day ∧ day ≤ 7) :=
    within_iff hday hd hbounds horigin h.length_bounds.2
  rw [Lies, DateTime.minuteOfWeek, ← hx]
  constructor
  · rintro ⟨day, hd, hhas, hlt⟩
    rcases (hwithin hd).mp hlt with ⟨rfl, hin⟩ | ⟨rfl, hin⟩
    · exact .inl ⟨hhas, hin⟩
    · exact .inr ⟨hhas, hin⟩
  · rintro (⟨hhas, hin⟩ | ⟨hhas, hin⟩)
    · exact ⟨time.dayOfWeek, hday, hhas, (hwithin hday).mpr (.inl ⟨rfl, hin⟩)⟩
    · have hd : 1 ≤ (if time.dayOfWeek = 1 then 7 else time.dayOfWeek - 1) ∧
          (if time.dayOfWeek = 1 then 7 else time.dayOfWeek - 1) ≤ 7 := by
        split_ifs
        · omega
        · omega
      exact ⟨_, hd, hhas, (hwithin hd).mpr (.inr ⟨rfl, hin⟩)⟩

theorem hasDay_of_days_zero (h : s.days = 0) (day : ℕ) : s.hasDay day = false := by
  rw [hasDay, h, Int32.zero_and]
  rfl

/-- The times that a schedule covers are those that are meant. -/
theorem covers_iff (h : s.Proper) (htime : time.Valid) :
    s.covers time = true ↔ s.Lies time.minuteOfWeek := by
  rw [Lies.iff_days h htime rfl, covers]
  obtain ⟨henabled, hstart, hend⟩ := h
  obtain ⟨hday, hhour, hminute⟩ := htime
  by_cases hdays : s.days = 0
  · rw [if_pos (.inr hdays)]
    simp [hasDay_of_days_zero hdays]
  rw [if_neg (by simp [henabled, hdays]), origin, length]
  dsimp only
  rcases lt_trichotomy s.startMinute s.endMinute with hlt | heq | hgt
  · rw [if_neg hlt.ne, if_pos hlt, if_neg hlt.ne, if_neg hlt.ne]
    simp only [Bool.and_eq_true, decide_eq_true_eq, and_assoc]
    constructor
    · rintro ⟨hhas, hle, hless⟩
      exact .inl ⟨hhas, hle, by omega⟩
    · rintro (⟨hhas, hle, hless⟩ | ⟨_, hless⟩)
      · exact ⟨hhas, hle, by omega⟩
      · omega
  · rw [if_pos heq, if_pos heq, if_pos heq]
    constructor
    · intro hhas
      exact .inl ⟨hhas, by omega, by omega⟩
    · rintro (⟨hhas, _⟩ | ⟨_, hless⟩)
      · exact hhas
      · omega
  · rw [if_neg hgt.ne', if_neg (by omega), if_neg hgt.ne', if_neg hgt.ne']
    by_cases hle : s.startMinute ≤ (time.hour * 60 + time.minute : ℤ)
    · rw [if_pos hle]
      constructor
      · intro hhas
        exact .inl ⟨hhas, hle, by omega⟩
      · rintro (⟨hhas, _⟩ | ⟨_, hless⟩)
        · exact hhas
        · omega
    · rw [if_neg hle, Bool.and_eq_true, decide_eq_true_eq]
      constructor
      · rintro ⟨hless, hhas⟩
        exact .inr ⟨hhas, by omega⟩
      · rintro (⟨_, hle', _⟩ | ⟨hhas, hless⟩)
        · exact absurd hle' hle
        · exact ⟨by omega, hhas⟩

/-! ### The week -/

/-- The minutes of the interval that begins on a day. -/
def minutesOf (s : FocusSchedule) (day : ℕ) : Finset ℕ :=
  (Finset.range s.length.toNat).image fun k => ((day - 1) * 1440 + s.origin.toNat + k) % 10080

theorem mem_minutesOf (h : s.Proper) {day m : ℕ} (hday : 1 ≤ day ∧ day ≤ 7) (hm : m < 10080) :
    m ∈ s.minutesOf day ↔ ((m : ℤ) - ((day - 1) * 1440 + s.origin)) % 10080 < s.length := by
  have hlength := h.length_bounds
  have horigin := h.origin_bounds
  obtain ⟨l, hl⟩ := Int.eq_ofNat_of_zero_le hlength.1.le
  obtain ⟨o, ho⟩ := Int.eq_ofNat_of_zero_le horigin.1
  simp only [minutesOf, Finset.mem_image, Finset.mem_range, hl, ho, Int.toNat_natCast]
  rw [hl] at hlength
  rw [ho] at horigin
  constructor
  · rintro ⟨k, hk, rfl⟩
    omega
  · intro hlt
    refine ⟨(((m : ℤ) - ((day - 1) * 1440 + o)) % 10080).toNat, ?_, ?_⟩
    · omega
    · omega

theorem card_minutesOf (h : s.Proper) (day : ℕ) : (s.minutesOf day).card = s.length.toNat := by
  have hlength := h.length_bounds
  rw [minutesOf, Finset.card_image_of_injOn, Finset.card_range]
  intro k hk k' hk' heq
  rw [Finset.coe_range, Set.mem_Iio] at hk hk'
  dsimp only at heq
  omega

/-- Intervals that begin on different days do not overlap. -/
theorem disjoint_minutesOf (h : s.Proper) {day day' : ℕ} (hday : 1 ≤ day ∧ day ≤ 7)
    (hday' : 1 ≤ day' ∧ day' ≤ 7) (hne : day ≠ day') :
    Disjoint (s.minutesOf day) (s.minutesOf day') := by
  have hlength := h.length_bounds
  rw [Finset.disjoint_left]
  intro m hm hm'
  obtain ⟨k, hk, rfl⟩ := Finset.mem_image.mp hm
  obtain ⟨k', hk', heq⟩ := Finset.mem_image.mp hm'
  rw [Finset.mem_range] at hk hk'
  omega

/-- The minutes of a week that are meant number the chosen days times their length. -/
theorem card_lies (h : s.Proper) (covered : ℕ → Bool)
    (hcovered : ∀ m < 10080, covered m = true ↔ s.Lies m) :
    ((Finset.range 10080).filter fun m => covered m = true).card =
      s.chosen.card * s.length.toNat := by
  have hunion : ((Finset.range 10080).filter fun m => covered m = true) =
      s.chosen.biUnion s.minutesOf := by
    ext m
    rw [Finset.mem_filter, Finset.mem_range, Finset.mem_biUnion]
    constructor
    · rintro ⟨hm, hlies⟩
      obtain ⟨day, hday, hhas, hlt⟩ := (hcovered m hm).mp hlies
      exact ⟨day, Finset.mem_filter.mpr ⟨Finset.mem_Icc.mpr hday, hhas⟩,
        (mem_minutesOf h hday hm).mpr hlt⟩
    · rintro ⟨day, hchosen, hmem⟩
      obtain ⟨hday, hhas⟩ := Finset.mem_filter.mp hchosen
      obtain ⟨k, _, rfl⟩ := Finset.mem_image.mp hmem
      have hm : ((day - 1) * 1440 + s.origin.toNat + k) % 10080 < 10080 :=
        Nat.mod_lt _ (by decide)
      exact ⟨hm, (hcovered _ hm).mpr ⟨day, Finset.mem_Icc.mp hday, hhas,
        (mem_minutesOf h (Finset.mem_Icc.mp hday) hm).mp hmem⟩⟩
  rw [hunion, Finset.card_biUnion, Finset.sum_const_nat fun day _ => card_minutesOf h day]
  intro day hday day' hday' hne
  exact disjoint_minutesOf h (Finset.mem_Icc.mp (Finset.mem_filter.mp hday).1)
    (Finset.mem_Icc.mp (Finset.mem_filter.mp hday').1) hne

/-- **The week of a schedule.** A schedule covers the times of the intervals that begin on its days,
and so many minutes of a week as the days have together. -/
theorem covers_spec (h : s.Proper) :
    (∀ time, time.Valid → (s.covers time = true ↔ s.Lies time.minuteOfWeek)) ∧
      ((Finset.range 10080).filter fun m => s.covers (timeAt m) = true).card =
        s.chosen.card * s.length.toNat := by
  refine ⟨fun time htime => covers_iff h htime, card_lies h (fun m => s.covers (timeAt m)) ?_⟩
  intro m hm
  rw [covers_iff h (valid_timeAt hm), minuteOfWeek_timeAt]

/-- Nights that begin on Friday, Saturday and Sunday. -/
def nights : FocusSchedule := { days := 0x70, startMinute := 1320, endMinute := 420 }

theorem covers_nights :
    (nights.covers ⟨1, 6, 59⟩ = true ↔ nights.Lies (DateTime.minuteOfWeek ⟨1, 6, 59⟩)) ∧
      nights.length = 540 := by
  have hproper : nights.Proper := ⟨rfl, by decide, by decide⟩
  exact ⟨(covers_spec hproper).1 _ ⟨by decide, by decide, by decide⟩, rfl⟩

end FocusSchedule

end Focus

end SingularityShell
