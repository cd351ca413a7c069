import Mathlib.Algebra.Group.Nat.Defs
import Mathlib.Order.Bounds.Basic
import SingularityShell.Wallpaper.Model

/-!
# The segment of a moment

A cycle is a list of segments that follow each other, over and over. `Wallpaper.evaluateCycle`
finds the segment that an offset falls in, and how long a still picture stays.

## Main definitions

* `Wallpaper.startsFrom` — the starts that a timed background gives its segments
* `Wallpaper.Consecutive` — the segments follow each other
* `Wallpaper.Holds` — a segment is the one of an offset
* `Wallpaper.Representable` — the sums that are made for an offset fit in 64 bits

## Main results

* `Wallpaper.evaluateCycle_spec` — the segment of an offset is found, and when it ends
-/

namespace SingularityShell

namespace Wallpaper

open Ascii Binary64 Machine

/-! ### Cycles -/

/-- The starts that `parse_timed_xml` gives to the segments: each at the end of the one before. -/
def startsFrom (offset : ℤ) : List Segment → List Segment
  | [] => []
  | s :: segs => { s with start := offset } :: startsFrom (wrap64 (offset + s.duration)) segs

/-- The length of a cycle. -/
def total (segs : List Segment) : ℤ := (segs.map Segment.duration).sum

/-- How long after the start of the cycle segment `i` begins. -/
def begins (segs : List Segment) (i : ℕ) : ℤ := total (segs.take i)

/-- Segments that follow each other, for a positive time in all. -/
structure Consecutive (segs : List Segment) : Prop where
  duration_nonneg : ∀ s ∈ segs, 0 ≤ s.duration
  total_pos : 0 < total segs
  starts : ∀ i s next, segs[i]? = some s → segs[i + 1]? = some next →
    next.start = s.start + s.duration

def firstStart : List Segment → ℤ
  | [] => 0
  | s :: _ => s.start

/-- Where an offset falls in the cycle. -/
def phase (segs : List Segment) (offset : ℤ) : ℤ := (offset - firstStart segs) % total segs

/-- How much of a segment has passed at an offset. -/
def elapsed (segs : List Segment) (offset : ℤ) (s : Segment) : ℤ :=
  phase segs offset - (s.start - firstStart segs)

/-- The sums that are made for an offset fit in 64 bits. -/
structure Representable (segs : List Segment) (offset : ℤ) : Prop where
  total_lt : total segs < 2 ^ 63
  shifted : -2 ^ 63 ≤ offset - firstStart segs ∧ offset - firstStart segs < 2 ^ 63
  sum_lt : (offset - firstStart segs).tmod (total segs) + total segs < 2 ^ 63

/-- Segment `i` is the one that an offset falls in. -/
def Holds (segs : List Segment) (offset : ℤ) (i : ℕ) : Prop :=
  ∃ s, segs[i]? = some s ∧ 0 ≤ elapsed segs offset s ∧ elapsed segs offset s < s.duration

@[simp] theorem total_nil : total [] = 0 := rfl

@[simp] theorem total_cons (s : Segment) (segs : List Segment) :
    total (s :: segs) = s.duration + total segs := List.sum_cons

@[simp] theorem begins_zero (segs : List Segment) : begins segs 0 = 0 := rfl

@[simp] theorem begins_succ (s : Segment) (segs : List Segment) (i : ℕ) :
    begins (s :: segs) (i + 1) = s.duration + begins segs i := by
  rw [begins, List.take_succ_cons, total_cons, begins]

theorem total_nonneg {segs : List Segment} (h : ∀ s ∈ segs, 0 ≤ s.duration) : 0 ≤ total segs := by
  induction segs with
  | nil => exact le_refl 0
  | cons head rest ih =>
    have hhead := h head List.mem_cons_self
    have hrest := ih fun s hs => h s (List.mem_cons_of_mem _ hs)
    rw [total_cons]
    omega

theorem begins_nonneg {segs : List Segment} (h : ∀ s ∈ segs, 0 ≤ s.duration) (i : ℕ) :
    0 ≤ begins segs i :=
  total_nonneg fun s hs => h s (List.mem_of_mem_take hs)

/-- A segment ends before a later one begins. -/
theorem begins_add_le {segs : List Segment} (h : ∀ s ∈ segs, 0 ≤ s.duration) {i j : ℕ}
    {s : Segment} (hs : segs[i]? = some s) (hij : i < j) :
    begins segs i + s.duration ≤ begins segs j := by
  induction segs generalizing i j with
  | nil => simp at hs
  | cons head rest ih =>
    obtain ⟨k, rfl⟩ : ∃ k, j = k + 1 := ⟨j - 1, by omega⟩
    have hrest : ∀ s ∈ rest, 0 ≤ s.duration := fun s hs => h s (List.mem_cons_of_mem _ hs)
    cases i with
    | zero =>
      rw [List.getElem?_cons_zero, Option.some_inj] at hs
      subst hs
      have hlater := begins_nonneg hrest k
      rw [begins_zero, begins_succ]
      omega
    | succ i =>
      have hle := ih hrest hs (by omega : i < k)
      rw [begins_succ, begins_succ]
      omega

theorem begins_add_le_total {segs : List Segment} (h : ∀ s ∈ segs, 0 ≤ s.duration) {i : ℕ}
    {s : Segment} (hs : segs[i]? = some s) : begins segs i + s.duration ≤ total segs := by
  have hi : i < segs.length := (List.getElem?_eq_some_iff.mp hs).1
  have hle := begins_add_le h hs hi
  rwa [begins, begins, List.take_length] at hle

/-- The segments of a timed background follow each other, where their ends fit in 64 bits. -/
theorem consecutive_startsFrom {segs : List Segment} (h : ∀ s ∈ segs, 0 ≤ s.duration)
    (htotal : 0 < total segs) {offset : ℤ} (hoffset : 0 ≤ offset)
    (hend : offset + total segs < 2 ^ 63) : Consecutive (startsFrom offset segs) := by
  have hdurations : ∀ segs offset,
      (startsFrom offset segs).map Segment.duration = segs.map Segment.duration := by
    intro segs
    induction segs with
    | nil => exact fun _ => rfl
    | cons s segs ih =>
      intro offset
      rw [startsFrom, List.map_cons, List.map_cons, ih]
  refine ⟨fun s hs => ?_, ?_, ?_⟩
  · have hd := List.mem_map_of_mem (f := Segment.duration) hs
    rw [hdurations] at hd
    obtain ⟨t, ht, hts⟩ := List.mem_map.mp hd
    exact hts ▸ h t ht
  · rwa [total, hdurations]
  · clear htotal
    induction segs generalizing offset with
    | nil => simp [startsFrom]
    | cons s segs ih =>
      have hs := h s List.mem_cons_self
      have hrest : ∀ t ∈ segs, 0 ≤ t.duration := fun t ht => h t (List.mem_cons_of_mem _ ht)
      have hnonneg := total_nonneg hrest
      rw [total_cons] at hend
      have hwrap : wrap64 (offset + s.duration) = offset + s.duration :=
        wrap64_eq (by omega) (by omega)
      rw [startsFrom, hwrap]
      rintro (_ | i) t next ht hnext
      · cases segs with
        | nil => simp [startsFrom] at hnext
        | cons u segs =>
          simp only [startsFrom, List.getElem?_cons_zero, List.getElem?_cons_succ,
            Option.some_inj] at ht hnext
          subst ht hnext
          rfl
      · exact ih hrest (by omega) (by omega) i t next ht hnext

theorem phase_add_mul (segs : List Segment) (offset k : ℤ) :
    phase segs (offset + k * total segs) = phase segs offset := by
  have hshift : offset + k * total segs - firstStart segs =
      offset - firstStart segs + total segs * k := by ring
  rw [phase, hshift, Int.add_mul_emod_self_left, phase]

/-- At the end of the cycle the phase starts again. -/
theorem phase_end {segs : List Segment} {offset e : ℤ} (he : phase segs offset + e = total segs) :
    phase segs (offset + e) = 0 := by
  have hshift : offset + e - firstStart segs = offset - firstStart segs + e := by ring
  rw [phase, hshift, ← Int.emod_add_emod]
  exact (congrArg (· % total segs) he).trans (Int.emod_self ..)

namespace Consecutive

variable {segs : List Segment} (hsegs : Consecutive segs)
include hsegs

theorem start_eq {i : ℕ} {s : Segment} (hs : segs[i]? = some s) :
    s.start - firstStart segs = begins segs i := by
  induction i generalizing s with
  | zero =>
    cases segs with
    | nil => simp at hs
    | cons head rest =>
      rw [List.getElem?_cons_zero, Option.some_inj] at hs
      rw [hs, firstStart, sub_self, begins_zero]
  | succ i ih =>
    have hi : i < segs.length := by
      have hlt := (List.getElem?_eq_some_iff.mp hs).1
      omega
    obtain ⟨before, hbefore⟩ : ∃ before, segs[i]? = some before :=
      ⟨_, List.getElem?_eq_getElem hi⟩
    have hstep : begins segs (i + 1) = begins segs i + before.duration := by
      rw [begins, List.take_add_one, hbefore, total, List.map_append, List.sum_append]
      exact congrArg _ (add_zero _)
    have hstart := hsegs.starts i before s hbefore hs
    have hfirst := ih hbefore
    omega

theorem elapsed_eq (offset : ℤ) {i : ℕ} {s : Segment} (hs : segs[i]? = some s) :
    elapsed segs offset s = phase segs offset - begins segs i := by
  rw [elapsed, hsegs.start_eq hs]

theorem phase_nonneg (offset : ℤ) : 0 ≤ phase segs offset :=
  Int.emod_nonneg _ hsegs.total_pos.ne'

theorem phase_lt (offset : ℤ) : phase segs offset < total segs :=
  Int.emod_lt_of_pos _ hsegs.total_pos

/-- One segment at most holds an offset. -/
theorem holds_unique {offset : ℤ} {i j : ℕ} (hi : Holds segs offset i)
    (hj : Holds segs offset j) : i = j := by
  obtain ⟨s, hs, hlow, hhigh⟩ := hi
  obtain ⟨t, ht, htlow, hthigh⟩ := hj
  rw [hsegs.elapsed_eq offset hs] at hlow hhigh
  rw [hsegs.elapsed_eq offset ht] at htlow hthigh
  rcases Nat.lt_trichotomy i j with hij | hij | hij
  · have hle := begins_add_le hsegs.duration_nonneg hs hij
    omega
  · exact hij
  · have hle := begins_add_le hsegs.duration_nonneg ht hij
    omega

end Consecutive

/-! ### The loop -/

/-- The sum does not wrap around while the segments last for less than 2⁶³ seconds. -/
theorem sumDurations_eq {segs : List Segment} (h : ∀ s ∈ segs, 0 ≤ s.duration)
    (htotal : total segs < 2 ^ 63) : sumDurations segs = total segs := by
  have hsum : ∀ segs : List Segment, (∀ s ∈ segs, 0 ≤ s.duration) → ∀ sum, 0 ≤ sum →
      sum + total segs < 2 ^ 63 →
      segs.foldl (fun total s => wrap64 (total + s.duration)) sum = sum + total segs := by
    intro segs
    induction segs with
    | nil => exact fun _ sum _ _ => (add_zero sum).symm
    | cons s segs ih =>
      intro h sum hsum hend
      have hs := h s List.mem_cons_self
      have hrest : ∀ t ∈ segs, 0 ≤ t.duration := fun t ht => h t (List.mem_cons_of_mem _ ht)
      have hnonneg := total_nonneg hrest
      rw [total_cons] at hend
      rw [List.foldl_cons, wrap64_eq (by omega) (by omega), ih hrest _ (by omega) (by omega),
        total_cons, add_assoc]
  rw [sumDurations, hsum segs h 0 le_rfl (by omega), zero_add]

/-- The loop ends at the segment that contains `x`. -/
theorem seek_eq_some {segs : List Segment} (h : ∀ s ∈ segs, 0 ≤ s.duration) {x cursor : ℤ}
    (hcursor : 0 ≤ cursor) (hend : cursor + total segs < 2 ^ 63) (hlow : cursor ≤ x)
    (hhigh : x < cursor + total segs) :
    ∃ i s, segs[i]? = some s ∧ cursor + begins segs i ≤ x ∧
      x < cursor + begins segs i + s.duration ∧
      seek x cursor segs = some (s.state (x - (cursor + begins segs i))) := by
  induction segs generalizing cursor with
  | nil =>
    rw [total_nil] at hhigh
    omega
  | cons head rest ih =>
    have hpos := h head List.mem_cons_self
    have hrest : ∀ t ∈ rest, 0 ≤ t.duration := fun t ht => h t (List.mem_cons_of_mem _ ht)
    have hnonneg := total_nonneg hrest
    rw [total_cons] at hhigh hend
    have hwrap : wrap64 (cursor + head.duration) = cursor + head.duration :=
      wrap64_eq (by omega) (by omega)
    by_cases hhead : x < cursor + head.duration
    · refine ⟨0, head, rfl, ?_, ?_, ?_⟩
      · rwa [begins_zero, add_zero]
      · rwa [begins_zero, add_zero]
      · rw [seek, hwrap, if_pos hhead, begins_zero, add_zero, wrap64_eq (by omega) (by omega)]
    · obtain ⟨i, s, hs, hbegins, hends, hseek⟩ :=
        ih hrest (by omega) (by omega) (by omega : cursor + head.duration ≤ x) (by omega)
      refine ⟨i + 1, s, hs, ?_, ?_, ?_⟩
      · rw [begins_succ]
        omega
      · rw [begins_succ]
        omega
      · rw [seek, hwrap, if_neg hhead, hseek, begins_succ, ← add_assoc]

theorem evaluateCycle_of_seek {segs : List Segment} (hsegs : Consecutive segs) {offset : ℤ}
    (hfits : Representable segs offset) {st : State}
    (h : seek (phase segs offset) 0 segs = some st) : evaluateCycle segs offset = st := by
  obtain ⟨htotal, hshifted, hsum⟩ := hfits
  have hpos := hsegs.total_pos
  have hsumEq := sumDurations_eq hsegs.duration_nonneg htotal
  cases segs with
  | nil => simp at hpos
  | cons first rest =>
    rw [firstStart] at hshifted hsum
    have hlow := Int.lt_tmod_of_pos (offset - first.start) hpos
    have hphase : ((offset - first.start).tmod (total (first :: rest)) +
        total (first :: rest)).tmod (total (first :: rest)) = phase (first :: rest) offset :=
      tmod_add_tmod _ hpos
    rw [evaluateCycle]
    dsimp only
    rw [hsumEq, if_neg (not_le.mpr hpos), wrap64_eq hshifted.1 hshifted.2,
      wrap64_eq (by omega) hsum, hphase, h]

namespace Consecutive

variable {segs : List Segment} (hsegs : Consecutive segs)
include hsegs

/-- The loop finds the segment that holds the offset, and how much of it has passed. -/
theorem seek_phase (htotal : total segs < 2 ^ 63) (offset : ℤ) :
    ∃ i s, segs[i]? = some s ∧ Holds segs offset i ∧
      seek (phase segs offset) 0 segs = some (s.state (elapsed segs offset s)) := by
  have hhigh : phase segs offset < 0 + total segs := by
    rw [zero_add]
    exact hsegs.phase_lt offset
  obtain ⟨i, s, hs, hbegins, hends, hseek⟩ := seek_eq_some hsegs.duration_nonneg le_rfl
    (by rwa [zero_add]) (hsegs.phase_nonneg offset) hhigh
  rw [zero_add] at hbegins hends hseek
  refine ⟨i, s, hs, ⟨s, hs, ?_, ?_⟩, ?_⟩
  · rw [hsegs.elapsed_eq offset hs]
    omega
  · rw [hsegs.elapsed_eq offset hs]
    omega
  · rw [hseek, hsegs.elapsed_eq offset hs]

/-- Up to the end of the cycle the phase grows with the offset. -/
theorem phase_add {offset e : ℤ} (he : 0 ≤ e) (hlt : phase segs offset + e < total segs) :
    phase segs (offset + e) = phase segs offset + e := by
  have hshift : offset + e - firstStart segs = offset - firstStart segs + e := by ring
  have hnonneg := hsegs.phase_nonneg offset
  rw [phase, hshift, ← Int.emod_add_emod]
  exact Int.emod_eq_of_lt (add_nonneg hnonneg he) hlt

/-- **How long a segment holds.** Where another segment lasts for a time, the first moment at
which a segment no longer holds is the one at which it has passed. -/
theorem isLeast_remaining {offset : ℤ} {i : ℕ} {s : Segment} (hs : segs[i]? = some s)
    (hholds : Holds segs offset i)
    (hother : ∃ j t, segs[j]? = some t ∧ j ≠ i ∧ 0 < t.duration) :
    IsLeast {e | 0 < e ∧ ¬ Holds segs (offset + e) i}
      (s.duration - elapsed segs offset s) := by
  obtain ⟨s', hs', hlow, hhigh⟩ := hholds
  obtain rfl : s = s' := Option.some_inj.mp (hs.symm.trans hs')
  rw [hsegs.elapsed_eq offset hs] at hlow hhigh ⊢
  have hnonneg := hsegs.duration_nonneg
  have hend := begins_add_le_total hnonneg hs
  have hstart := begins_nonneg hnonneg i
  refine ⟨⟨by omega, ?_⟩, ?_⟩
  · rintro ⟨t, ht, htlow, hthigh⟩
    obtain rfl : s = t := Option.some_inj.mp (hs.symm.trans ht)
    rw [hsegs.elapsed_eq _ hs] at htlow hthigh
    rcases hend.lt_or_eq with hlt | heq
    · rw [hsegs.phase_add (by omega) (by omega)] at hthigh
      omega
    · -- the cycle starts again, with another segment unless this one is all of it
      rw [phase_end (by omega)] at htlow hthigh
      obtain ⟨j, u, hu, hne, hpos⟩ := hother
      have huend := begins_add_le_total hnonneg hu
      have hustart := begins_nonneg hnonneg j
      rcases Nat.lt_or_gt_of_ne hne with hji | hij
      · have hle := begins_add_le hnonneg hu hji
        omega
      · have hle := begins_add_le hnonneg hs hij
        omega
  · rintro e ⟨hpos, hnot⟩
    by_contra hlt
    refine hnot ⟨s, hs, ?_⟩
    rw [hsegs.elapsed_eq _ hs, hsegs.phase_add hpos.le (by omega)]
    omega

end Consecutive

/-! ### Progress -/

theorem clampUnit_mem (x : ℚ) : 0 ≤ clampUnit x ∧ clampUnit x ≤ 1 := by
  rw [clampUnit]
  split_ifs with habove hbelow
  · norm_num
  · norm_num
  · exact ⟨not_lt.mp hbelow, not_lt.mp habove⟩

theorem clampUnit_of_mem {x : ℚ} (hlow : 0 ≤ x) (hhigh : x ≤ 1) : clampUnit x = x := by
  rw [clampUnit, if_neg (not_lt.mpr hhigh), if_neg (not_lt.mpr hlow)]

/-- The progress of a transition whose length is a double. -/
theorem progress_eq {into duration : ℤ} (hlow : 0 ≤ into) (hhigh : into < duration)
    (hduration : duration < 2 ^ 53) :
    clampUnit (fl (fl into / fl duration)) = fl (into / duration) ∧
      fl ((into : ℚ) / duration) < 1 := by
  have hpos : (0 : ℚ) < duration := by exact_mod_cast hlow.trans_lt hhigh
  have hnonneg : (0 : ℚ) ≤ (into : ℚ) / duration := div_nonneg (by exact_mod_cast hlow) hpos.le
  have hgap : (into : ℚ) / duration ≤ 1 - 1 / 2 ^ 53 := by
    have hinto : (into : ℚ) ≤ duration - 1 := by exact_mod_cast Int.le_sub_one_of_lt hhigh
    have hbound : (duration : ℚ) ≤ 2 ^ 53 := by exact_mod_cast hduration.le
    rw [div_le_iff₀ hpos]
    have hshare : 1 / 2 ^ 53 * (duration : ℚ) ≤ 1 := by linarith
    linarith
  have hlt := fl_lt_one hnonneg hgap
  rw [fl_intCast (by rw [abs_of_nonneg hlow]; omega),
    fl_intCast (by rw [abs_of_nonneg (hlow.trans hhigh.le)]; omega)]
  exact ⟨clampUnit_of_mem (fl_nonneg hnonneg) hlt.le, hlt⟩

/-! ### The segment of an offset -/

/-- **The segment of a moment.** For segments that follow each other, and offsets for which the sums
fit in 64 bits, the loop ends at the one segment that holds the offset, also for a negative one.
What it gives has the length of the cycle for a period. A transition is between its first moment and
its end, and below the end when its length is a double. A still picture names the first moment at
which its segment no longer holds, where there is another one to come. -/
theorem evaluateCycle_spec {segs : List Segment} (hsegs : Consecutive segs) {offset : ℤ}
    (hfits : Representable segs offset) :
    ∃ i s, segs[i]? = some s ∧ Holds segs offset i ∧ (∀ j, Holds segs offset j → j = i) ∧
      seek (phase segs offset) 0 segs = some (evaluateCycle segs offset) ∧
      evaluateCycle segs offset = s.state (elapsed segs offset s) ∧
      (∀ k, Representable segs (offset + k * total segs) →
        evaluateCycle segs (offset + k * total segs) = evaluateCycle segs offset) ∧
      (s.isTransition = true →
        0 ≤ (evaluateCycle segs offset).progress ∧ (evaluateCycle segs offset).progress ≤ 1 ∧
        (s.duration < 2 ^ 53 →
          (evaluateCycle segs offset).progress = fl (elapsed segs offset s / s.duration) ∧
          (evaluateCycle segs offset).progress < 1)) ∧
      (s.isTransition = false → (∃ j t, segs[j]? = some t ∧ j ≠ i ∧ 0 < t.duration) →
        IsLeast {e | 0 < e ∧ ¬ Holds segs (offset + e) i}
          (evaluateCycle segs offset).secondsToChange) := by
  obtain ⟨i, s, hs, hholds, hseek⟩ := hsegs.seek_phase hfits.total_lt offset
  have heval := evaluateCycle_of_seek hsegs hfits hseek
  refine ⟨i, s, hs, hholds, fun j hj => hsegs.holds_unique hj hholds, ?_, heval, ?_, ?_, ?_⟩
  · rw [heval, hseek]
  · intro k hfits'
    have hphase := phase_add_mul segs offset k
    rw [heval]
    exact evaluateCycle_of_seek hsegs hfits' (hphase ▸ hseek)
  · intro htransition
    obtain ⟨t, ht, hlow, hhigh⟩ := hholds
    obtain rfl : s = t := Option.some_inj.mp (hs.symm.trans ht)
    have hprogress : (s.state (elapsed segs offset s)).progress =
        clampUnit (fl (fl (elapsed segs offset s) / fl s.duration)) := by
      rw [Segment.state, htransition]
      rfl
    rw [heval, hprogress]
    refine ⟨(clampUnit_mem _).1, (clampUnit_mem _).2, fun hduration => ?_⟩
    obtain ⟨heq, hlt⟩ := progress_eq hlow hhigh hduration
    exact ⟨heq, heq ▸ hlt⟩
  · intro hstill hother
    have hremaining := hsegs.isLeast_remaining hs hholds hother
    have hle := begins_add_le_total hsegs.duration_nonneg hs
    have hstart := begins_nonneg hsegs.duration_nonneg i
    have htotal := hfits.total_lt
    obtain ⟨t, ht, hlow, hhigh⟩ := hholds
    obtain rfl : s = t := Option.some_inj.mp (hs.symm.trans ht)
    have hseconds : (s.state (elapsed segs offset s)).secondsToChange =
        s.duration - elapsed segs offset s := by
      rw [Segment.state, hstill]
      exact wrap64_eq (by omega) (by omega)
    rwa [heval, hseconds]

/-- A still picture and the transition to another one. -/
def stillAndTransition : List Segment :=
  [⟨0, 40, ofString "a", ofString "a"⟩, ⟨40, 20, ofString "a", ofString "b"⟩]

theorem evaluateCycle_minute : ∃ i s, stillAndTransition[i]? = some s ∧
    Holds stillAndTransition (-15) i ∧
    evaluateCycle stillAndTransition (-15) = s.state (elapsed stillAndTransition (-15) s) := by
  have hsegs : Consecutive (startsFrom 0 stillAndTransition) :=
    consecutive_startsFrom (by decide) (by decide) le_rfl (by decide)
  have hfits : Representable stillAndTransition (-15) := ⟨by decide, by decide, by decide⟩
  obtain ⟨i, s, hs, hholds, -, -, heval, -⟩ := evaluateCycle_spec hsegs hfits
  exact ⟨i, s, hs, hholds, heval⟩

/-- Two pictures for 2⁶² seconds each. -/
def longest : List Segment :=
  [⟨0, 2 ^ 62, ofString "a", ofString "a"⟩, ⟨2 ^ 62, 2 ^ 62, ofString "b", ofString "b"⟩]

/-- A picture that is alone in its cycle never makes way for another one. Where the sum of the
durations wraps around, the first picture is shown in place of the one of the offset. -/
theorem not_evaluateCycle :
    (¬ ∀ segs offset i s, Consecutive segs → segs[i]? = some s →
      Holds segs offset i → s.isTransition = false →
      IsLeast {e | 0 < e ∧ ¬ Holds segs (offset + e) i}
        (evaluateCycle segs offset).secondsToChange) ∧
    ¬ ∀ segs offset i s, Consecutive segs → segs[i]? = some s → Holds segs offset i →
      evaluateCycle segs offset = s.state (elapsed segs offset s) := by
  refine ⟨fun hall => ?_, fun hall => ?_⟩
  · have hholds : Holds [⟨0, day, ofString "a", ofString "a"⟩] 0 0 := ⟨_, rfl, by decide, by decide⟩
    have hsegs : Consecutive (startsFrom 0 [⟨0, day, ofString "a", ofString "a"⟩]) :=
      consecutive_startsFrom (by decide) (by decide) le_rfl (by decide)
    obtain ⟨⟨-, hnot⟩, -⟩ := hall _ 0 0 _ hsegs rfl hholds (by decide)
    exact hnot ⟨_, rfl, by decide, by decide⟩
  · have hsegs : Consecutive longest := by
      refine ⟨by decide, by decide, fun i s next hs hnext => ?_⟩
      rcases i with _ | _ | i
      · obtain rfl := Option.some_inj.mp hs
        obtain rfl := Option.some_inj.mp hnext
        decide
      · cases hnext
      · cases hnext
    have hsame := hall longest (2 ^ 62) 1 _ hsegs rfl ⟨_, rfl, by decide, by decide⟩
    exact absurd (congrArg State.fromImage hsame) (by decide)

end Wallpaper

end SingularityShell
