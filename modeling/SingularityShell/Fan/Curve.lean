import Mathlib.Data.List.Chain
import Mathlib.Tactic.FieldSimp
import SingularityShell.Lib.Machine
import SingularityShell.Lib.Rounding

/-!
# Fan curves

A curve gives the speed of a fan, in percent, for a temperature in thousandths of a degree. Between
its points the speed is interpolated.

## Main definitions

* `Fan.FanCurve`, `Fan.FanCurve.percentAt` — a curve, and the speed it gives
* `Fan.validate` — the curves that are accepted
* `Fan.nextPercent` — the speed that is set next

## Main results

* `Fan.rising_of_validate` — what is known of a curve that is accepted
* `Fan.percentAt_mono`, `Fan.percentAt_bounds`, `Fan.percentAt_point` — the interpolation
* `Fan.nextPercent_spec` — the speed that is set
* `Fan.not_through_points` — the last point of a curve may be overridden
-/

namespace SingularityShell

namespace Fan

open Machine Rounding

structure FanCurve where
  temps : List ℤ
  percents : List ℤ
  deriving DecidableEq

def minPercent : ℤ := 20
def minPoints : ℕ := 4
def maxPoints : ℕ := 6
def minCurveMillidegrees : ℤ := 20000
def critMarginMillidegrees : ℤ := 5000
def rampDownPercent : ℤ := 5

/-- The temperature from which on a fan runs at its full speed. -/
def ceiling (crit : ℤ) : ℤ := wrap32 (crit - critMarginMillidegrees)

/-- The points of a curve that has as many percents as temperatures. -/
def FanCurve.points (curve : FanCurve) : List (ℤ × ℤ) := curve.temps.zip curve.percents

/-- The speed on the line between two points. -/
def line (a b : ℤ × ℤ) (millidegrees : ℤ) : ℚ :=
  let t : ℚ := ((millidegrees - a.1 : ℤ) : ℚ) / ((b.1 - a.1 : ℤ) : ℚ)
  a.2 + t * ((b.2 - a.2 : ℤ) : ℚ)

/-- The loop of `percent_at`, after a point that is too low. -/
def between (millidegrees : ℤ) : ℤ × ℤ → List (ℤ × ℤ) → ℤ
  | a, [] => a.2
  | a, b :: rest =>
    if millidegrees ≤ b.1 then roundAway (line a b millidegrees) else between millidegrees b rest

/-- `FanCurve.percent_at` -/
def FanCurve.percentAt (curve : FanCurve) (millidegrees : ℤ) : ℤ :=
  match curve.points with
  | [] => 0
  | a :: rest => if millidegrees ≤ a.1 then a.2 else between millidegrees a rest

/-- `FanController.next_percent` -/
def nextPercent (curve : FanCurve) (millidegrees crit lastPercent : ℤ) : ℤ :=
  let target := curve.percentAt millidegrees
  let target := if ceiling crit ≤ millidegrees then 100 else target
  let target := if target < minPercent then minPercent else target
  let target :=
    if target < lastPercent - rampDownPercent then lastPercent - rampDownPercent else target
  clamp target minPercent 100

/-! ### The curves that are accepted -/

inductive ErrorCode where
  | unknownChannel
  | unsupported
  | invalidCurve
  | writeFailed
  | notAuthorized
  deriving DecidableEq

structure FanControlError where
  code : ErrorCode
  message : String
  deriving DecidableEq

/-- The checks of a point, with the point before it. -/
def checkPoint (temps percents : List ℤ) (ceiling : ℤ) (i : ℕ) : Option FanControlError :=
  if temps.getD i 0 < minCurveMillidegrees ∨ ceiling < temps.getD i 0 then
    some ⟨.invalidCurve, "Curve points must lie between " ++
      toString (minCurveMillidegrees.tdiv 1000) ++ " °C and " ++ toString (ceiling.tdiv 1000) ++
        " °C"⟩
  else if 0 < i ∧ temps.getD i 0 ≤ temps.getD (i - 1) 0 then
    some ⟨.invalidCurve, "Temperatures must increase from point to point"⟩
  else if percents.getD i 0 < minPercent ∨ 100 < percents.getD i 0 then
    some ⟨.invalidCurve, "Fan speed must stay between " ++ toString minPercent ++ "% and 100%"⟩
  else if 0 < i ∧ percents.getD i 0 < percents.getD (i - 1) 0 then
    some ⟨.invalidCurve, "Fan speed must not drop as the temperature rises"⟩
  else none

/-- `FanController.validate`, for a channel that takes so many points. -/
def validate (channelPoints : ℕ) (temps percents : List ℤ) (crit : ℤ) :
    Except FanControlError Unit :=
  if temps.length ≠ percents.length ∨ temps.length < minPoints ∨ channelPoints < temps.length then
    .error ⟨.invalidCurve, "A fan curve needs between " ++ toString minPoints ++ " and " ++
      toString channelPoints ++ " points"⟩
  else
    match (List.range temps.length).findSome? (checkPoint temps percents (ceiling crit)) with
    | some e => .error e
    | none => .ok ()

/-- Temperatures rise from point to point, and speeds do not fall. -/
def Rising (points : List (ℤ × ℤ)) : Prop :=
  points.IsChain fun a b => a.1 < b.1 ∧ a.2 ≤ b.2

/-- What is known of a curve that was accepted. -/
structure Accepted (ceiling : ℤ) (curve : FanCurve) : Prop where
  length : curve.temps.length = curve.percents.length
  nonempty : curve.points ≠ []
  rising : Rising curve.points
  percents : ∀ point ∈ curve.points, minPercent ≤ point.2 ∧ point.2 ≤ 100
  temps : ∀ point ∈ curve.points, minCurveMillidegrees ≤ point.1 ∧ point.1 ≤ ceiling

theorem checkPoint_eq_none {temps percents : List ℤ} {ceiling : ℤ} {i : ℕ}
    (h : checkPoint temps percents ceiling i = none) :
    (minCurveMillidegrees ≤ temps.getD i 0 ∧ temps.getD i 0 ≤ ceiling) ∧
      (0 < i → temps.getD (i - 1) 0 < temps.getD i 0) ∧
      (minPercent ≤ percents.getD i 0 ∧ percents.getD i 0 ≤ 100) ∧
      (0 < i → percents.getD (i - 1) 0 ≤ percents.getD i 0) := by
  rw [checkPoint] at h
  split_ifs at h with hrange hrise hspeed hdrop
  omega

theorem accepted_of_validate {channelPoints : ℕ} {temps percents : List ℤ} {crit : ℤ}
    (h : validate channelPoints temps percents crit = .ok ()) :
    Accepted (ceiling crit) ⟨temps, percents⟩ := by
  rw [validate] at h
  split_ifs at h with hlength
  push Not at hlength
  obtain ⟨hlength, hmin, -⟩ := hlength
  have hnone : (List.range temps.length).findSome? (checkPoint temps percents (ceiling crit)) =
      none := by
    cases hsome :
        (List.range temps.length).findSome? (checkPoint temps percents (ceiling crit)) with
    | none => rfl
    | some e =>
      rw [hsome] at h
      cases h
  have hcheck (i : ℕ) (hi : i < temps.length) :=
    checkPoint_eq_none (List.findSome?_eq_none_iff.mp hnone i (List.mem_range.mpr hi))
  have hzip (i : ℕ) (hi : i < (temps.zip percents).length) :
      i < temps.length ∧ (temps.zip percents)[i] = (temps.getD i 0, percents.getD i 0) := by
    have hi' : i < temps.length ∧ i < percents.length := by
      rw [List.length_zip] at hi
      omega
    refine ⟨hi'.1, ?_⟩
    rw [List.getElem_zip, List.getElem_eq_getD 0, List.getElem_eq_getD 0]
  refine ⟨hlength, ?_, ?_, ?_, ?_⟩
  · show temps.zip percents ≠ []
    intro hnil
    have hlen := congrArg List.length hnil
    rw [List.length_zip, List.length_nil] at hlen
    rw [minPoints] at hmin
    omega
  · show Rising (temps.zip percents)
    refine List.isChain_iff_getElem.mpr fun i hi => ?_
    obtain ⟨-, heq⟩ := hzip i (by omega)
    obtain ⟨hlt, heq'⟩ := hzip (i + 1) hi
    have hc := hcheck (i + 1) hlt
    rw [heq, heq']
    exact ⟨hc.2.1 i.succ_pos, hc.2.2.2 i.succ_pos⟩
  · show ∀ point ∈ temps.zip percents, _
    intro point hmem
    obtain ⟨i, hi, rfl⟩ := List.getElem_of_mem hmem
    obtain ⟨hlt, heq⟩ := hzip i hi
    rw [heq]
    exact (hcheck i hlt).2.2.1
  · show ∀ point ∈ temps.zip percents, _
    intro point hmem
    obtain ⟨i, hi, rfl⟩ := List.getElem_of_mem hmem
    obtain ⟨hlt, heq⟩ := hzip i hi
    rw [heq]
    exact (hcheck i hlt).1

/-! ### Between two points -/

section
variable {a b : ℤ × ℤ} {m m' : ℤ}

theorem line_mono (ht : a.1 < b.1) (hp : a.2 ≤ b.2) (h : m ≤ m') : line a b m ≤ line a b m' := by
  have hden : (0 : ℚ) < ((b.1 - a.1 : ℤ) : ℚ) := Int.cast_pos.mpr (by omega)
  have hslope : (0 : ℚ) ≤ ((b.2 - a.2 : ℤ) : ℚ) := Int.cast_nonneg (by omega)
  have hnum : ((m - a.1 : ℤ) : ℚ) ≤ ((m' - a.1 : ℤ) : ℚ) := Int.cast_le.mpr (by omega)
  exact add_le_add_right
    (mul_le_mul_of_nonneg_right (div_le_div_of_nonneg_right hnum hden.le) hslope) _

theorem line_left : line a b a.1 = a.2 := by
  rw [line, sub_self, Int.cast_zero, zero_div, zero_mul, add_zero]

theorem line_right (ht : a.1 < b.1) : line a b b.1 = b.2 := by
  have hden : ((b.1 - a.1 : ℤ) : ℚ) ≠ 0 := Int.cast_ne_zero.mpr (by omega)
  rw [line, div_self hden, one_mul, ← Int.cast_add, add_sub_cancel]

end

/-! ### The interpolation -/

section
variable {a : ℤ × ℤ} {rest : List (ℤ × ℤ)} {m m' high : ℤ}

theorem le_between (hrising : Rising (a :: rest)) (hm : a.1 ≤ m) : a.2 ≤ between m a rest := by
  induction rest generalizing a with
  | nil => exact le_rfl
  | cons b rest ih =>
    obtain ⟨⟨ht, hp⟩, htail⟩ := List.isChain_cons_cons.mp hrising
    rw [between]
    by_cases hle : m ≤ b.1
    · rw [if_pos hle]
      have hlow := roundAway_mono (line_mono ht hp hm)
      rwa [line_left, roundAway_intCast] at hlow
    · rw [if_neg hle]
      exact hp.trans (ih htail (by omega))

theorem between_le (hrising : Rising (a :: rest)) (hhigh : ∀ point ∈ a :: rest, point.2 ≤ high) :
    between m a rest ≤ high := by
  induction rest generalizing a with
  | nil => exact hhigh a List.mem_cons_self
  | cons b rest ih =>
    obtain ⟨⟨ht, hp⟩, htail⟩ := List.isChain_cons_cons.mp hrising
    rw [between]
    by_cases hle : m ≤ b.1
    · rw [if_pos hle]
      have hup := roundAway_mono (line_mono ht hp hle)
      rw [line_right ht, roundAway_intCast] at hup
      exact hup.trans (hhigh b (List.mem_cons_of_mem _ List.mem_cons_self))
    · rw [if_neg hle]
      exact ih htail fun point hmem => hhigh point (List.mem_cons_of_mem _ hmem)

theorem between_mono (hrising : Rising (a :: rest)) (hm : a.1 ≤ m) (h : m ≤ m') :
    between m a rest ≤ between m' a rest := by
  induction rest generalizing a with
  | nil => exact le_rfl
  | cons b rest ih =>
    obtain ⟨⟨ht, hp⟩, htail⟩ := List.isChain_cons_cons.mp hrising
    rw [between, between]
    by_cases hle' : m' ≤ b.1
    · rw [if_pos hle', if_pos (h.trans hle')]
      exact roundAway_mono (line_mono ht hp h)
    · rw [if_neg hle']
      by_cases hle : m ≤ b.1
      · rw [if_pos hle]
        have hup := roundAway_mono (line_mono ht hp hle)
        rw [line_right ht, roundAway_intCast] at hup
        exact hup.trans (le_between htail (by omega))
      · rw [if_neg hle]
        exact ih htail (by omega)

theorem between_point {point : ℤ × ℤ} (hrising : Rising (a :: rest)) (hmem : point ∈ rest) :
    between point.1 a rest = point.2 := by
  induction rest generalizing a with
  | nil => cases hmem
  | cons b rest ih =>
    obtain ⟨⟨ht, -⟩, htail⟩ := List.isChain_cons_cons.mp hrising
    rw [between]
    rcases List.mem_cons.mp hmem with rfl | hrest
    · rw [if_pos le_rfl, line_right ht, roundAway_intCast]
    · have hlt : b.1 < point.1 := by
        have hpair := List.isChain_iff_pairwise.mp
          (htail.imp fun _ _ h => h.1 : (b :: rest).IsChain fun a b => a.1 < b.1)
        exact List.rel_of_pairwise_cons hpair hrest
      rw [if_neg (by omega)]
      exact ih htail hrest

end

section
variable {curve : FanCurve} {bound m m' : ℤ}

theorem percentAt_mono (h : Accepted bound curve) (hm : m ≤ m') :
    curve.percentAt m ≤ curve.percentAt m' := by
  have hrising := h.rising
  rw [FanCurve.percentAt, FanCurve.percentAt]
  cases hpoints : curve.points with
  | nil => exact le_rfl
  | cons a rest =>
    rw [hpoints] at hrising
    dsimp only
    by_cases hle' : m' ≤ a.1
    · rw [if_pos hle', if_pos (hm.trans hle')]
    · rw [if_neg hle']
      by_cases hle : m ≤ a.1
      · rw [if_pos hle]
        exact le_between hrising (by omega)
      · rw [if_neg hle]
        exact between_mono hrising (by omega) hm

theorem percentAt_bounds (h : Accepted bound curve) :
    minPercent ≤ curve.percentAt m ∧ curve.percentAt m ≤ 100 := by
  have hrising := h.rising
  have hpercents := h.percents
  rw [FanCurve.percentAt]
  cases hpoints : curve.points with
  | nil => exact absurd hpoints h.nonempty
  | cons a rest =>
    rw [hpoints] at hrising hpercents
    have ha := hpercents a List.mem_cons_self
    dsimp only
    by_cases hle : m ≤ a.1
    · rw [if_pos hle]
      exact ha
    · rw [if_neg hle]
      exact ⟨ha.1.trans (le_between hrising (by omega)),
        between_le hrising fun point hmem => (hpercents point hmem).2⟩

/-- The curve goes through its points. -/
theorem percentAt_point {point : ℤ × ℤ} (h : Accepted bound curve) (hmem : point ∈ curve.points) :
    curve.percentAt point.1 = point.2 := by
  have hrising := h.rising
  rw [FanCurve.percentAt]
  cases hpoints : curve.points with
  | nil => exact absurd hpoints h.nonempty
  | cons a rest =>
    rw [hpoints] at hrising hmem
    dsimp only
    rcases List.mem_cons.mp hmem with rfl | hrest
    · rw [if_pos le_rfl]
    · have hpair := List.isChain_iff_pairwise.mp
        (hrising.imp fun _ _ h => h.1 : (a :: rest).IsChain fun a b => a.1 < b.1)
      have hlt : a.1 < point.1 := List.rel_of_pairwise_cons hpair hrest
      rw [if_neg (by omega)]
      exact between_point hrising hrest

end

/-! ### The speed that is set -/

/-- The speed that is aimed at. -/
def target (curve : FanCurve) (millidegrees crit : ℤ) : ℤ :=
  if ceiling crit ≤ millidegrees then 100 else max minPercent (curve.percentAt millidegrees)

section
variable {curve : FanCurve} {crit m m' last last' : ℤ}

theorem target_bounds (h : Accepted (ceiling crit) curve) :
    minPercent ≤ target curve m crit ∧ target curve m crit ≤ 100 := by
  have hp := percentAt_bounds (m := m) h
  rw [target, minPercent] at *
  split_ifs <;> omega

theorem target_mono (h : Accepted (ceiling crit) curve) (hm : m ≤ m') :
    target curve m crit ≤ target curve m' crit := by
  have hp := percentAt_mono h hm
  have hb := target_bounds (m := m) h
  rw [target, target, minPercent] at *
  split_ifs at * <;> omega

/-- The speed that is set is the one that is aimed at, or just as far below the last one as is
allowed. -/
theorem nextPercent_eq (h : Accepted (ceiling crit) curve) (hlast : last ≤ 100) :
    nextPercent curve m crit last = max (target curve m crit) (last - rampDownPercent) := by
  have hp := percentAt_bounds (m := m) h
  rw [nextPercent, target, clamp_eq (by decide), minPercent, rampDownPercent] at *
  split_ifs <;> omega

/-- Repeated at one temperature. -/
theorem iterate_nextPercent (h : Accepted (ceiling crit) curve) (hlast : last ≤ 100) (k : ℕ) :
    (nextPercent curve m crit)^[k] last =
      if k = 0 then last else max (target curve m crit) (last - rampDownPercent * k) := by
  have htarget := target_bounds (m := m) h
  induction k with
  | zero => rfl
  | succ k ih =>
    rw [Function.iterate_succ_apply', ih, if_neg k.succ_ne_zero]
    rw [rampDownPercent] at *
    by_cases hk : k = 0
    · subst hk
      rw [if_pos rfl, nextPercent_eq h hlast, rampDownPercent]
      rfl
    · rw [if_neg hk, nextPercent_eq h (by omega), rampDownPercent]
      omega

/-- **The speed that is set** lies between 20 and 100 percent, does not fall when the temperature
rises nor by more than 5 percent at a time, is full from 5 degrees below the critical temperature
on, goes through the points of the curve that lie below that, and reaches what it aims at within 16
steps. -/
theorem nextPercent_spec {channelPoints : ℕ} {temps percents : List ℤ}
    (hvalid : validate channelPoints temps percents crit = .ok ())
    (hlast : minPercent ≤ last ∧ last ≤ 100) (hcurve : curve = ⟨temps, percents⟩) :
    (∀ m, minPercent ≤ nextPercent curve m crit last ∧ nextPercent curve m crit last ≤ 100) ∧
      (∀ m m', m ≤ m' → nextPercent curve m crit last ≤ nextPercent curve m' crit last) ∧
      (∀ m, last - rampDownPercent ≤ nextPercent curve m crit last) ∧
      (∀ m, ceiling crit ≤ m → nextPercent curve m crit last = 100) ∧
      (∀ point ∈ temps.zip percents, point.1 < ceiling crit → last - rampDownPercent ≤ point.2 →
        nextPercent curve point.1 crit last = point.2) ∧
      ∀ m, m < ceiling crit → ∃ k ≤ 16, ∀ j, k ≤ j →
        (nextPercent curve m crit)^[j] last = max minPercent (curve.percentAt m) := by
  subst hcurve
  have h := accepted_of_validate hvalid
  have hnext m := nextPercent_eq (m := m) h hlast.2
  refine ⟨fun m => ?_, fun m m' hm => ?_, fun m => ?_, fun m hm => ?_,
    fun point hmem hbelow hramp => ?_, fun m hm => ⟨16, le_rfl, fun j hj => ?_⟩⟩
  · have hb := target_bounds (m := m) h
    rw [hnext, rampDownPercent]
    omega
  · rw [hnext, hnext]
    exact max_le_max_right _ (target_mono h hm)
  · rw [hnext]
    exact le_max_right _ _
  · rw [hnext, target, if_pos hm, rampDownPercent]
    omega
  · have hpoint := h.percents point hmem
    rw [hnext, target, if_neg (by omega), percentAt_point h hmem, max_eq_right hpoint.1,
      max_eq_left hramp]
  · have hb := target_bounds (m := m) h
    rw [iterate_nextPercent h hlast.2, if_neg (by omega), rampDownPercent, max_eq_left, target,
      if_neg (by omega)]
    rw [minPercent] at *
    omega

end

/-- Four points, of which the last one is the warmest that is accepted. -/
def steep : List ℤ × List ℤ := ([30000, 50000, 70000, 95000], [20, 30, 40, 50])

theorem nextPercent_steep : nextPercent ⟨steep.1, steep.2⟩ 50000 100000 35 = 30 :=
  (nextPercent_spec (show validate 6 steep.1 steep.2 100000 = .ok () by decide)
    (show minPercent ≤ 35 ∧ (35 : ℤ) ≤ 100 by decide) rfl).2.2.2.2.1 (50000, 30) (by decide)
    (by decide) (by decide)

/-- At the last point of the curve the fan runs at its full speed. -/
theorem not_through_points :
    ¬∀ channelPoints temps percents crit last, validate channelPoints temps percents crit = .ok () →
      minPercent ≤ last → last ≤ 100 → ∀ point ∈ temps.zip percents,
        last - rampDownPercent ≤ point.2 →
          nextPercent ⟨temps, percents⟩ point.1 crit last = point.2 := by
  intro h
  exact absurd (h 6 steep.1 steep.2 100000 50 (by decide) (by decide) (by decide) (95000, 50)
    (by decide) (by decide)) (by decide)

end Fan

end SingularityShell
