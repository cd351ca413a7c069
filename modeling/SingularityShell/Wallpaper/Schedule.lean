import Mathlib.Algebra.BigOperators.Group.List.Basic
import SingularityShell.Lib.Walk
import SingularityShell.Wallpaper.Model

/-!
# The schedule of a day

The segments of a day follow one another around the clock.

## Main definitions

* `Wallpaper.Partition` — segments that fill the day
* `Wallpaper.Cut` — a still that is not blended into the next one

## Main results

* `Wallpaper.daySchedule_partition` — the segments fill the day unless all frames have one time
* `Wallpaper.daySchedule_images` — each segment ends with the image that the next one starts with
-/

namespace SingularityShell

namespace Wallpaper

open Ascii Walk

variable {wp : Wallpaper} {place : Place} {m : ℕ} {transition : ℤ} {f next : ℤ × Frame}
  {l : List (ℤ × Frame)}

/-! ### The frames in the order of their times -/

theorem insertTimed_cons (a : ℤ × Frame) (l : List (ℤ × Frame)) (f : ℤ × Frame) :
    insertTimed (a :: l) f = if a.1 ≤ f.1 then a :: insertTimed l f else f :: a :: l := by
  by_cases h : a.1 ≤ f.1
  · simp [insertTimed, h]
  · simp [insertTimed, h]

theorem insertTimed_perm (l : List (ℤ × Frame)) (f : ℤ × Frame) :
    (insertTimed l f).Perm (f :: l) := by
  have hl : l.takeWhile (·.1 ≤ f.1) ++ l.dropWhile (·.1 ≤ f.1) = l :=
    List.takeWhile_append_dropWhile
  exact List.perm_middle.trans (List.Perm.of_eq (congrArg (f :: ·) hl))

theorem insertTimed_sorted (h : l.Pairwise (·.1 ≤ ·.1)) (f : ℤ × Frame) :
    (insertTimed l f).Pairwise (·.1 ≤ ·.1) := by
  induction l with
  | nil => exact List.pairwise_singleton _ _
  | cons a l ih =>
    obtain ⟨ha, hl⟩ := List.pairwise_cons.mp h
    rw [insertTimed_cons]
    split_ifs with hle
    · refine List.pairwise_cons.mpr ⟨fun b hb => ?_, ih hl⟩
      rcases List.mem_cons.mp ((insertTimed_perm l f).mem_iff.mp hb) with rfl | hb
      · exact hle
      · exact ha b hb
    · refine List.pairwise_cons.mpr ⟨fun b hb => ?_, h⟩
      rcases List.mem_cons.mp hb with rfl | hb
      · omega
      · have := ha b hb
        omega

/-- The loop puts the frames in the order of their times. -/
theorem timed_spec (wp : Wallpaper) (place : Place) :
    (wp.timed place).Perm (wp.assigned place) ∧ (wp.timed place).Pairwise (·.1 ≤ ·.1) := by
  have hfold : ∀ fs l : List (ℤ × Frame), l.Pairwise (·.1 ≤ ·.1) →
      (fs.foldl insertTimed l).Perm (fs ++ l) ∧ (fs.foldl insertTimed l).Pairwise (·.1 ≤ ·.1) := by
    intro fs
    induction fs with
    | nil => exact fun l hl => ⟨List.Perm.refl _, hl⟩
    | cons f fs ih =>
      intro l hl
      obtain ⟨hperm, hsorted⟩ := ih _ (insertTimed_sorted hl f)
      refine ⟨hperm.trans ?_, hsorted⟩
      exact ((insertTimed_perm l f).append_left fs).trans List.perm_middle
  have h := hfold (wp.assigned place) [] List.Pairwise.nil
  rwa [List.append_nil] at h

/-- Every frame has a time of the day. -/
theorem assigned_time (h : f ∈ wp.assigned place) : 0 ≤ f.1 ∧ f.1 < day := by
  obtain ⟨p, -, rfl⟩ := List.mem_map.mp h
  show 0 ≤ frameTime _ _ _ _ _ ∧ frameTime _ _ _ _ _ < day
  rw [frameTime, tmod_add_tmod _ (by decide)]
  exact ⟨Int.emod_nonneg _ (by decide), Int.emod_lt_of_pos _ (by decide)⟩

theorem length_assigned : (wp.assigned place).length = wp.frames.length := by
  simp [assigned]

/-! ### From a frame to the next -/

/-- `f` and `next` are a frame of the schedule and the one after it, and both have times of the
day. -/
structure Linked (m : ℕ) (f next : ℤ × Frame) : Prop where
  time : 0 ≤ f.1 ∧ f.1 < day
  nextTime : 0 ≤ next.1 ∧ next.1 < day
  single : m = 1 → next = f

theorem gap_eq (h : m ≠ 1) : gap m f next = (next.1 - f.1) % day := by
  rw [gap, if_neg h, tmod_add_tmod _ (by decide)]

/-- The gap is what leads from one time to the other, and zero for equal times only. -/
theorem Linked.gap_spec (h : Linked m f next) : 0 ≤ gap m f next ∧
    (f.1 + gap m f next) % day = next.1 % day ∧ (gap m f next = 0 → m ≠ 1 ∧ f.1 = next.1) := by
  by_cases hm : m = 1
  · rw [gap, if_pos hm, h.single hm]
    exact ⟨by decide, Int.add_emod_right _ _, fun h => absurd h (by decide)⟩
  · obtain ⟨hf, hn⟩ := And.intro h.time h.nextTime
    rw [gap_eq hm]
    simp only [day] at hf hn ⊢
    exact ⟨by omega, by omega, fun _ => ⟨hm, by omega⟩⟩

theorem segmentsOf_of_gap_eq_zero (h : gap m f next = 0) (ht : 0 ≤ transition) :
    segmentsOf m transition f next = [] := by
  rw [segmentsOf]
  simp only [h, Int.zero_tdiv]
  have : min transition 0 = 0 := by omega
  simp [this]

/-- The segments of a frame that is followed by a later one: a still, and a transition unless none
is left or the images are the same. -/
theorem Linked.segmentsOf_eq (h : Linked m f next) (ht : 0 ≤ transition) (hg : gap m f next ≠ 0) :
    ∃ trans, 0 ≤ trans ∧ trans < gap m f next ∧
      (trans = 0 → f.2.image = next.2.image ∨ transition = 0 ∨ gap m f next = 1) ∧
      segmentsOf m transition f next =
        ⟨f.1, gap m f next - trans, f.2.image, f.2.image⟩ ::
          if trans > 0 then [⟨f.1 + gap m f next - trans, trans, f.2.image, next.2.image⟩]
          else [] := by
  have hpos : 0 < gap m f next := lt_of_le_of_ne h.gap_spec.1 (Ne.symm hg)
  have hhalf : (gap m f next).tdiv 2 = gap m f next / 2 := Int.tdiv_eq_ediv_of_nonneg hpos.le
  obtain ⟨trans, htrans⟩ : ∃ t, t = if f.2.image = next.2.image then 0
      else if m = 1 then 0 else min transition ((gap m f next).tdiv 2) := ⟨_, rfl⟩
  have hbound : 0 ≤ trans ∧ trans < gap m f next := by
    rw [htrans, hhalf]
    split_ifs <;> omega
  refine ⟨trans, hbound.1, hbound.2, fun hzero => ?_, ?_⟩
  · by_cases himg : f.2.image = next.2.image
    · exact .inl himg
    · have hm : m ≠ 1 := fun hm => himg (by rw [h.single hm])
      rw [htrans, if_neg himg, if_neg hm, hhalf] at hzero
      omega
  · rw [segmentsOf, if_neg (fun hc => hg hc.1)]
    dsimp only
    rw [← htrans, if_pos (by omega)]
    rfl

/-- The segments of a frame fill the gap. -/
theorem Linked.durations (h : Linked m f next) (ht : 0 ≤ transition) :
    ((segmentsOf m transition f next).map Segment.duration).sum = gap m f next ∧
      ∀ s ∈ segmentsOf m transition f next, 0 < s.duration := by
  by_cases hg : gap m f next = 0
  · rw [segmentsOf_of_gap_eq_zero hg ht, hg]
    exact ⟨rfl, fun s hs => absurd hs List.not_mem_nil⟩
  · obtain ⟨trans, hlow, hhigh, -, heq⟩ := h.segmentsOf_eq ht hg
    rw [heq]
    split_ifs with hpos
    · constructor
      · simp
      · intro s hs
        rcases List.mem_cons.mp hs with rfl | hs
        · exact sub_pos.mpr hhigh
        · rw [List.mem_singleton.mp hs]
          exact hpos
    · constructor
      · simp
        omega
      · intro s hs
        rw [List.mem_singleton.mp hs]
        exact sub_pos.mpr hhigh

/-- A segment as a step from one time of the day to another. -/
def Runs (t : ℤ) (s : Segment) (t' : ℤ) : Prop :=
  s.start % day = t ∧ (s.start + s.duration) % day = t'

theorem Linked.leads_time (h : Linked m f next) (ht : 0 ≤ transition) :
    Leads Runs (f.1 % day) (segmentsOf m transition f next) (next.1 % day) := by
  obtain ⟨-, hnext, hzero⟩ := h.gap_spec
  by_cases hg : gap m f next = 0
  · rw [segmentsOf_of_gap_eq_zero hg ht, (hzero hg).2]
    rfl
  · obtain ⟨trans, hlow, -, -, heq⟩ := h.segmentsOf_eq ht hg
    rw [heq]
    split_ifs with hpos
    · refine ⟨_, ⟨rfl, rfl⟩, _, ⟨?_, rfl⟩, ?_⟩
      · exact congrArg (· % day) (by ring)
      · rw [← hnext]
        exact congrArg (· % day) (by ring)
    · refine ⟨_, ⟨rfl, rfl⟩, ?_⟩
      rw [← hnext, show trans = 0 by omega]
      exact congrArg (· % day) (by ring)

/-- A still that is cut off: there is no transition, or no second for one. -/
def Cut (transition : ℤ) (s : Segment) : Prop :=
  s.fromImage = s.toImage ∧ (transition = 0 ∨ s.duration = 1)

/-- A segment as a step from the image that it starts with to the one that is shown after it. -/
def Shows (transition : ℤ) (img : Text) (s : Segment) (img' : Text) : Prop :=
  s.fromImage = img ∧ (s.toImage = img' ∨ Cut transition s)

theorem Linked.leads_image (h : Linked m f next) (ht : 0 ≤ transition)
    (hsame : f.1 = next.1 → f.2.image = next.2.image) :
    Leads (Shows transition) f.2.image (segmentsOf m transition f next) next.2.image := by
  by_cases hg : gap m f next = 0
  · rw [segmentsOf_of_gap_eq_zero hg ht]
    exact hsame (h.gap_spec.2.2 hg).2
  · obtain ⟨trans, hlow, -, hzero, heq⟩ := h.segmentsOf_eq ht hg
    rw [heq]
    split_ifs with hpos
    · exact ⟨_, ⟨rfl, .inl rfl⟩, _, ⟨rfl, .inl rfl⟩, rfl⟩
    · obtain rfl : trans = 0 := by omega
      refine ⟨next.2.image, ⟨rfl, ?_⟩, rfl⟩
      rcases hzero rfl with himg | htr | hone
      · exact .inl himg
      · exact .inr ⟨rfl, .inl htr⟩
      · exact .inr ⟨rfl, .inr (by simpa using hone)⟩

/-- The images of the segments are those of the two frames. -/
theorem mem_segmentsOf {s : Segment} (hs : s ∈ segmentsOf m transition f next) :
    (s.fromImage = f.2.image) ∧ (s.toImage = f.2.image ∨ s.toImage = next.2.image) := by
  rw [segmentsOf] at hs
  split at hs
  · cases hs
  · dsimp only at hs
    generalize (if f.2.image = next.2.image then 0
      else if m = 1 then 0 else min transition ((gap m f next).tdiv 2)) = trans at hs
    rcases List.mem_append.mp hs with hs | hs
    · split at hs
      · rw [List.mem_singleton.mp hs]
        exact ⟨rfl, .inl rfl⟩
      · cases hs
    · split at hs
      · rw [List.mem_singleton.mp hs]
        exact ⟨rfl, .inr rfl⟩
      · cases hs

/-! ### Around the clock -/

/-- The frames with the ones after them. -/
theorem linked_of_mem (h : (f, next) ∈ (wp.timed place).zip ((wp.timed place).rotate 1)) :
    Linked (wp.timed place).length f next ∧ f ∈ wp.assigned place ∧ next ∈ wp.assigned place := by
  obtain ⟨hf, hn⟩ := List.of_mem_zip h
  have hperm := (timed_spec wp place).1
  have hf' := hperm.mem_iff.mp hf
  have hn' := hperm.mem_iff.mp (List.mem_rotate.mp hn)
  refine ⟨⟨assigned_time hf', assigned_time hn', fun hone => ?_⟩, hf', hn'⟩
  obtain ⟨a, ha⟩ := List.length_eq_one_iff.mp hone
  rw [ha] at hf hn
  rw [List.mem_singleton.mp hf, List.mem_singleton.mp (List.mem_rotate.mp hn)]

/-- Along the frames the gaps add up to the time from the first to the last, and the gap after
that. -/
theorem sum_gap {x : ℤ × Frame} (hm : m ≠ 1) (hsorted : (x :: l).Pairwise (·.1 ≤ ·.1))
    (htime : ∀ f ∈ x :: l, 0 ≤ f.1 ∧ f.1 < day) (e : ℤ × Frame) :
    (((x :: l).zip (l ++ [e])).map fun p => gap m p.1 p.2).sum =
      ((x :: l).getLast (List.cons_ne_nil _ _)).1 - x.1 +
        gap m ((x :: l).getLast (List.cons_ne_nil _ _)) e := by
  induction l generalizing x with
  | nil => simp
  | cons y l ih =>
    obtain ⟨hx, hl⟩ := List.pairwise_cons.mp hsorted
    have hxy := hx y List.mem_cons_self
    have hxt := htime x List.mem_cons_self
    have hyt := htime y (List.mem_cons_of_mem _ List.mem_cons_self)
    have hgap : gap m x y = y.1 - x.1 := by
      rw [gap_eq hm]
      exact Int.emod_eq_of_lt (by omega) (by omega)
    rw [List.cons_append, List.zip_cons_cons, List.map_cons, List.sum_cons,
      ih hl fun f hf => htime f (List.mem_cons_of_mem _ hf), hgap,
      List.getLast_cons (List.cons_ne_nil y l)]
    ring

/-- The segments fill the day: there is one, each has a duration, the durations make a day, and each
starts where the one before it ends, around the clock. -/
structure Partition (segs : List Segment) : Prop where
  ne_nil : segs ≠ []
  pos : ∀ s ∈ segs, 0 < s.duration
  sum : (segs.map Segment.duration).sum = day
  next : Cycle.Chain (fun s s' => (s.start + s.duration) % day = s'.start % day)
    (segs : Cycle Segment)

/-- One frame, or two that have different times. -/
def Spread (fs : List (ℤ × Frame)) : Prop := fs.length = 1 ∨ ∃ f ∈ fs, ∃ g ∈ fs, f.1 ≠ g.1

theorem sum_durations {ps : List ((ℤ × Frame) × (ℤ × Frame))} (ht : 0 ≤ transition)
    (h : ∀ p ∈ ps, Linked m p.1 p.2) :
    ((ps.flatMap fun p => segmentsOf m transition p.1 p.2).map Segment.duration).sum =
      (ps.map fun p => gap m p.1 p.2).sum := by
  induction ps with
  | nil => rfl
  | cons p ps ih =>
    rw [List.flatMap_cons, List.map_append, List.sum_append, List.map_cons, List.sum_cons,
      ((h p List.mem_cons_self).durations ht).1, ih fun q hq => h q (List.mem_cons_of_mem _ hq)]

/-- The gaps make a day unless all of several frames have one time. -/
theorem sum_gaps (hspread : Spread (wp.assigned place)) :
    (((wp.timed place).zip ((wp.timed place).rotate 1)).map fun p =>
      gap (wp.timed place).length p.1 p.2).sum = day := by
  obtain ⟨hperm, hsorted⟩ := timed_spec wp place
  have htime : ∀ f ∈ wp.timed place, 0 ≤ f.1 ∧ f.1 < day := fun f hf =>
    assigned_time (hperm.mem_iff.mp hf)
  rw [Spread, ← hperm.length_eq] at hspread
  obtain ⟨l, hl⟩ : ∃ l, l = wp.timed place := ⟨_, rfl⟩
  rw [← hl] at hperm hsorted htime hspread ⊢
  rcases hspread with hone | ⟨f, hf, g, hg, hne⟩
  · obtain ⟨a, rfl⟩ := List.length_eq_one_iff.mp hone
    simp [gap]
  · replace hf := hperm.mem_iff.mpr hf
    replace hg := hperm.mem_iff.mpr hg
    obtain ⟨x, l, rfl⟩ := List.exists_cons_of_ne_nil (List.ne_nil_of_mem hf)
    obtain ⟨last, hlast⟩ : ∃ a, a = (x :: l).getLast (List.cons_ne_nil _ _) := ⟨_, rfl⟩
    have hmem : last ∈ x :: l := hlast ▸ List.getLast_mem _
    -- The first frame is earlier than the last one, since some two frames differ.
    have hends : ∀ a ∈ x :: l, x.1 ≤ a.1 ∧ a.1 ≤ last.1 := fun a ha => by
      refine ⟨?_, hlast ▸ hsorted.rel_getLast_of_rel_getLast_getLast ha le_rfl⟩
      rcases List.mem_cons.mp ha with rfl | ha
      · exact le_rfl
      · exact (List.pairwise_cons.mp hsorted).1 a ha
    have hlt : x.1 < last.1 := by
      have := hends f hf
      have := hends g hg
      omega
    have hm : (x :: l).length ≠ 1 := fun hone => by
      obtain ⟨a, ha⟩ := List.length_eq_one_iff.mp hone
      rw [ha] at hmem
      obtain ⟨rfl, -⟩ := List.cons.inj ha
      exact hlt.ne (congrArg Prod.fst (List.mem_singleton.mp hmem)).symm
    have hx := htime x List.mem_cons_self
    have hlt' := htime last hmem
    rw [List.rotate_cons_succ, List.rotate_zero, sum_gap hm hsorted htime x, ← hlast, gap_eq hm]
    simp only [day] at hx hlt' ⊢
    omega

theorem daySchedule_eq : wp.daySchedule place =
    ((wp.timed place).zip ((wp.timed place).rotate 1)).flatMap fun p =>
      segmentsOf (wp.timed place).length wp.transition p.1 p.2 := rfl

/-- Segments that lead from each frame to the next lead around the clock. -/
theorem leads_daySchedule {π : Type*} {step : π → Segment → π → Prop} (node : ℤ × Frame → π)
    (hne : wp.frames ≠ [])
    (h : ∀ f next, (f, next) ∈ (wp.timed place).zip ((wp.timed place).rotate 1) →
      Leads step (node f) (segmentsOf (wp.timed place).length wp.transition f next) (node next)) :
    ∃ p, Leads step p (wp.daySchedule place) p := by
  have hlen : (wp.timed place).length = wp.frames.length :=
    (timed_spec wp place).1.length_eq.trans length_assigned
  obtain ⟨n, hn⟩ : ∃ n, n = (wp.timed place).length := ⟨_, rfl⟩
  rw [daySchedule_eq]
  rw [← hn] at h ⊢
  cases htimed : wp.timed place with
  | nil =>
    rw [htimed] at hlen
    exact absurd (List.length_eq_zero_iff.mp hlen.symm) hne
  | cons x l =>
    rw [htimed, List.rotate_cons_succ, List.rotate_zero] at h
    rw [List.rotate_cons_succ, List.rotate_zero]
    exact ⟨node x, Leads.links fun p hp => h p.1 p.2 hp⟩

/-- **The segments fill the day** unless all of several frames have one time. -/
theorem daySchedule_partition (ht : 0 ≤ wp.transition) (hspread : Spread (wp.assigned place)) :
    Partition (wp.daySchedule place) := by
  have hlinked : ∀ p ∈ (wp.timed place).zip ((wp.timed place).rotate 1),
      Linked (wp.timed place).length p.1 p.2 := fun p hp => (linked_of_mem hp).1
  have hsum : ((wp.daySchedule place).map Segment.duration).sum = day :=
    (sum_durations ht hlinked).trans (sum_gaps hspread)
  have hne : wp.frames ≠ [] := by
    rintro he
    have hnil : wp.assigned place = [] := by rw [assigned, he]; rfl
    rw [hnil] at hspread
    rcases hspread with h | ⟨f, hf, -⟩
    · cases h
    · cases hf
  obtain ⟨t, hleads⟩ := leads_daySchedule (fun f => f.1 % day) hne fun f next hp =>
    (hlinked _ hp).leads_time ht
  refine ⟨fun he => ?_, fun s hs => ?_, hsum, ?_⟩
  · rw [he] at hsum
    exact absurd hsum (by decide)
  · obtain ⟨p, hp, hs⟩ := List.mem_flatMap.mp hs
    exact ((hlinked p hp).durations ht).2 s hs
  · refine hleads.chain.imp ?_
    rintro s s' ⟨-, m, -, ⟨-, hm⟩, hs', -⟩
    exact hm.trans hs'.symm

/-- There is no segment at all when several frames have one time and no other. -/
theorem daySchedule_eq_nil (ht : 0 ≤ wp.transition) :
    wp.daySchedule place = [] ↔ ¬Spread (wp.assigned place) := by
  refine ⟨fun he hspread => (daySchedule_partition ht hspread).ne_nil he, fun hspread => ?_⟩
  obtain ⟨hlen, hsame⟩ := not_or.mp hspread
  refine List.flatMap_eq_nil_iff.mpr fun p hp => ?_
  obtain ⟨hlinked, hf, hn⟩ := linked_of_mem hp
  have heq : p.1.1 = p.2.1 := by
    by_contra hne
    exact hsame ⟨p.1, hf, p.2, hn, hne⟩
  refine segmentsOf_of_gap_eq_zero ?_ ht
  rw [gap_eq (fun hone => hlen ((timed_spec wp place).1.length_eq.symm.trans hone)), heq]
  simp

/-- **Each segment ends with the image that the next one starts with**, unless it is cut off, when
frames that have one time show one image. -/
theorem daySchedule_images (ht : 0 ≤ wp.transition) (hne : wp.frames ≠ [])
    (hsame : ∀ f ∈ wp.assigned place, ∀ g ∈ wp.assigned place, f.1 = g.1 →
      f.2.image = g.2.image) :
    Cycle.Chain (fun s s' => s.toImage = s'.fromImage ∨ Cut wp.transition s)
      (wp.daySchedule place : Cycle Segment) := by
  obtain ⟨img, hleads⟩ := leads_daySchedule (fun f => f.2.image) hne fun f next hp =>
    (linked_of_mem hp).1.leads_image ht
      (hsame f (linked_of_mem hp).2.1 next (linked_of_mem hp).2.2)
  refine hleads.chain.imp ?_
  rintro s s' ⟨-, m, -, ⟨-, hm⟩, hs', -⟩
  exact hm.imp_left fun he => he.trans hs'.symm

/-! ### What is shown -/

/-- The loop stops at one of the segments. -/
theorem seek_spec {segs : List Segment} {x cursor : ℤ} {st : State}
    (h : seek x cursor segs = some st) : ∃ s ∈ segs, ∃ into, st = s.state into := by
  induction segs generalizing cursor with
  | nil => cases h
  | cons s segs ih =>
    rw [seek] at h
    split_ifs at h
    · exact ⟨s, List.mem_cons_self, _, (Option.some.inj h).symm⟩
    · obtain ⟨s', hs', hst⟩ := ih h
      exact ⟨s', List.mem_cons_of_mem _ hs', hst⟩

/-- Only images of the segments are shown. -/
theorem evaluateCycle_images {segs : List Segment} {imgs : List Text} (hne : segs ≠ [])
    (h : ∀ s ∈ segs, s.fromImage ∈ imgs ∧ s.toImage ∈ imgs) (offset : ℤ) :
    (evaluateCycle segs offset).fromImage ∈ imgs ∧ (evaluateCycle segs offset).toImage ∈ imgs := by
  obtain ⟨first, rest, rfl⟩ := List.exists_cons_of_ne_nil hne
  have hfirst := h first List.mem_cons_self
  rw [evaluateCycle]
  dsimp only
  split
  · exact ⟨hfirst.1, hfirst.1⟩
  · split
    · next st hst =>
      obtain ⟨s, hs, into, rfl⟩ := seek_spec hst
      rw [Segment.state]
      split
      · exact ⟨(h s hs).1, (h s hs).1⟩
      · exact h s hs
    · have hlast := h _ (List.getLast_mem (List.cons_ne_nil first rest))
      exact ⟨hlast.2, hlast.2⟩

theorem images_daySchedule {s : Segment} (h : s ∈ wp.daySchedule place) :
    s.fromImage ∈ wp.frames.map Frame.image ∧ s.toImage ∈ wp.frames.map Frame.image := by
  have himage : ∀ f ∈ wp.assigned place, f.2.image ∈ wp.frames.map Frame.image := fun f hf => by
    obtain ⟨p, hp, rfl⟩ := List.mem_map.mp hf
    exact List.mem_map_of_mem (List.fst_mem_of_mem_zipIdx hp)
  obtain ⟨p, hp, hs⟩ := List.mem_flatMap.mp h
  obtain ⟨-, hf, hn⟩ := linked_of_mem hp
  obtain ⟨hfrom, hto⟩ := mem_segmentsOf hs
  refine ⟨hfrom ▸ himage _ hf, ?_⟩
  rcases hto with hto | hto
  · exact hto ▸ himage _ hf
  · exact hto ▸ himage _ hn

/-- **The schedule of a day**, where not all of several frames have one time: the segments fill the
day, and only images of the frames are shown. Where frames of one time also show one image, each
segment ends with the image that the next one starts with, unless there is no transition or no
second for one. -/
theorem daySchedule_spec (hk : wp.kind = .time ∨ wp.kind = .solar) (ht : 0 ≤ wp.transition)
    (hspread : Spread (wp.assigned place)) :
    Partition (wp.daySchedule place) ∧
      ((∀ f ∈ wp.assigned place, ∀ g ∈ wp.assigned place, f.1 = g.1 → f.2.image = g.2.image) →
        Cycle.Chain (fun s s' => s.toImage = s'.fromImage ∨ Cut wp.transition s)
          (wp.daySchedule place : Cycle Segment)) ∧
      ∀ darkMode sinceMidnight sinceAnchor,
        (wp.evaluate place darkMode sinceMidnight sinceAnchor).fromImage ∈
            wp.frames.map Frame.image ∧
          (wp.evaluate place darkMode sinceMidnight sinceAnchor).toImage ∈
            wp.frames.map Frame.image := by
  have hpart := daySchedule_partition ht hspread
  have hne : wp.frames ≠ [] := by
    rintro he
    have hnil : wp.daySchedule place = [] := by rw [daySchedule, timed, assigned, he]; rfl
    exact hpart.ne_nil hnil
  refine ⟨hpart, daySchedule_images ht hne, fun darkMode sinceMidnight sinceAnchor => ?_⟩
  have heval : wp.evaluate place darkMode sinceMidnight sinceAnchor =
      evaluateCycle (wp.daySchedule place) sinceMidnight := by
    rcases hk with h | h <;> rw [evaluate, h]
  rw [heval]
  exact evaluateCycle_images hpart.ne_nil (fun s hs => images_daySchedule hs) _

/-- Two images that change at six, with a transition of some seconds. -/
def sixToSix (transition : ℤ) : Wallpaper where
  transition := transition
  frames := [{ image := ofString "/day.png", timeSeconds := 21600 },
    { image := ofString "/night.png", timeSeconds := 64800 }]

/-- Nowhere in particular. -/
def nowhere : Place where
  haveLocation := false
  timeForElevation _ _ := -1

theorem daySchedule_spec_sixToSix : Partition ((sixToSix 3600).daySchedule nowhere) ∧
    Cycle.Chain (fun s s' => s.toImage = s'.fromImage ∨ Cut 3600 s)
      ((sixToSix 3600).daySchedule nowhere : Cycle Segment) :=
  have hspread : Spread ((sixToSix 3600).assigned nowhere) := .inr (by decide)
  have h := daySchedule_spec (.inl rfl) (by decide) hspread
  ⟨h.1, h.2.1 (by decide)⟩

/-- Without a transition the image is cut at each change. -/
theorem not_blended_of_no_transition : ¬∀ (wp : Wallpaper) (place : Place),
    (wp.kind = .time ∨ wp.kind = .solar) → wp.frames ≠ [] →
    0 ≤ wp.transition ∧ wp.transition ≤ 43200 →
    Cycle.Chain (fun s s' => s.toImage = s'.fromImage)
      (wp.daySchedule place : Cycle Segment) := by
  intro h
  have hsegs : (sixToSix 0).daySchedule nowhere =
      [⟨21600, 43200, ofString "/day.png", ofString "/day.png"⟩,
        ⟨64800, 43200, ofString "/night.png", ofString "/night.png"⟩] := by decide
  have hchain := h (sixToSix 0) nowhere (.inl rfl) (by decide) (by decide)
  rw [hsegs, Cycle.chain_coe_cons, List.cons_append, List.isChain_cons_cons] at hchain
  exact absurd hchain.1 (by decide)

end Wallpaper

end SingularityShell
