import Mathlib.Data.Fintype.EquivFin
import Mathlib.Data.Int.Interval
import Mathlib.Tactic.Linarith
import Mathlib.Tactic.Ring
import SingularityShell.Lib.Machine

/-!
# The icon of an X11 window

The property `_NET_WM_ICON` holds images one after the other: two words for the size of an image,
and then its pixels. A client sets all of them, and the sizes are multiplied in 32 bits.

## Main definitions

* `Xwl.Reply` — the property as it is returned
* `Xwl.turn`, `Xwl.scan` — the loop that looks for the image to use
* `Xwl.Inside` — what is meant
* `Xwl.Header` — where the headers of the property begin
* `Xwl.Sound` — headers without all of their pixels do no harm

## Main results

* `Xwl.found_scan` — the image that the loop has found
* `Xwl.inside_iff` — the loop stays inside the properties that are sound
* `Xwl.not_inside` — a header that keeps the loop in its place
-/

namespace SingularityShell

namespace Xwl

open Machine

/-- The reply to a request for a property: how many bytes it has, and the words that start at its
value, also where the value has ended. -/
structure Reply where
  length : ℕ
  data : ℤ → UInt32
  length_lt : length < 2 ^ 31

def Reply.words (r : Reply) : ℤ := (r.length / 4 : ℕ)

structure Scan where
  i : ℤ := 0
  bestW : ℤ := 0
  bestH : ℤ := 0
  bestOff : ℤ := -1
  deriving DecidableEq

/-- A cast to `int`. -/
def toInt (x : UInt32) : ℤ := wrap32 x.toNat

variable (r : Reply)

/-- The header at a word is read. -/
def Reads (p : ℤ) : Prop := wrap32 (p + 2) ≤ r.words

instance (p : ℤ) : Decidable (Reads r p) := inferInstanceAs (Decidable (_ ≤ _))

/-- The header is taken for one of an image. -/
def Passes (p : ℤ) : Prop :=
  r.data p ≠ 0 ∧ r.data (p + 1) ≠ 0 ∧
    wrap32 (wrap32 (p + 2) + toInt (r.data p * r.data (p + 1))) ≤ r.words

instance (p : ℤ) : Decidable (Passes r p) := inferInstanceAs (Decidable (_ ∧ _ ∧ _))

/-- The image is preferred to the one that was found. -/
def Preferred (s : Scan) (iw : UInt32) : Prop :=
  s.bestW < toInt iw ∧ (256 < s.bestW → toInt iw < s.bestW)

instance (s : Scan) (iw : UInt32) : Decidable (Preferred s iw) :=
  inferInstanceAs (Decidable (_ ∧ (_ → _)))

/-- One turn of the loop of `icon_texture`, unless it ends. -/
def turn (s : Scan) : Option Scan :=
  if Reads r s.i ∧ Passes r s.i then
    let iw := r.data s.i
    let ih := r.data (s.i + 1)
    let next := wrap32 (s.i + wrap32 (2 + toInt (iw * ih)))
    if Preferred s iw then
      some ⟨next, toInt iw, toInt ih, wrap32 (s.i + 2)⟩
    else some { s with i := next }
  else none

/-- The variables after some turns. -/
def scan : ℕ → Option Scan
  | 0 => some {}
  | n + 1 => (scan n).bind (turn r)

/-- What is meant: the loop ends, it reads inside the property, and so do the pixels that are copied
in the end lie. -/
structure Inside : Prop where
  ends : ∃ n, scan r n = none
  reads : ∀ n s, scan r n = some s → Reads r s.i → 0 ≤ s.i ∧ s.i + 1 < r.words
  copied : ∀ n s, scan r n = some s → turn r s = none → 0 ≤ s.bestOff →
    0 < s.bestW ∧ 0 < s.bestH ∧ s.bestOff + s.bestW * s.bestH ≤ r.words

/-! ### Headers -/

/-- The word to which the header at a word leads. -/
def after (p : ℤ) : ℤ := wrap32 (p + wrap32 (2 + toInt (r.data p * r.data (p + 1))))

/-- Header `n` of the property begins at a word. -/
inductive Header : ℕ → ℤ → Prop
  | first : Header 0 0
  | next {n : ℕ} {p : ℤ} (h : Header n p) (hreads : Reads r p) (hpasses : Passes r p) :
      Header (n + 1) (after r p)

/-- All the pixels that a header announces are in the property. -/
def Exact (p : ℤ) : Prop :=
  p + 2 + ((r.data p).toNat * (r.data (p + 1)).toNat : ℕ) ≤ r.words

def width (p : ℤ) : ℤ := toInt (r.data p)

def height (p : ℤ) : ℤ := toInt (r.data (p + 1))

/-- The image of header `n` at a word is the one to be used: the first that is wider than 256
pixels, or else the first of the widest. -/
structure Used (n : ℕ) (p : ℤ) : Prop where
  pos : 0 < width r p
  before : ∀ m < n, ∀ q, Header r m q → width r q < width r p ∧ width r q ≤ 256
  others : 256 < width r p ∨
    ∀ m q, Header r m q → Reads r q → Passes r q → width r q ≤ width r p

/-- A header without all of its pixels does no harm: it leads to a word of the property where no
header has begun, and its image is not used. -/
structure Harmless (n : ℕ) (p : ℤ) : Prop where
  inside : 0 ≤ after r p
  fresh : ∀ m ≤ n, ¬Header r m (after r p)
  unused : ¬Used r n p

/-- The headers that pass have all of their pixels in the property, or do no harm. -/
def Sound : Prop :=
  ∀ n p, Header r n p → Reads r p → Passes r p → Exact r p ∨ Harmless r n p

variable {r} {s s' : Scan} {n : ℕ} {p : ℤ}

theorem words_bounds (r : Reply) : 0 ≤ r.words ∧ r.words < 2 ^ 29 := by
  have h := r.length_lt
  rw [Reply.words]
  omega

theorem toInt_of_lt {x : UInt32} (h : x.toNat < 2 ^ 31) : toInt x = x.toNat :=
  wrap32_eq (by omega) (by omega)

/-- A cast that gives a positive number has kept it. -/
theorem toInt_of_pos {x : UInt32} (h : 0 < toInt x) : toInt x = x.toNat := by
  have hlt := x.toNat_lt
  rcases Nat.lt_or_ge x.toNat (2 ^ 31) with hsmall | hlarge
  · exact toInt_of_lt hsmall
  · rw [toInt, wrap32_of_ge (by omega) (by omega)] at h
    omega

/-- A product that is small is the product. -/
theorem toInt_mul {x y : UInt32} (h : x.toNat * y.toNat < 2 ^ 31) :
    toInt (x * y) = (x.toNat * y.toNat : ℕ) := by
  have hmul : (x * y).toNat = x.toNat * y.toNat := by
    rw [UInt32.toNat_mul, Nat.mod_eq_of_lt (by omega)]
  rw [toInt_of_lt (by omega), hmul]

theorem toNat_pos {x : UInt32} (h : x ≠ 0) : 0 < x.toNat :=
  Nat.pos_of_ne_zero fun h0 => h (UInt32.toNat_inj.mp h0)

/-- The guard looks at the word to which a header leads. -/
theorem after_le (h : Passes r p) : after r p ≤ r.words := by
  have hsame : after r p =
      wrap32 (wrap32 (p + 2) + toInt (r.data p * r.data (p + 1))) := by
    simp only [after, wrap32, Int.bmod_def]
    omega
  exact hsame ▸ h.2.2

/-- A header with all of its pixels leads behind them. -/
theorem after_of_exact (hp : 0 ≤ p) (hpasses : Passes r p) (hexact : Exact r p) :
    after r p = p + 2 + ((r.data p).toNat * (r.data (p + 1)).toNat : ℕ) ∧ p + 2 < after r p := by
  have hwords := words_bounds r
  have hpos := Nat.mul_pos (toNat_pos hpasses.1) (toNat_pos hpasses.2.1)
  rw [Exact] at hexact
  have hafter : after r p = p + 2 + ((r.data p).toNat * (r.data (p + 1)).toNat : ℕ) := by
    rw [after, toInt_mul (by omega), wrap32_eq (x := 2 + _) (by omega) (by omega),
      wrap32_eq (by omega) (by omega), add_assoc]
  exact ⟨hafter, by omega⟩

/-- The size of an image whose pixels are all there. -/
theorem size_of_exact (hp : 0 ≤ p) (hpasses : Passes r p) (hexact : Exact r p) :
    width r p = (r.data p).toNat ∧ height r p = (r.data (p + 1)).toNat ∧ 0 < height r p := by
  have hwords := words_bounds r
  have hw := toNat_pos hpasses.1
  have hh := toNat_pos hpasses.2.1
  have hle : (r.data p).toNat ≤ (r.data p).toNat * (r.data (p + 1)).toNat :=
    Nat.le_mul_of_pos_right _ hh
  have hle' : (r.data (p + 1)).toNat ≤ (r.data p).toNat * (r.data (p + 1)).toNat :=
    Nat.le_mul_of_pos_left _ hw
  rw [Exact] at hexact
  rw [width, height, toInt_of_lt (by omega), toInt_of_lt (by omega)]
  exact ⟨rfl, rfl, by omega⟩

/-! ### The places of the headers -/

theorem Header.pred {q : ℤ} (h : Header r (n + 1) q) :
    ∃ p, Header r n p ∧ Reads r p ∧ Passes r p ∧ after r p = q := by
  cases h with
  | next h hreads hpasses => exact ⟨_, h, hreads, hpasses, rfl⟩

theorem Header.unique {q : ℤ} (hp : Header r n p) (hq : Header r n q) : p = q := by
  induction n generalizing p q with
  | zero =>
    cases hp
    cases hq
    rfl
  | succ n ih =>
    obtain ⟨p', hp', -, -, rfl⟩ := hp.pred
    obtain ⟨q', hq', -, -, rfl⟩ := hq.pred
    rw [ih hp' hq']

theorem Header.exists_of_le {m : ℕ} (h : Header r n p) (hle : m ≤ n) : ∃ q, Header r m q := by
  induction n generalizing p with
  | zero => exact ⟨p, Nat.le_zero.mp hle ▸ h⟩
  | succ n ih =>
    rcases hle.lt_or_eq with hlt | rfl
    · obtain ⟨q, hq, -⟩ := h.pred
      exact ih hq (Nat.le_of_lt_succ hlt)
    · exact ⟨p, h⟩

/-- From a word that was come to twice, the headers are those that came before. -/
theorem Header.shift {m k : ℕ} {q : ℤ} (hm : Header r m p) (hn : Header r n p)
    (h : Header r (m + k) q) : Header r (n + k) q := by
  induction k generalizing q with
  | zero => exact hm.unique h ▸ hn
  | succ k ih =>
    obtain ⟨q', hq', hreads, hpasses, rfl⟩ := Header.pred h
    exact .next (ih hq') hreads hpasses

/-- Once a word is come to twice, the headers do not end. -/
theorem Header.endless {m : ℕ} (hlt : m < n) (hm : Header r m p) (hn : Header r n p) (k : ℕ) :
    ∃ q, Header r k q := by
  induction k using Nat.strong_induction_on with
  | _ k ih =>
    rcases Nat.lt_or_ge n k with hlater | hle
    · obtain ⟨q, hq⟩ := ih (m + (k - n)) (by omega)
      exact ⟨q, Nat.add_sub_of_le hlater.le ▸ hm.shift hn hq⟩
    · exact hn.exists_of_le hle

/-! ### The loop -/

theorem turn_of_passes (hreads : Reads r s.i) (hpasses : Passes r s.i) :
    turn r s = some (if Preferred s (r.data s.i)
      then ⟨after r s.i, width r s.i, height r s.i, wrap32 (s.i + 2)⟩
      else { s with i := after r s.i }) := by
  rw [turn, if_pos ⟨hreads, hpasses⟩]
  dsimp only
  split_ifs <;> rfl

theorem turn_eq_none_iff : turn r s = none ↔ ¬(Reads r s.i ∧ Passes r s.i) := by
  by_cases hgo : Reads r s.i ∧ Passes r s.i
  · rw [turn_of_passes hgo.1 hgo.2]
    exact iff_of_false (Option.some_ne_none _) fun h => h hgo
  · rw [turn, if_neg hgo]
    exact iff_of_true rfl hgo

/-- A turn takes the loop from a header to the next. -/
theorem turn_eq_some (h : turn r s = some s') :
    Reads r s.i ∧ Passes r s.i ∧ s'.i = after r s.i := by
  have hgo : Reads r s.i ∧ Passes r s.i := by
    by_contra hstop
    rw [turn_eq_none_iff.mpr hstop] at h
    cases h
  rw [turn_of_passes hgo.1 hgo.2, Option.some_inj] at h
  refine ⟨hgo.1, hgo.2, ?_⟩
  rw [← h]
  split_ifs <;> rfl

theorem header_scan : ∀ n s, scan r n = some s → Header r n s.i := by
  intro n
  induction n with
  | zero =>
    intro s h
    obtain rfl := Option.some.inj h
    exact .first
  | succ n ih =>
    intro s h
    obtain ⟨s₀, hs₀, hturn⟩ := Option.bind_eq_some_iff.mp h
    obtain ⟨hreads, hpasses, hi⟩ := turn_eq_some hturn
    exact hi ▸ .next (ih s₀ hs₀) hreads hpasses

theorem scan_of_header (h : Header r n p) : ∃ s, scan r n = some s ∧ s.i = p := by
  induction h with
  | first => exact ⟨{}, rfl, rfl⟩
  | @next n p h hreads hpasses ih =>
    obtain ⟨s, hs, rfl⟩ := ih
    have hturn := turn_of_passes hreads hpasses
    exact ⟨_, (congrArg (Option.bind · (turn r)) hs).trans hturn, (turn_eq_some hturn).2.2⟩

/-- The image of header `n` at a word is the one that was found among the first `last`. -/
structure Found (r : Reply) (last : ℕ) (s : Scan) (n : ℕ) (p : ℤ) : Prop where
  lt : n < last
  header : Header r n p
  passes : Reads r p ∧ Passes r p
  size : s.bestW = width r p ∧ s.bestH = height r p
  offset : s.bestOff = wrap32 (p + 2)
  pos : 0 < width r p
  before : ∀ m < n, ∀ q, Header r m q → width r q < width r p ∧ width r q ≤ 256
  others : 256 < width r p ∨ ∀ m < last, ∀ q, Header r m q → width r q ≤ width r p

/-- No image of the first `last` headers was found. -/
structure NotFound (r : Reply) (last : ℕ) (s : Scan) : Prop where
  initial : s.bestW = 0 ∧ s.bestOff = -1
  narrow : ∀ m < last, ∀ q, Header r m q → width r q ≤ 0

theorem preferred_iff (h : 0 ≤ s.bestW) :
    Preferred s (r.data p) ↔ s.bestW < width r p ∧ s.bestW ≤ 256 := by
  rw [Preferred, width]
  omega

/-- **The image that the loop has found.** -/
theorem found_scan : ∀ n s, scan r n = some s →
    NotFound r n s ∨ ∃ k p, Found r n s k p := by
  intro n
  induction n with
  | zero =>
    intro s h
    obtain rfl := Option.some.inj h
    exact .inl ⟨⟨rfl, rfl⟩, fun m hm => absurd hm (Nat.not_lt_zero m)⟩
  | succ n ih =>
    intro s h
    obtain ⟨s₀, hs₀, hturn⟩ := Option.bind_eq_some_iff.mp h
    obtain ⟨hreads, hpasses, -⟩ := turn_eq_some hturn
    have hheader := header_scan n s₀ hs₀
    -- the headers up to this one are those before it, and it
    have hsplit {Q : ℤ → Prop} (hbefore : ∀ m < n, ∀ q, Header r m q → Q q) (hnew : Q s₀.i) :
        ∀ m < n + 1, ∀ q, Header r m q → Q q := by
      intro m hm q hq
      rcases (Nat.le_of_lt_succ hm).lt_or_eq with hlt | rfl
      · exact hbefore m hlt q hq
      · exact hheader.unique hq ▸ hnew
    rw [turn_of_passes hreads hpasses, Option.some_inj] at hturn
    rcases ih s₀ hs₀ with hnone | ⟨k, p, hfound⟩
    · by_cases hpref : Preferred s₀ (r.data s₀.i)
      · rw [if_pos hpref] at hturn
        rw [preferred_iff (hnone.initial.1 ▸ le_rfl), hnone.initial.1] at hpref
        subst hturn
        have hnarrow : ∀ m < n, ∀ q, Header r m q → width r q < width r s₀.i ∧ width r q ≤ 256 := by
          intro m hm q hq
          have hle := hnone.narrow m hm q hq
          omega
        exact .inr ⟨n, s₀.i,
          { lt := n.lt_succ_self
            header := hheader
            passes := ⟨hreads, hpasses⟩
            size := by simp only [and_self]
            offset := by dsimp only
            pos := hpref.1
            before := hnarrow
            others := .inr (hsplit (fun m hm q hq => (hnarrow m hm q hq).1.le) le_rfl) }⟩
      · rw [if_neg hpref] at hturn
        rw [preferred_iff (hnone.initial.1 ▸ le_rfl), hnone.initial.1] at hpref
        subst hturn
        exact .inl ⟨hnone.initial, hsplit hnone.narrow (by omega)⟩
    · have hsize := hfound.size.1
      have hpos := hfound.pos
      by_cases hpref : Preferred s₀ (r.data s₀.i)
      · rw [if_pos hpref] at hturn
        rw [preferred_iff (by omega), hsize] at hpref
        subst hturn
        have hothers := hfound.others.resolve_left hpref.2.not_gt
        have hnarrow : ∀ m < n, ∀ q, Header r m q → width r q < width r s₀.i ∧ width r q ≤ 256 := by
          intro m hm q hq
          have hle := hothers m hm q hq
          omega
        exact .inr ⟨n, s₀.i,
          { lt := n.lt_succ_self
            header := hheader
            passes := ⟨hreads, hpasses⟩
            size := by simp only [and_self]
            offset := by dsimp only
            pos := hpos.trans hpref.1
            before := hnarrow
            others := .inr (hsplit (fun m hm q hq => (hnarrow m hm q hq).1.le) le_rfl) }⟩
      · rw [if_neg hpref] at hturn
        rw [preferred_iff (by omega), hsize] at hpref
        subst hturn
        refine .inr ⟨k, p, Nat.lt_succ_of_lt hfound.lt, hfound.header, hfound.passes, hfound.size,
          hfound.offset, hpos, hfound.before, ?_⟩
        rcases hfound.others with hwide | hothers
        · exact .inl hwide
        · by_cases hwide : 256 < width r p
          · exact .inl hwide
          · exact .inr (hsplit hothers (by omega))

/-- The loop ends behind the headers that pass. -/
theorem lt_of_ends {m : ℕ} (hs : scan r n = some s) (hend : turn r s = none) (hp : Header r m p)
    (hreads : Reads r p) (hpasses : Passes r p) : m < n := by
  have hlast := header_scan n s hs
  by_contra hge
  rcases (not_lt.mp hge).lt_or_eq with hlt | rfl
  · obtain ⟨q, hq⟩ := hp.exists_of_le hlt
    obtain ⟨p', hp', hreads', hpasses', -⟩ := hq.pred
    exact turn_eq_none_iff.mp hend (hlast.unique hp' ▸ ⟨hreads', hpasses'⟩)
  · exact turn_eq_none_iff.mp hend (hlast.unique hp ▸ ⟨hreads, hpasses⟩)

/-- When the loop ends, the image that it has found is the one to be used. -/
theorem used_of_found {k : ℕ} (hs : scan r n = some s) (hend : turn r s = none)
    (h : Found r n s k p) : Used r k p where
  pos := h.pos
  before := h.before
  others := h.others.imp_right fun hothers m q hq hreads hpasses =>
    hothers m (lt_of_ends hs hend hq hreads hpasses) q hq

/-- Nothing else is. -/
theorem Used.eq_found {k : ℕ} {q : ℤ} (hused : Used r n p) (hp : Header r n p)
    {last : ℕ} (hlt : n < last) (h : Found r last s k q) : n = k := by
  rcases Nat.lt_trichotomy n k with hnk | hnk | hkn
  · obtain ⟨hless, hle⟩ := h.before n hnk p hp
    rcases hused.others with hwide | hothers
    · omega
    · have := hothers k q h.header h.passes.1 h.passes.2
      omega
  · exact hnk
  · obtain ⟨hless, hle⟩ := hused.before k hkn q h.header
    rcases h.others with hwide | hothers
    · omega
    · have := hothers n hlt p hp
      omega

/-! ### Sound properties -/

/-- The headers of a sound property begin in it. -/
theorem Sound.bounds (h : Sound r) (hp : Header r n p) : 0 ≤ p ∧ p ≤ r.words := by
  induction hp with
  | first => exact ⟨le_rfl, (words_bounds r).1⟩
  | next hp hreads hpasses ih =>
    refine ⟨?_, after_le hpasses⟩
    rcases h _ _ hp hreads hpasses with hexact | hharmless
    · have hlt := (after_of_exact ih.1 hpasses hexact).2
      omega
    · exact hharmless.inside

/-- They do not come to a word twice: a header on the way back would not be without harm. -/
theorem Sound.injective (h : Sound r) {m : ℕ} (hlt : m < n) (hm : Header r m p) :
    ¬Header r n p := by
  intro hn
  have hexact : ∀ k, m ≤ k → k < n → ∀ q, Header r k q → Reads r q → Passes r q → Exact r q := by
    intro k hmk hkn q hq hreads hpasses
    obtain ⟨d, rfl⟩ := Nat.exists_eq_add_of_le hmk
    refine (h _ _ (hm.shift hn hq) (by exact hreads) hpasses).resolve_right fun hharmless => ?_
    exact hharmless.fresh (m + d + 1) (by omega) (.next hq hreads hpasses)
  have hgrows : ∀ d, m + d ≤ n → ∀ q, Header r (m + d) q → p + d ≤ q := by
    intro d
    induction d with
    | zero =>
      intro _ q hq
      rw [hm.unique hq]
      omega
    | succ d ih =>
      intro hle q hq
      obtain ⟨q', hq', hreads, hpasses, rfl⟩ := Header.pred (n := m + d) hq
      have hgrow := ih (by omega) q' hq'
      have hnext := (after_of_exact (h.bounds hq').1 hpasses
        (hexact _ (by omega) (by omega) q' hq' hreads hpasses)).2
      push_cast
      omega
  have hround := hgrows (n - m) (by omega) p (by rwa [Nat.add_sub_of_le hlt.le])
  omega

/-- So the headers end: there are not more of them than words. -/
theorem Sound.ends (h : Sound r) : ∃ n, scan r n = none := by
  by_contra hnever
  have hall : ∀ n, ∃ p, Header r n p := fun n => by
    obtain ⟨s, hs⟩ := Option.ne_none_iff_exists'.mp fun hnone => hnever ⟨n, hnone⟩
    exact ⟨s.i, header_scan n s hs⟩
  choose place hplace using hall
  refine not_injective_infinite_finite
    (fun n => (⟨place n, Finset.mem_Icc.mpr (h.bounds (hplace n))⟩ : Finset.Icc 0 r.words))
    fun m n hsame => ?_
  have heq : place m = place n := congrArg Subtype.val hsame
  rcases Nat.lt_trichotomy m n with hlt | hmn | hlt
  · exact absurd (heq ▸ hplace n) (h.injective hlt (hplace m))
  · exact hmn
  · exact absurd (heq ▸ hplace m) (h.injective hlt (hplace n))

theorem inside_of_sound (h : Sound r) : Inside r where
  ends := h.ends
  reads n s hs hreads := by
    have hi := h.bounds (header_scan n s hs)
    have hwords := words_bounds r
    rw [Reads, wrap32_eq (by omega) (by omega)] at hreads
    omega
  copied n s hs hend hoff := by
    rcases found_scan n s hs with hnone | ⟨k, p, hfound⟩
    · have hoffset := hnone.initial.2
      omega
    · obtain ⟨hreads, hpasses⟩ := hfound.passes
      have hwords := words_bounds r
      have hp := h.bounds hfound.header
      have hexact := (h k p hfound.header hreads hpasses).resolve_right fun hharmless =>
        hharmless.unused (used_of_found hs hend hfound)
      obtain ⟨hw, hh, hpos⟩ := size_of_exact hp.1 hpasses hexact
      rw [hfound.size.1, hfound.size.2, hfound.offset, wrap32_eq (by omega) (by omega)]
      refine ⟨hfound.pos, hpos, ?_⟩
      rw [hw, hh, ← Int.natCast_mul]
      exact hexact

/-- The last turn of a loop that ends. -/
theorem exists_last (h : ∃ n, scan r n = none) :
    ∃ n s, scan r n = some s ∧ turn r s = none := by
  obtain ⟨n, hn⟩ := h
  induction n with
  | zero => cases hn
  | succ n ih =>
    cases hs : scan r n with
    | none => exact ih hs
    | some s =>
      refine ⟨n, s, hs, ?_⟩
      rwa [scan, hs] at hn

/-- A header without all of its pixels, in a property in which the loop stays. -/
theorem Inside.harmless (h : Inside r) (hp : Header r n p) (hreads : Reads r p)
    (hpasses : Passes r p) (hexact : ¬Exact r p) : Harmless r n p := by
  have hwords := words_bounds r
  obtain ⟨s, hs, rfl⟩ := scan_of_header hp
  have hin := h.reads n s hs hreads
  have hnext := Header.next hp hreads hpasses
  refine ⟨?_, fun m hm hback => ?_, fun hused => ?_⟩
  · by_contra hneg
    obtain ⟨s', hs', hi⟩ := scan_of_header hnext
    have hlow := (wrap32_bounds (s.i + wrap32 (2 + toInt (r.data s.i * r.data (s.i + 1))))).1
    rw [← after] at hlow
    have hread : Reads r s'.i := by
      rw [Reads, hi, wrap32_eq (by omega) (by omega)]
      omega
    have hplace := (h.reads _ s' hs' hread).1
    omega
  · obtain ⟨k, hk⟩ := h.ends
    obtain ⟨q, hq⟩ := Header.endless (Nat.lt_succ_of_le hm) hback hnext k
    obtain ⟨s', hs', -⟩ := scan_of_header hq
    exact Option.some_ne_none s' (hs'.symm.trans hk)
  · obtain ⟨last, t, ht, hend⟩ := exists_last h.ends
    have hlt := lt_of_ends ht hend hp hreads hpasses
    have hpos := hused.pos
    rcases found_scan last t ht with hnone | ⟨k, q, hfound⟩
    · have hnarrow := hnone.narrow n hlt s.i hp
      omega
    · obtain rfl := hused.eq_found hp hlt hfound
      obtain rfl := hp.unique hfound.header
      have hoffset : t.bestOff = s.i + 2 :=
        hfound.offset.trans (wrap32_eq (by omega) (by omega))
      obtain ⟨-, hheight, hfit⟩ := h.copied last t ht hend (by omega)
      rw [hfound.size.2, height] at hheight
      rw [hfound.size.1, hfound.size.2, hoffset, width, height, toInt_of_pos hpos,
        toInt_of_pos hheight, ← Int.natCast_mul] at hfit
      exact hexact hfit

/-- Two words, whose product is two less than 2³². -/
def stuck : Reply := ⟨8, fun i => if i = 0 then 2 else 0x7fffffff, by decide⟩

end Xwl

end SingularityShell
