import Mathlib.Data.List.Basic
import Mathlib.Data.Rat.Defs
import Mathlib.Algebra.Field.Rat
import SingularityShell.Calculator.Parser

/-!
# The calculator's grammar

The parser takes exactly the expressions of its grammar, where a number is whatever run of digits
and dots there is.

## Main definitions

* `Calculator.Derives` — the grammar, with the value of what is derived
* `Calculator.Accepts` — an expression and its value
* `Calculator.Lenient`, `Calculator.Proper` — the runs that are scanned, and those that are numbers
* `Calculator.RunsProper` — all runs of digits and dots of a text are numbers
* `Calculator.Exact` — what is meant

## Main results

* `Calculator.complete_of_derives` — what is derived is parsed
* `Calculator.sound_expr` — what is parsed is derived
* `Calculator.parse_eq_some_iff` — both, for a whole text
* `Calculator.exact_iff` — when the parser takes numbers only
* `Calculator.not_exact` — a number with two dots
-/

namespace SingularityShell

namespace Calculator

open Ascii

inductive Nonterminal where
  | expr
  | term
  | power
  | unary
  | primary
  deriving DecidableEq

def Blank (text : Text) : Prop := ∀ b ∈ text, isBlank b = true

/-- What is derived from a nonterminal, and its value. Blanks may come before every token, and
divisors are not zero. -/
inductive Derives {α : Type*} (A : Arithmetic α) (N : Text → Prop) :
    Nonterminal → Text → α → Prop
  | term {s v} : Derives A N .term s v → Derives A N .expr s v
  | add {s b t v w} : Derives A N .expr s v → Blank b → Derives A N .term t w →
    Derives A N .expr (s ++ (b ++ 43 :: t)) (A.add v w)
  | sub {s b t v w} : Derives A N .expr s v → Blank b → Derives A N .term t w →
    Derives A N .expr (s ++ (b ++ 45 :: t)) (A.sub v w)
  | power {s v} : Derives A N .power s v → Derives A N .term s v
  | mul {s b t v w} : Derives A N .term s v → Blank b → Derives A N .power t w →
    Derives A N .term (s ++ (b ++ 42 :: t)) (A.mul v w)
  | div {s b t v w} : Derives A N .term s v → Blank b → Derives A N .power t w →
    A.isZero w = false → Derives A N .term (s ++ (b ++ 47 :: t)) (A.div v w)
  | unary {s v} : Derives A N .unary s v → Derives A N .power s v
  | pow {s b t v w} : Derives A N .unary s v → Blank b → Derives A N .power t w →
    Derives A N .power (s ++ (b ++ 42 :: 42 :: t)) (A.pow v w)
  | plus {b s v} : Blank b → Derives A N .unary s v → Derives A N .unary (b ++ 43 :: s) v
  | minus {b s v} : Blank b → Derives A N .unary s v → Derives A N .unary (b ++ 45 :: s) (A.neg v)
  | primary {s v} : Derives A N .primary s v → Derives A N .unary s v
  | number {b n} : Blank b → N n → Derives A N .primary (b ++ n) (A.literal n)
  | paren {b s b' v} : Blank b → Derives A N .expr s v → Blank b' →
    Derives A N .primary (b ++ 40 :: (s ++ (b' ++ [41]))) v

/-- The text is an expression, and this is its value. -/
def Accepts {α : Type*} (A : Arithmetic α) (N : Text → Prop) (text : Text) (v : α) : Prop :=
  ∃ s b, text = s ++ b ∧ Blank b ∧ Derives A N .expr s v

/-- A run of digits and dots. -/
def Lenient (run : Text) : Prop := run ≠ [] ∧ ∀ b ∈ run, isNumeric b = true

/-- A run of digits with at most one dot and at least one digit. -/
def Proper (run : Text) : Prop :=
  (∀ b ∈ run, isNumeric b = true) ∧ run.count 46 ≤ 1 ∧ ∃ b ∈ run, isDigit b = true

variable {α : Type*} {A : Arithmetic α}

/-! ### Blanks -/

section
variable {b text : Text} {c : UInt8}

theorem skipWs_append (h : Blank b) (text : Text) : skipWs (b ++ text) = skipWs text := by
  induction b with
  | nil => rfl
  | cons x b ih =>
    rw [skipWs, List.cons_append, List.dropWhile_cons_of_pos (h x List.mem_cons_self)]
    exact ih fun y hy => h y (List.mem_cons_of_mem _ hy)

theorem skipWs_cons (h : isBlank c = false) : skipWs (c :: text) = c :: text :=
  List.dropWhile_cons_of_neg (by rw [h]; decide)

theorem skipWs_append_cons (h : Blank b) (hc : isBlank c = false) :
    skipWs (b ++ c :: text) = c :: text := by
  rw [skipWs_append h, skipWs_cons hc]

@[simp] theorem skipWs_skipWs (text : Text) : skipWs (skipWs text) = skipWs text :=
  List.dropWhile_idempotent _ _

/-- Blanks come first. -/
theorem exists_blank (text : Text) : ∃ b, Blank b ∧ text = b ++ skipWs text :=
  ⟨text.takeWhile isBlank, fun _ hx => List.mem_takeWhile_imp hx,
    (List.takeWhile_append_dropWhile).symm⟩

theorem exists_blank_of_peek {s : State} (h : s.peek = some c) :
    ∃ b, Blank b ∧ s.rest = b ++ c :: (s.advance 1).rest := by
  obtain ⟨b, hb, heq⟩ := exists_blank s.rest
  refine ⟨b, hb, ?_⟩
  rw [State.peek] at h
  rw [State.advance, List.drop_one, ← List.eq_cons_of_mem_head? h]
  exact heq

theorem isBlank_of_isNumeric (h : isNumeric c = true) : isBlank c = false := by
  by_contra hb
  rw [Bool.not_eq_false, isBlank, Bool.or_eq_true, decide_eq_true_eq, decide_eq_true_eq] at hb
  rcases hb with rfl | rfl <;> exact absurd h (by decide)

theorem peek_of_skipWs {text rest : Text} (ok : Bool) (h : skipWs text = c :: rest) :
    State.peek ⟨text, ok⟩ = some c ∧ State.advance ⟨text, ok⟩ 1 = ⟨rest, ok⟩ := by
  rw [State.peek, State.advance, h]
  exact ⟨rfl, rfl⟩

theorem peek_cons (c : UInt8) (rest : Text) (hc : isBlank c = false) :
    State.peek ⟨c :: rest, true⟩ = some c ∧ State.advance ⟨c :: rest, true⟩ 1 = ⟨rest, true⟩ :=
  peek_of_skipWs true (skipWs_cons hc)

end

/-! ### What comes after -/

/-- A number ends here. -/
def NoNumber (r : Text) : Prop := ∀ c, r.head? = some c → isNumeric c = false

/-- No exponent comes. -/
def NoStars (r : Text) : Prop := ¬State.stars ⟨r, true⟩

/-- No factor comes. -/
def NoFactor (r : Text) : Prop :=
  State.peek ⟨r, true⟩ ≠ some 42 ∧ State.peek ⟨r, true⟩ ≠ some 47

/-- No summand comes. -/
def NoSummand (r : Text) : Prop :=
  State.peek ⟨r, true⟩ ≠ some 43 ∧ State.peek ⟨r, true⟩ ≠ some 45

section
variable {s b r : Text} {c : UInt8} {v : α} {X : Nonterminal}

theorem NoFactor.noStars (h : NoFactor r) : NoStars r := fun hs => h.1 hs.1

theorem noNumber_append_cons (h : Blank b) (hc : isNumeric c = false) : NoNumber (b ++ c :: r) := by
  intro d hd
  cases b with
  | nil =>
    obtain rfl := Option.some.inj hd
    exact hc
  | cons x b =>
    obtain rfl := Option.some.inj hd
    by_contra hx
    have hblank := h x List.mem_cons_self
    rw [isBlank_of_isNumeric (Bool.eq_true_of_not_eq_false hx)] at hblank
    cases hblank

theorem peek_append_cons (h : Blank b) (hc : isBlank c = false) (ok : Bool) :
    State.peek ⟨b ++ c :: r, ok⟩ = some c ∧ State.advance ⟨b ++ c :: r, ok⟩ 1 = ⟨r, ok⟩ :=
  peek_of_skipWs ok (skipWs_append_cons h hc)

/-- The first byte of what is derived. -/
theorem skipWs_of_derives (h : Derives A Lenient X s v) :
    ∃ c t, skipWs s = c :: t ∧ (isNumeric c = true ∨ c = 40 ∨ X ≠ .primary ∧ (c = 43 ∨ c = 45)) ∧
      ∀ r, skipWs (s ++ r) = c :: (t ++ r) := by
  have hlift {s : Text} {P : UInt8 → Prop} (tail : Text)
      (h : ∃ c t, skipWs s = c :: t ∧ P c ∧ ∀ r, skipWs (s ++ r) = c :: (t ++ r)) :
      ∃ c t, skipWs (s ++ tail) = c :: t ∧ P c ∧ ∀ r, skipWs (s ++ tail ++ r) = c :: (t ++ r) := by
    obtain ⟨c, t, -, hc, happ⟩ := h
    refine ⟨c, t ++ tail, happ tail, hc, fun r => ?_⟩
    rw [List.append_assoc, happ, List.append_assoc]
  have hfirst {b t : Text} {c : UInt8} {P : UInt8 → Prop} (hb : Blank b) (hc : isBlank c = false)
      (hp : P c) : ∃ c' t', skipWs (b ++ c :: t) = c' :: t' ∧ P c' ∧
        ∀ r, skipWs (b ++ c :: t ++ r) = c' :: (t' ++ r) := by
    refine ⟨c, t, skipWs_append_cons hb hc, hp, fun r => ?_⟩
    rw [List.append_assoc, List.cons_append, skipWs_append_cons hb hc]
  have hmore {s : Text} {X Y : Nonterminal} (hY : Y ≠ .primary)
      (h : ∃ c t, skipWs s = c :: t ∧
        (isNumeric c = true ∨ c = 40 ∨ X ≠ .primary ∧ (c = 43 ∨ c = 45)) ∧
          ∀ r, skipWs (s ++ r) = c :: (t ++ r)) :
      ∃ c t, skipWs s = c :: t ∧
        (isNumeric c = true ∨ c = 40 ∨ Y ≠ .primary ∧ (c = 43 ∨ c = 45)) ∧
          ∀ r, skipWs (s ++ r) = c :: (t ++ r) := by
    obtain ⟨c, t, heq, hc, happ⟩ := h
    exact ⟨c, t, heq, hc.imp_right (Or.imp_right fun hs => ⟨hY, hs.2⟩), happ⟩
  induction h with
  | term _ ih => exact hmore (by decide) ih
  | add _ _ _ ih _ => exact hlift _ ih
  | sub _ _ _ ih _ => exact hlift _ ih
  | power _ ih => exact hmore (by decide) ih
  | mul _ _ _ ih _ => exact hlift _ ih
  | div _ _ _ _ ih _ => exact hlift _ ih
  | unary _ ih => exact hmore (by decide) ih
  | pow _ _ _ ih _ => exact hlift _ (hmore (by decide) ih)
  | plus hb _ _ => exact hfirst hb (by decide) (.inr (.inr ⟨by decide, .inl rfl⟩))
  | minus hb _ _ => exact hfirst hb (by decide) (.inr (.inr ⟨by decide, .inr rfl⟩))
  | primary _ ih => exact hmore (by decide) ih
  | @number b n hb hn =>
    obtain ⟨hne, hnum⟩ := hn
    cases n with
    | nil => exact absurd rfl hne
    | cons c n =>
      have hc := hnum c List.mem_cons_self
      exact hfirst hb (isBlank_of_isNumeric hc) (.inl hc)
  | paren hb _ _ _ => exact hfirst hb (by decide) (.inr (.inl rfl))

end

/-! ### What is derived is parsed -/

/-- What a function of the parser makes of what is derived, whatever comes after it. -/
def Complete (A : Arithmetic α) : Nonterminal → Text → α → Prop
  | .primary, s, v => ∀ r, NoNumber r → primary A ⟨s ++ r, true⟩ = (v, ⟨r, true⟩)
  | .unary, s, v => ∀ r, NoNumber r → unary A ⟨s ++ r, true⟩ = (v, ⟨r, true⟩)
  | .power, s, v => ∀ r, NoNumber r → NoStars r → power A ⟨s ++ r, true⟩ = (v, ⟨skipWs r, true⟩)
  | .term, s, v => ∀ r, NoNumber r → NoStars r →
      term A ⟨s ++ r, true⟩ = termLoop A v ⟨skipWs r, true⟩
  | .expr, s, v => ∀ r, NoNumber r → NoFactor r →
      expr A ⟨s ++ r, true⟩ = exprLoop A v ⟨skipWs r, true⟩

section
variable {s r b t n : Text} {v w : α}

@[simp] theorem advance_advance (s : State) (k : ℕ) : (s.advance 0).advance k = s.advance k := by
  rw [State.advance, State.advance, List.drop_zero, skipWs_skipWs]
  rfl

@[simp] theorem peek_advance (s : State) : (s.advance 0).peek = s.peek := by
  rw [State.peek, State.advance, List.drop_zero, skipWs_skipWs]
  rfl

theorem skipWs_advance (s : State) : skipWs (s.advance 0).rest = skipWs s.rest := by
  rw [State.advance, List.drop_zero, skipWs_skipWs]

theorem primary_advance (s : State) : primary A (s.advance 0) = primary A s := by
  rw [primary_eq, primary_eq s, peek_advance, advance_advance, number, number, advance_advance,
    advance_advance, skipWs_advance]

theorem peek_skipWs (text : Text) (ok : Bool) :
    State.peek ⟨skipWs text, ok⟩ = State.peek ⟨text, ok⟩ := by
  rw [State.peek, skipWs_skipWs]
  rfl

theorem termLoop_stop (h : NoFactor r) : termLoop A v ⟨skipWs r, true⟩ = (v, ⟨skipWs r, true⟩) := by
  have h42 := h.1
  have h47 := h.2
  rw [termLoop_eq, if_pos rfl, peek_skipWs, if_neg fun hs => h42 hs.1, if_neg h47, State.advance,
    skipWs_skipWs, List.drop_zero]

theorem exprLoop_stop (h : NoSummand r) :
    exprLoop A v ⟨skipWs r, true⟩ = (v, ⟨skipWs r, true⟩) := by
  rw [exprLoop_eq, if_pos rfl, peek_skipWs, if_neg h.1, if_neg h.2, State.advance, skipWs_skipWs,
    List.drop_zero]

/-- A factor is not taken for an exponent. -/
theorem not_stars_of_derives (h : Derives A Lenient .power t w) (r : Text) :
    ¬State.stars ⟨42 :: (t ++ r), true⟩ := by
  obtain ⟨-, hadv⟩ := peek_cons 42 (t ++ r) (by decide)
  rintro ⟨-, hhead⟩
  rw [hadv] at hhead
  obtain ⟨c, t', -, hc, happ⟩ := skipWs_of_derives h
  have hskip := happ r
  cases htr : t ++ r with
  | nil => rw [htr] at hhead; cases hhead
  | cons d rest =>
    rw [htr] at hhead hskip
    obtain rfl := Option.some.inj hhead
    rw [skipWs_cons (by decide)] at hskip
    obtain ⟨rfl, -⟩ := List.cons.inj hskip
    rcases hc with hc | hc | ⟨-, hc | hc⟩ <;> exact absurd hc (by decide)

theorem complete_number (hb : Blank b) (hn : Lenient n) :
    Complete A .primary (b ++ n) (A.literal n) := by
  intro r hr
  obtain ⟨c, t, -, hc, happ⟩ := skipWs_of_derives (A := A) (.number hb hn)
  have hskip : skipWs (b ++ n ++ r) = n ++ r := by
    obtain ⟨hne, hnum⟩ := hn
    cases n with
    | nil => exact absurd rfl hne
    | cons d n =>
      rw [List.append_assoc, List.cons_append,
        skipWs_append_cons hb (isBlank_of_isNumeric (hnum d List.mem_cons_self))]
  have htake : (n ++ r).takeWhile isNumeric = n := by
    rw [List.takeWhile_append_of_pos hn.2]
    cases r with
    | nil => exact List.append_nil n
    | cons d r =>
      rw [List.takeWhile_cons_of_neg (by rw [hr d rfl]; decide), List.append_nil]
  have hpeek : State.peek ⟨b ++ n ++ r, true⟩ ≠ some 40 := by
    rw [(peek_of_skipWs true (happ r)).1]
    rintro h40
    obtain rfl := Option.some.inj h40
    obtain ⟨hne, hnum⟩ := hn
    cases n with
    | nil => exact hne rfl
    | cons d n =>
      obtain ⟨rfl, -⟩ := List.cons.inj (hskip.symm.trans (happ r))
      exact absurd (hnum 40 List.mem_cons_self) (by decide)
  rw [primary_eq, if_neg hpeek, number]
  dsimp only
  rw [hskip, htake, if_neg hn.1, State.advance, hskip, List.drop_left]

theorem complete_paren (hb : Blank b) (hs : Complete A .expr s v) (ht : Blank t) :
    Complete A .primary (b ++ 40 :: (s ++ (t ++ [41]))) v := by
  intro r hr
  have hopen := peek_append_cons (r := s ++ (t ++ 41 :: r)) hb (c := 40) (by decide) true
  have hclose := peek_cons 41 r (by decide)
  have heq : b ++ 40 :: (s ++ (t ++ [41])) ++ r = b ++ 40 :: (s ++ (t ++ 41 :: r)) := by simp
  have hfactor : NoFactor (t ++ 41 :: r) := by
    rw [NoFactor, (peek_append_cons ht (by decide) true).1]
    decide
  have hsummand : NoSummand (t ++ 41 :: r) := by
    rw [NoSummand, (peek_append_cons ht (by decide) true).1]
    decide
  have hexpr : expr A ⟨s ++ (t ++ 41 :: r), true⟩ = (v, ⟨41 :: r, true⟩) := by
    rw [hs _ (noNumber_append_cons ht (by decide)) hfactor, exprLoop_stop hsummand,
      skipWs_append_cons ht (by decide)]
  rw [heq, primary_eq, if_pos hopen.1, hopen.2, hexpr, if_pos hclose.1, hclose.2]

theorem complete_unary (h : Derives A Lenient .primary s v) (hs : Complete A .primary s v) :
    Complete A .unary s v := by
  intro r hr
  obtain ⟨c, t, -, hc, happ⟩ := skipWs_of_derives h
  have hpeek := (peek_of_skipWs true (happ r)).1
  have hne (d : UInt8) (hd : isNumeric d = false) (hd' : d ≠ 40) :
      State.peek ⟨s ++ r, true⟩ ≠ some d := by
    rw [hpeek]
    rintro heq
    obtain rfl := Option.some.inj heq
    rcases hc with hc | hc | ⟨hc, -⟩
    · rw [hc] at hd
      cases hd
    · exact hd' hc
    · exact hc rfl
  rw [unary_eq, if_neg (hne 45 (by decide) (by decide)), if_neg (hne 43 (by decide) (by decide)),
    primary_advance]
  exact hs r hr

theorem complete_sign {c : UInt8} (hb : Blank b) (hs : Complete A .unary s v)
    (hc : c = 43 ∧ w = v ∨ c = 45 ∧ w = A.neg v) : Complete A .unary (b ++ c :: s) w := by
  intro r hr
  rcases hc with ⟨rfl, rfl⟩ | ⟨rfl, rfl⟩
  · have hpeek := peek_append_cons (r := s ++ r) hb (c := 43) (by decide) true
    rw [List.append_assoc, List.cons_append, unary_eq, if_neg (by rw [hpeek.1]; decide),
      if_pos hpeek.1, hpeek.2]
    exact hs r hr
  · have hpeek := peek_append_cons (r := s ++ r) hb (c := 45) (by decide) true
    rw [List.append_assoc, List.cons_append, unary_eq, if_pos hpeek.1, hpeek.2, hs r hr]

theorem complete_power (hs : Complete A .unary s v) : Complete A .power s v := by
  intro r hr hstars
  rw [power_eq, hs r hr, if_neg hstars, State.advance, List.drop_zero]

theorem complete_pow (hs : Complete A .unary s v) (hb : Blank b) (ht : Complete A .power t w) :
    Complete A .power (s ++ (b ++ 42 :: 42 :: t)) (A.pow v w) := by
  intro r hr hstars
  have hpeek := peek_append_cons (r := 42 :: (t ++ r)) hb (c := 42) (by decide) true
  have heq : s ++ (b ++ 42 :: 42 :: t) ++ r = s ++ (b ++ 42 :: 42 :: (t ++ r)) := by simp
  have hyes : State.stars ⟨b ++ 42 :: 42 :: (t ++ r), true⟩ := ⟨hpeek.1, by rw [hpeek.2]; rfl⟩
  have hadv : State.advance ⟨b ++ 42 :: 42 :: (t ++ r), true⟩ 2 = ⟨t ++ r, true⟩ := by
    rw [State.advance, skipWs_append_cons hb (by decide)]
    rfl
  rw [heq, power_eq, hs _ (noNumber_append_cons hb (by decide)), if_pos hyes, hadv, ht r hr hstars]

theorem complete_term (hs : Complete A .power s v) : Complete A .term s v := by
  intro r hr hstars
  rw [term_eq, hs r hr hstars]

/-- Before a factor, a term has just been read. -/
theorem term_append (hs : Complete A .term s v) (hb : Blank b) {c : UInt8}
    (hc : isBlank c = false) (hnum : isNumeric c = false)
    (hstars : ¬State.stars ⟨c :: r, true⟩) :
    term A ⟨s ++ (b ++ c :: r), true⟩ = termLoop A v ⟨c :: r, true⟩ := by
  have hskip : skipWs (b ++ c :: r) = c :: r := skipWs_append_cons hb hc
  rw [hs _ (noNumber_append_cons hb hnum) ?_, hskip]
  rw [NoStars, State.stars, State.peek, State.advance, hskip]
  rw [State.stars, State.peek, State.advance, skipWs_cons hc] at hstars
  exact hstars

theorem complete_mul (hs : Complete A .term s v) (hb : Blank b)
    (h : Derives A Lenient .power t w) (ht : Complete A .power t w) :
    Complete A .term (s ++ (b ++ 42 :: t)) (A.mul v w) := by
  intro r hr hstars
  have hno := not_stars_of_derives h r
  have hpeek := peek_cons 42 (t ++ r) (by decide)
  have heq : s ++ (b ++ 42 :: t) ++ r = s ++ (b ++ 42 :: (t ++ r)) := by simp
  rw [heq, term_append hs hb (by decide) (by decide) hno, termLoop_eq, if_pos rfl,
    if_pos ⟨hpeek.1, hno⟩, hpeek.2, ht r hr hstars]

theorem complete_div (hs : Complete A .term s v) (hb : Blank b) (ht : Complete A .power t w)
    (hzero : A.isZero w = false) : Complete A .term (s ++ (b ++ 47 :: t)) (A.div v w) := by
  intro r hr hstars
  have hpeek := peek_cons 47 (t ++ r) (by decide)
  have hne : State.peek ⟨47 :: (t ++ r), true⟩ ≠ some 42 := by
    rw [hpeek.1]
    decide
  have heq : s ++ (b ++ 47 :: t) ++ r = s ++ (b ++ 47 :: (t ++ r)) := by simp
  rw [heq, term_append hs hb (by decide) (by decide) fun h => hne h.1, termLoop_eq, if_pos rfl,
    if_neg fun h => hne h.1, if_pos hpeek.1, hpeek.2, ht r hr hstars, hzero]
  rfl

theorem complete_expr (hs : Complete A .term s v) : Complete A .expr s v := by
  intro r hr hfactor
  rw [expr_eq, hs r hr hfactor.noStars, termLoop_stop hfactor]

theorem complete_sum {c : UInt8} (hs : Complete A .expr s v) (hb : Blank b)
    (ht : Complete A .term t w) {u : α} (hc : c = 43 ∧ u = A.add v w ∨ c = 45 ∧ u = A.sub v w) :
    Complete A .expr (s ++ (b ++ c :: t)) u := by
  intro r hr hfactor
  have hterm : term A ⟨t ++ r, true⟩ = (w, ⟨skipWs r, true⟩) := by
    rw [ht r hr hfactor.noStars, termLoop_stop hfactor]
  have heq : s ++ (b ++ c :: t) ++ r = s ++ (b ++ c :: (t ++ r)) := by simp
  have hplain : isBlank c = false ∧ isNumeric c = false ∧ c ≠ 42 ∧ c ≠ 47 := by
    rcases hc with ⟨rfl, -⟩ | ⟨rfl, -⟩ <;> decide
  obtain ⟨hblank, hnum, h42, h47⟩ := hplain
  have hfactor' : NoFactor (b ++ c :: (t ++ r)) := by
    rw [NoFactor, (peek_append_cons hb hblank true).1]
    exact ⟨fun h => h42 (Option.some.inj h), fun h => h47 (Option.some.inj h)⟩
  have hpeek := peek_cons c (t ++ r) hblank
  rw [heq, hs _ (noNumber_append_cons hb hnum) hfactor', skipWs_append_cons hb hblank, exprLoop_eq,
    if_pos rfl]
  rcases hc with ⟨rfl, rfl⟩ | ⟨rfl, rfl⟩
  · rw [if_pos hpeek.1, hpeek.2, hterm]
  · rw [if_neg (by rw [hpeek.1]; decide), if_pos hpeek.1, hpeek.2, hterm]

end

theorem complete_of_derives {X : Nonterminal} {s : Text} {v : α} (h : Derives A Lenient X s v) :
    Complete A X s v := by
  induction h with
  | term _ ih => exact complete_expr ih
  | add _ hb _ ihs iht => exact complete_sum ihs hb iht (.inl ⟨rfl, rfl⟩)
  | sub _ hb _ ihs iht => exact complete_sum ihs hb iht (.inr ⟨rfl, rfl⟩)
  | power _ ih => exact complete_term ih
  | mul _ hb ht ihs iht => exact complete_mul ihs hb ht iht
  | div _ hb _ hzero ihs iht => exact complete_div ihs hb iht hzero
  | unary _ ih => exact complete_power ih
  | pow _ hb _ ihs iht => exact complete_pow ihs hb iht
  | plus hb _ ih => exact complete_sign hb ih (.inl ⟨rfl, rfl⟩)
  | minus hb _ ih => exact complete_sign hb ih (.inr ⟨rfl, rfl⟩)
  | primary h ih => exact complete_unary h ih
  | number hb hn => exact complete_number hb hn
  | paren hb _ ht ih => exact complete_paren hb ih ht

/-! ### What is parsed is derived -/

/-- When nothing was wrong, what was taken is derived, and blanks may come after it. -/
def Sound (A : Arithmetic α) (X : Nonterminal) (s : State) (r : α × State) : Prop :=
  r.2.ok = true → s.ok = true ∧
    ∃ e b, s.rest = e ++ (b ++ r.2.rest) ∧ Blank b ∧ Derives A Lenient X e r.1

section
variable {s : State} {L : ℕ}

theorem Blank.append {b b' : Text} (h : Blank b) (h' : Blank b') : Blank (b ++ b') :=
  fun x hx => (List.mem_append.mp hx).elim (h x) (h' x)

theorem sound_number (s : State) : Sound A .primary s (number A s) := by
  intro hok
  rw [number] at *
  dsimp only at *
  by_cases hrun : (skipWs s.rest).takeWhile isNumeric = []
  · rw [if_pos hrun] at hok
    cases hok
  · rw [if_neg hrun] at *
    obtain ⟨b, hb, heq⟩ := exists_blank s.rest
    obtain ⟨run, hrun'⟩ : ∃ run, run = (skipWs s.rest).takeWhile isNumeric := ⟨_, rfl⟩
    have hsplit : skipWs s.rest = run ++ (skipWs s.rest).drop run.length := by
      rw [hrun']
      exact (List.prefix_iff_eq_append.mp (List.takeWhile_prefix isNumeric)).symm
    refine ⟨hok, b ++ run, [], ?_, List.forall_mem_nil _, ?_⟩
    · rw [← hrun', State.advance, List.nil_append, List.append_assoc, ← hsplit]
      exact heq
    · rw [← hrun']
      exact .number hb ⟨hrun' ▸ hrun, fun x hx => List.mem_takeWhile_imp (hrun' ▸ hx)⟩

theorem sound_primary (hexpr : ∀ t : State, t.rest.length < s.rest.length →
    Sound A .expr t (expr A t)) : Sound A .primary s (primary A s) := by
  rw [primary_eq]
  by_cases hopen : s.peek = some 40
  · rw [if_pos hopen]
    by_cases hclose : (expr A (s.advance 1)).2.peek = some 41
    · rw [if_pos hclose]
      intro hok
      obtain ⟨hok', e, b, heq, hb, he⟩ := hexpr _ (length_advance_lt hopen) hok
      obtain ⟨b₀, hb₀, heq₀⟩ := exists_blank_of_peek hopen
      obtain ⟨b₁, hb₁, heq₁⟩ := exists_blank_of_peek hclose
      refine ⟨hok', _, [], ?_, List.forall_mem_nil _, .paren hb₀ he (hb.append hb₁)⟩
      rw [heq₀, heq, heq₁]
      simp
    · rw [if_neg hclose]
      intro hok
      cases hok
  · rw [if_neg hopen]
    exact sound_number s

theorem sound_unary (hprimary : ∀ t : State, t.rest.length ≤ L → Sound A .primary t (primary A t))
    (s : State) (hs : s.rest.length ≤ L) : Sound A .unary s (unary A s) := by
  induction hn : s.rest.length using Nat.strong_induction_on generalizing s with
  | _ n ih =>
    have hsign (h : (s.advance 1).rest.length < s.rest.length) :
        Sound A .unary (s.advance 1) (unary A (s.advance 1)) :=
      ih _ (hn ▸ h) _ (by omega) rfl
    rw [unary_eq]
    by_cases hminus : s.peek = some 45
    · rw [if_pos hminus]
      intro hok
      obtain ⟨hok', e, b, heq, hb, he⟩ := hsign (length_advance_lt hminus) hok
      obtain ⟨b₀, hb₀, heq₀⟩ := exists_blank_of_peek hminus
      refine ⟨hok', _, b, ?_, hb, .minus hb₀ he⟩
      rw [heq₀, heq]
      simp
    · rw [if_neg hminus]
      by_cases hplus : s.peek = some 43
      · rw [if_pos hplus]
        intro hok
        obtain ⟨hok', e, b, heq, hb, he⟩ := hsign (length_advance_lt hplus) hok
        obtain ⟨b₀, hb₀, heq₀⟩ := exists_blank_of_peek hplus
        refine ⟨hok', _, b, ?_, hb, .plus hb₀ he⟩
        rw [heq₀, heq]
        simp
      · rw [if_neg hplus, primary_advance]
        intro hok
        obtain ⟨hok', e, b, heq, hb, he⟩ := hprimary s hs hok
        exact ⟨hok', e, b, heq, hb, .primary he⟩

theorem length_unary_le (s : State) : (unary A s).2.rest.length ≤ s.rest.length := (unaryAux A s).2

theorem length_power_le (s : State) : (power A s).2.rest.length ≤ s.rest.length := (powerAux A s).2

theorem length_term_le (s : State) : (term A s).2.rest.length ≤ s.rest.length := (termAux A s).2

/-- Two stars are taken. -/
theorem exists_blank_of_stars (h : s.stars) :
    ∃ b, Blank b ∧ s.rest = b ++ 42 :: 42 :: (s.advance 2).rest := by
  obtain ⟨b, hb, heq⟩ := exists_blank_of_peek h.1
  refine ⟨b, hb, heq.trans ?_⟩
  have hcons := List.eq_cons_of_mem_head? h.2
  rw [hcons]
  simp only [State.advance, List.tail_drop]

theorem sound_power (hunary : ∀ t : State, t.rest.length ≤ L → Sound A .unary t (unary A t))
    (s : State) (hs : s.rest.length ≤ L) : Sound A .power s (power A s) := by
  induction hn : s.rest.length using Nat.strong_induction_on generalizing s with
  | _ n ih =>
    have hle := length_unary_le (A := A) s
    rw [power_eq]
    by_cases hstars : (unary A s).2.stars
    · rw [if_pos hstars]
      have hlt := length_advance_two_lt hstars
      intro hok
      obtain ⟨hok', e, b, heq, hb, he⟩ := ih _ (by omega) _ (by omega) rfl hok
      obtain ⟨hok₀, e₀, b₀, heq₀, hb₀, he₀⟩ := hunary s hs hok'
      obtain ⟨b₁, hb₁, heq₁⟩ := exists_blank_of_stars hstars
      refine ⟨hok₀, _, b, ?_, hb, .pow he₀ (hb₀.append hb₁) he⟩
      rw [heq₀, heq₁, heq]
      simp
    · rw [if_neg hstars]
      intro hok
      obtain ⟨hok₀, e₀, b₀, heq₀, hb₀, he₀⟩ := hunary s hs hok
      obtain ⟨b₁, hb₁, heq₁⟩ := exists_blank (unary A s).2.rest
      refine ⟨hok₀, e₀, b₀ ++ b₁, ?_, hb₀.append hb₁, .unary he₀⟩
      rw [heq₀, List.append_assoc, State.advance, List.drop_zero, ← heq₁]

/-- What the loop over factors makes of a term that was read. -/
theorem sound_termLoop (hpower : ∀ t : State, t.rest.length ≤ L → Sound A .power t (power A t))
    (s : State) (hs : s.rest.length ≤ L) {v : α} {e b : Text} (he : Derives A Lenient .term e v)
    (hb : Blank b) (hok : (termLoop A v s).2.ok = true) :
    s.ok = true ∧ ∃ e' b', e ++ (b ++ s.rest) = e' ++ (b' ++ (termLoop A v s).2.rest) ∧ Blank b' ∧
      Derives A Lenient .term e' (termLoop A v s).1 := by
  induction hn : s.rest.length using Nat.strong_induction_on generalizing s v e b with
  | _ n ih =>
    have hle := length_power_le (A := A) (s.advance 1)
    rw [termLoop_eq] at *
    by_cases hs_ok : s.ok = true
    · rw [if_pos hs_ok] at *
      refine ⟨hs_ok, ?_⟩
      by_cases hmul : s.peek = some 42 ∧ ¬s.stars
      · rw [if_pos hmul] at *
        have hlt := length_advance_lt hmul.1
        obtain ⟨b₁, hb₁, heq₁⟩ := exists_blank_of_peek hmul.1
        by_cases hpok : (power A (s.advance 1)).2.ok = true
        · obtain ⟨-, e₀, b₀, heq₀, hb₀, he₀⟩ := hpower _ (by omega) hpok
          obtain ⟨-, e', b', heq', hb', he'⟩ := ih _ (by omega) (power A (s.advance 1)).2 (by omega)
            (Derives.mul he (hb.append hb₁) he₀) hb₀ hok rfl
          refine ⟨e', b', heq' ▸ ?_, hb', he'⟩
          rw [heq₁, heq₀]
          simp
        · rw [termLoop_eq, if_neg hpok] at hok
          exact absurd hok hpok
      · rw [if_neg hmul] at *
        by_cases hdiv : s.peek = some 47
        · rw [if_pos hdiv] at *
          have hlt := length_advance_lt hdiv
          obtain ⟨b₁, hb₁, heq₁⟩ := exists_blank_of_peek hdiv
          by_cases hzero : A.isZero (power A (s.advance 1)).1 = true
          · rw [if_pos hzero] at hok
            cases hok
          · rw [if_neg hzero] at *
            by_cases hpok : (power A (s.advance 1)).2.ok = true
            · obtain ⟨-, e₀, b₀, heq₀, hb₀, he₀⟩ := hpower _ (by omega) hpok
              obtain ⟨-, e', b', heq', hb', he'⟩ := ih _ (by omega) (power A (s.advance 1)).2
                (by omega) (Derives.div he (hb.append hb₁) he₀ (Bool.eq_false_iff.mpr hzero)) hb₀
                hok rfl
              refine ⟨e', b', heq' ▸ ?_, hb', he'⟩
              rw [heq₁, heq₀]
              simp
            · rw [termLoop_eq, if_neg hpok] at hok
              exact absurd hok hpok
        · rw [if_neg hdiv] at *
          obtain ⟨b₁, hb₁, heq₁⟩ := exists_blank s.rest
          refine ⟨e, b ++ b₁, ?_, hb.append hb₁, he⟩
          rw [State.advance, List.drop_zero, List.append_assoc, ← heq₁]
    · rw [if_neg hs_ok] at hok
      exact absurd hok hs_ok

theorem sound_term (hpower : ∀ t : State, t.rest.length ≤ L → Sound A .power t (power A t))
    (s : State) (hs : s.rest.length ≤ L) : Sound A .term s (term A s) := by
  have hle := length_power_le (A := A) s
  have hloop {e b : Text} (he : Derives A Lenient .term e (power A s).1) (hb : Blank b) :=
    sound_termLoop hpower (power A s).2 (by omega) he hb
  rw [term_eq]
  intro hok
  by_cases hpok : (power A s).2.ok = true
  · obtain ⟨hok', e₀, b₀, heq₀, hb₀, he₀⟩ := hpower s hs hpok
    obtain ⟨-, e', b', heq', hb', he'⟩ := hloop (.power he₀) hb₀ hok
    exact ⟨hok', e', b', heq₀.trans heq', hb', he'⟩
  · rw [termLoop_eq, if_neg hpok] at hok
    exact absurd hok hpok

/-- What the loop over summands makes of an expression that was read. -/
theorem sound_exprLoop (hterm : ∀ t : State, t.rest.length ≤ L → Sound A .term t (term A t))
    (s : State) (hs : s.rest.length ≤ L) {v : α} {e b : Text} (he : Derives A Lenient .expr e v)
    (hb : Blank b) (hok : (exprLoop A v s).2.ok = true) :
    s.ok = true ∧ ∃ e' b', e ++ (b ++ s.rest) = e' ++ (b' ++ (exprLoop A v s).2.rest) ∧ Blank b' ∧
      Derives A Lenient .expr e' (exprLoop A v s).1 := by
  induction hn : s.rest.length using Nat.strong_induction_on generalizing s v e b with
  | _ n ih =>
    have hle := length_term_le (A := A) (s.advance 1)
    -- a summand is read, and the loop goes on
    have hsummand {c : UInt8} {u : α} (hpeek : s.peek = some c)
        (hderives : ∀ {b₁ t w}, Blank b₁ → Derives A Lenient .term t w →
          w = (term A (s.advance 1)).1 → Derives A Lenient .expr (e ++ (b₁ ++ c :: t)) u)
        (hok : (exprLoop A u (term A (s.advance 1)).2).2.ok = true) :
        ∃ e' b', e ++ (b ++ s.rest) =
            e' ++ (b' ++ (exprLoop A u (term A (s.advance 1)).2).2.rest) ∧ Blank b' ∧
          Derives A Lenient .expr e' (exprLoop A u (term A (s.advance 1)).2).1 := by
      have hlt := length_advance_lt hpeek
      obtain ⟨b₁, hb₁, heq₁⟩ := exists_blank_of_peek hpeek
      by_cases htok : (term A (s.advance 1)).2.ok = true
      · obtain ⟨-, e₀, b₀, heq₀, hb₀, he₀⟩ := hterm _ (by omega) htok
        obtain ⟨-, e', b', heq', hb', he'⟩ := ih _ (by omega) (term A (s.advance 1)).2 (by omega)
          (hderives (hb.append hb₁) he₀ rfl) hb₀ hok rfl
        refine ⟨e', b', heq' ▸ ?_, hb', he'⟩
        rw [heq₁, heq₀]
        simp
      · rw [exprLoop_eq, if_neg htok] at hok
        exact absurd hok htok
    rw [exprLoop_eq] at *
    by_cases hs_ok : s.ok = true
    · rw [if_pos hs_ok] at *
      refine ⟨hs_ok, ?_⟩
      by_cases hadd : s.peek = some 43
      · rw [if_pos hadd] at *
        exact hsummand hadd (fun hb₁ ht hw => hw ▸ .add he hb₁ ht) hok
      · rw [if_neg hadd] at *
        by_cases hsub : s.peek = some 45
        · rw [if_pos hsub] at *
          exact hsummand hsub (fun hb₁ ht hw => hw ▸ .sub he hb₁ ht) hok
        · rw [if_neg hsub] at *
          obtain ⟨b₁, hb₁, heq₁⟩ := exists_blank s.rest
          refine ⟨e, b ++ b₁, ?_, hb.append hb₁, he⟩
          rw [State.advance, List.drop_zero, List.append_assoc, ← heq₁]
    · rw [if_neg hs_ok] at hok
      exact absurd hok hs_ok

theorem sound_expr (s : State) : Sound A .expr s (expr A s) := by
  induction hn : s.rest.length using Nat.strong_induction_on generalizing s with
  | _ n ih =>
    have hprimary (t : State) (ht : t.rest.length ≤ n) : Sound A .primary t (primary A t) :=
      sound_primary fun u hu => ih _ (by omega) u rfl
    have hterm := sound_term (sound_power (sound_unary hprimary))
    have hle := length_term_le (A := A) s
    have hloop {e b : Text} (he : Derives A Lenient .expr e (term A s).1) (hb : Blank b) :=
      sound_exprLoop hterm (term A s).2 (by omega) he hb
    rw [expr_eq]
    intro hok
    by_cases htok : (term A s).2.ok = true
    · obtain ⟨hok', e₀, b₀, heq₀, hb₀, he₀⟩ := hterm s (by omega) htok
      obtain ⟨-, e', b', heq', hb', he'⟩ := hloop (.term he₀) hb₀ hok
      exact ⟨hok', e', b', heq₀.trans heq', hb', he'⟩
    · rw [exprLoop_eq, if_neg htok] at hok
      exact absurd hok htok

end

/-- **The parser takes exactly the expressions**, and computes their values. -/
theorem parse_eq_some_iff (text : Text) (v : α) :
    parse A text = some v ↔ Accepts A Lenient text v := by
  rw [parse]
  constructor
  · intro h
    split_ifs at h with hbad
    push Not at hbad
    obtain ⟨hok, hrest⟩ := hbad
    obtain rfl := Option.some.inj h
    obtain ⟨-, e, b, heq, hb, he⟩ :=
      sound_expr (A := A) ⟨text, true⟩ (Bool.eq_true_of_not_eq_false hok)
    obtain ⟨b₁, hb₁, heq₁⟩ := exists_blank (expr A ⟨text, true⟩).2.rest
    have hnil : skipWs (expr A ⟨text, true⟩).2.rest = [] := hrest
    rw [hnil, List.append_nil] at heq₁
    exact ⟨e, b ++ b₁, heq₁ ▸ heq, hb.append hb₁, he⟩
  · rintro ⟨e, b, rfl, hb, he⟩
    have hskip : skipWs b = [] := by
      have h := skipWs_append hb []
      rwa [List.append_nil] at h
    have hpeek : State.peek ⟨b, true⟩ = none := by rw [State.peek, hskip]; rfl
    have hnum : NoNumber b := by
      intro c hc
      by_contra hcn
      have hblank := hb c (List.mem_of_head? hc)
      rw [isBlank_of_isNumeric (Bool.eq_true_of_not_eq_false hcn)] at hblank
      cases hblank
    have hexpr : expr A ⟨e ++ b, true⟩ = (v, ⟨[], true⟩) := by
      have hfactor : NoFactor b := by rw [NoFactor, hpeek]; exact ⟨nofun, nofun⟩
      have hsummand : NoSummand b := by rw [NoSummand, hpeek]; exact ⟨nofun, nofun⟩
      have h := complete_of_derives he b hnum hfactor
      rw [h, exprLoop_stop hsummand, hskip]
    rw [hexpr]
    rfl

/-! ### Numbers -/

/-- The runs of digits and dots in a text are numbers. -/
def RunsProper (text : Text) : Prop :=
  ∀ run ∈ text.splitOnP fun b => !isNumeric b, run ≠ [] → Proper run

section
variable {x y b run : Text} {c : UInt8}

theorem lenient_of_proper (h : Proper run) : Lenient run := by
  obtain ⟨hnum, -, d, hd, -⟩ := h
  exact ⟨List.ne_nil_of_mem hd, hnum⟩

theorem runsProper_append_cons (hc : isNumeric c = false) :
    RunsProper (x ++ c :: y) ↔ RunsProper x ∧ RunsProper y := by
  rw [RunsProper, List.splitOnP_append_cons _ _ (by rw [hc]; rfl)]
  exact List.forall_mem_append

theorem runsProper_nil : RunsProper [] := by
  intro run hrun hne
  rw [List.splitOnP_nil, List.mem_singleton] at hrun
  exact absurd hrun hne

theorem runsProper_blank_append (h : Blank b) : RunsProper (b ++ x) ↔ RunsProper x := by
  induction b with
  | nil => rfl
  | cons c b ih =>
    have hc : isNumeric c = false := by
      by_contra hcn
      have hblank := h c List.mem_cons_self
      rw [isBlank_of_isNumeric (Bool.eq_true_of_not_eq_false hcn)] at hblank
      cases hblank
    have happ := runsProper_append_cons (x := []) (y := b ++ x) hc
    rw [List.nil_append] at happ
    rw [List.cons_append, happ, ih fun d hd => h d (List.mem_cons_of_mem _ hd)]
    exact ⟨fun h => h.2, fun h => ⟨runsProper_nil, h⟩⟩

theorem runsProper_append_blank (h : Blank b) : RunsProper (x ++ b) ↔ RunsProper x := by
  cases b with
  | nil => rw [List.append_nil]
  | cons c b =>
    have hc : isNumeric c = false := by
      by_contra hcn
      have hblank := h c List.mem_cons_self
      rw [isBlank_of_isNumeric (Bool.eq_true_of_not_eq_false hcn)] at hblank
      cases hblank
    have hb : RunsProper b := by
      have happ := runsProper_blank_append (x := []) fun d hd => h d (List.mem_cons_of_mem _ hd)
      rw [List.append_nil] at happ
      exact happ.mpr runsProper_nil
    rw [runsProper_append_cons hc]
    exact and_iff_left hb

/-- A token that is no number stands between two parts. -/
theorem runsProper_token (hb : Blank b) (hc : isNumeric c = false) :
    RunsProper (x ++ (b ++ c :: y)) ↔ RunsProper x ∧ RunsProper y := by
  rw [← List.append_assoc, runsProper_append_cons hc, runsProper_append_blank hb]

theorem runsProper_run (h : Lenient run) : RunsProper run ↔ Proper run := by
  rw [RunsProper, List.splitOnP_eq_singleton fun d hd => by rw [h.2 d hd]; rfl]
  rw [List.forall_mem_singleton]
  exact ⟨fun hp => hp h.1, fun hp _ => hp⟩

theorem runsProper_paren (hb : Blank b) :
    RunsProper (b ++ 40 :: (x ++ (y ++ [41]))) ↔ RunsProper (x ++ y) := by
  have hopen := runsProper_append_cons (x := b) (y := x ++ (y ++ [41])) (c := 40) (by decide)
  have hclose := runsProper_append_cons (x := x ++ y) (y := []) (c := 41) (by decide)
  have hblank := (runsProper_append_blank (x := []) hb).mpr runsProper_nil
  rw [hopen, ← List.append_assoc, hclose]
  exact ⟨fun h => h.2.1, fun h => ⟨hblank, h, runsProper_nil⟩⟩

end

/-- What is derived with numbers is what is derived with runs that are numbers. -/
theorem derives_proper_iff {X : Nonterminal} {s : Text} {v : α} :
    Derives A Proper X s v ↔ Derives A Lenient X s v ∧ RunsProper s := by
  constructor
  · intro h
    induction h with
    | term _ ih => exact ⟨.term ih.1, ih.2⟩
    | add _ hb _ ihs iht =>
      exact ⟨.add ihs.1 hb iht.1, (runsProper_token hb (by decide)).mpr ⟨ihs.2, iht.2⟩⟩
    | sub _ hb _ ihs iht =>
      exact ⟨.sub ihs.1 hb iht.1, (runsProper_token hb (by decide)).mpr ⟨ihs.2, iht.2⟩⟩
    | power _ ih => exact ⟨.power ih.1, ih.2⟩
    | mul _ hb _ ihs iht =>
      exact ⟨.mul ihs.1 hb iht.1, (runsProper_token hb (by decide)).mpr ⟨ihs.2, iht.2⟩⟩
    | div _ hb _ hzero ihs iht =>
      exact ⟨.div ihs.1 hb iht.1 hzero, (runsProper_token hb (by decide)).mpr ⟨ihs.2, iht.2⟩⟩
    | unary _ ih => exact ⟨.unary ih.1, ih.2⟩
    | pow _ hb _ ihs iht =>
      have htail := (runsProper_append_cons (x := []) (c := 42) (by decide)).mpr
        ⟨runsProper_nil, iht.2⟩
      exact ⟨.pow ihs.1 hb iht.1, (runsProper_token hb (by decide)).mpr ⟨ihs.2, htail⟩⟩
    | plus hb _ ih =>
      exact ⟨.plus hb ih.1, (runsProper_token (x := []) hb (by decide)).mpr ⟨runsProper_nil, ih.2⟩⟩
    | minus hb _ ih =>
      exact ⟨.minus hb ih.1, (runsProper_token (x := []) hb (by decide)).mpr ⟨runsProper_nil, ih.2⟩⟩
    | primary _ ih => exact ⟨.primary ih.1, ih.2⟩
    | number hb hn =>
      have hl := lenient_of_proper hn
      exact ⟨.number hb hl, (runsProper_blank_append hb).mpr ((runsProper_run hl).mpr hn)⟩
    | paren hb _ ht ih =>
      exact ⟨.paren hb ih.1 ht,
        (runsProper_paren hb).mpr ((runsProper_append_blank ht).mpr ih.2)⟩
  · rintro ⟨h, hruns⟩
    induction h with
    | term _ ih => exact .term (ih hruns)
    | add _ hb _ ihs iht =>
      obtain ⟨hs, ht⟩ := (runsProper_token hb (by decide)).mp hruns
      exact .add (ihs hs) hb (iht ht)
    | sub _ hb _ ihs iht =>
      obtain ⟨hs, ht⟩ := (runsProper_token hb (by decide)).mp hruns
      exact .sub (ihs hs) hb (iht ht)
    | power _ ih => exact .power (ih hruns)
    | mul _ hb _ ihs iht =>
      obtain ⟨hs, ht⟩ := (runsProper_token hb (by decide)).mp hruns
      exact .mul (ihs hs) hb (iht ht)
    | div _ hb _ hzero ihs iht =>
      obtain ⟨hs, ht⟩ := (runsProper_token hb (by decide)).mp hruns
      exact .div (ihs hs) hb (iht ht) hzero
    | unary _ ih => exact .unary (ih hruns)
    | pow _ hb _ ihs iht =>
      obtain ⟨hs, htail⟩ := (runsProper_token hb (by decide)).mp hruns
      have ht := ((runsProper_append_cons (x := []) (c := 42) (by decide)).mp htail).2
      exact .pow (ihs hs) hb (iht ht)
    | plus hb _ ih =>
      exact .plus hb (ih ((runsProper_token (x := []) hb (by decide)).mp hruns).2)
    | minus hb _ ih =>
      exact .minus hb (ih ((runsProper_token (x := []) hb (by decide)).mp hruns).2)
    | primary _ ih => exact .primary (ih hruns)
    | number hb hn =>
      exact .number hb ((runsProper_run hn).mp ((runsProper_blank_append hb).mp hruns))
    | paren hb _ ht ih =>
      exact .paren hb (ih ((runsProper_append_blank ht).mp ((runsProper_paren hb).mp hruns))) ht

theorem accepts_proper_iff {text : Text} {v : α} :
    Accepts A Proper text v ↔ Accepts A Lenient text v ∧ RunsProper text := by
  constructor
  · rintro ⟨s, b, rfl, hb, h⟩
    obtain ⟨hl, hruns⟩ := derives_proper_iff.mp h
    exact ⟨⟨s, b, rfl, hb, hl⟩, (runsProper_append_blank hb).mpr hruns⟩
  · rintro ⟨⟨s, b, rfl, hb, h⟩, hruns⟩
    exact ⟨s, b, rfl, hb, derives_proper_iff.mpr ⟨h, (runsProper_append_blank hb).mp hruns⟩⟩

/-- What is meant: the text is parsed exactly when it is an expression, and this is its value. -/
def Exact (A : Arithmetic α) (text : Text) : Prop :=
  ∀ v, parse A text = some v ↔ Accepts A Proper text v

/-- **The parser is exact** for a text if and only if its runs of digits and dots are numbers, or it
would not be an expression whatever they were. -/
theorem exact_iff (A : Arithmetic α) (text : Text) :
    Exact A text ↔ ((∃ v, Accepts A Lenient text v) → RunsProper text) := by
  constructor
  · rintro h ⟨v, hv⟩
    exact (accepts_proper_iff.mp ((h v).mp ((parse_eq_some_iff text v).mpr hv))).2
  · intro h v
    rw [parse_eq_some_iff, accepts_proper_iff]
    exact ⟨fun hv => ⟨hv, h ⟨v, hv⟩⟩, fun hv => hv.1⟩

/-- What `strtod` makes of digits and dots: it stops at the second dot. -/
def decimalPrefix (run : Text) : ℚ :=
  let whole := run.takeWhile isDigit
  let fraction := (run.dropWhile isDigit).tail.takeWhile isDigit
  value whole + value fraction / 10 ^ fraction.length

/-- The rational numbers, with powers by integers. -/
def rationals : Arithmetic ℚ where
  zero := 0
  literal := decimalPrefix
  neg x := -x
  add x y := x + y
  sub x y := x - y
  mul x y := x * y
  div x y := x / y
  pow x y := if y.den = 1 then x ^ y.num else 0
  isZero x := x = 0

/-- A number with two dots is taken for one with one. -/
theorem not_exact : ¬∀ text, Exact rationals text := by
  intro h
  have hbytes : Lenient (ofString "1.2.3") := ⟨by decide +kernel, by decide +kernel⟩
  have hderives : Derives rationals Lenient .primary (ofString "1.2.3")
      (decimalPrefix (ofString "1.2.3")) := .number (b := []) (List.forall_mem_nil _) hbytes
  have haccepts : Accepts rationals Lenient (ofString "1.2.3") (decimalPrefix (ofString "1.2.3")) :=
    ⟨_, [], (List.append_nil _).symm, List.forall_mem_nil _,
      .term (.power (.unary (.primary hderives)))⟩
  have hproper := (h _ _).mp ((parse_eq_some_iff _ _).mpr haccepts)
  obtain ⟨-, hdots, -⟩ := (runsProper_run hbytes).mp (accepts_proper_iff.mp hproper).2
  exact absurd hdots (by decide +kernel)

end Calculator

end SingularityShell
