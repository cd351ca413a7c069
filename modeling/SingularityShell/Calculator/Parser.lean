import SingularityShell.Lib.Ascii

/-!
# The calculator's parser

A recursive descent over the bytes of an expression. Each function returns a value and leaves the
parser at the byte after what it took; a flag records that something was wrong.

## Main definitions

* `Calculator.Arithmetic` — the numbers that are computed with
* `Calculator.State` — the bytes that are left, and the flag
* `Calculator.expr`, `Calculator.term`, `Calculator.power`, `Calculator.unary`,
  `Calculator.primary` — the functions of the parser
* `Calculator.parse` — the value of an expression

## Main results

* `Calculator.expr_eq`, `Calculator.exprLoop_eq` and so on — what each function does
-/

namespace SingularityShell

namespace Calculator

open Ascii

/-- What numbers can do. A literal is read from its digits and dots. -/
structure Arithmetic (α : Type*) where
  zero : α
  literal : Text → α
  neg : α → α
  add : α → α → α
  sub : α → α → α
  mul : α → α → α
  div : α → α → α
  pow : α → α → α
  isZero : α → Bool

structure State where
  rest : Text
  ok : Bool
  deriving DecidableEq

def isBlank (b : UInt8) : Bool := b = 32 || b = 9

/-- A byte of a number. -/
def isNumeric (b : UInt8) : Bool := isDigit b || b = 46

def skipWs (text : Text) : Text := text.dropWhile isBlank

/-- The byte after the blanks. -/
def State.peek (s : State) : Option UInt8 := (skipWs s.rest).head?

/-- Blanks are skipped, and then so many bytes. -/
def State.advance (s : State) (n : ℕ) : State := { s with rest := (skipWs s.rest).drop n }

/-- Two stars come after the blanks. -/
def State.stars (s : State) : Prop := s.peek = some 42 ∧ (s.advance 1).rest.head? = some 42

instance (s : State) : Decidable s.stars := inferInstanceAs (Decidable (_ ∧ _))

theorem length_skipWs_le (text : Text) : (skipWs text).length ≤ text.length :=
  (List.dropWhile_sublist _).length_le

theorem length_advance_le (s : State) (n : ℕ) : (s.advance n).rest.length ≤ s.rest.length := by
  rw [State.advance, List.length_drop]
  exact (Nat.sub_le _ _).trans (length_skipWs_le _)

/-- What is seen can be taken. -/
theorem length_advance_lt {s : State} {b : UInt8} (h : s.peek = some b) :
    (s.advance 1).rest.length < s.rest.length := by
  have hle := length_skipWs_le s.rest
  have hpos := List.length_pos_of_mem (List.mem_of_head? h)
  rw [State.advance, List.length_drop]
  omega

theorem length_advance_two_lt {s : State} (h : s.stars) :
    (s.advance 2).rest.length < s.rest.length := by
  have hlt := length_advance_lt h.1
  rw [State.advance, List.length_drop] at *
  omega

variable {α : Type*}

/-- A value, and a state that is not before another one. -/
abbrev After (α : Type*) (s : State) : Type _ :=
  { r : α × State // r.2.rest.length ≤ s.rest.length }

/-- A run of digits and dots. -/
def number (A : Arithmetic α) (s : State) : α × State :=
  let run := (skipWs s.rest).takeWhile isNumeric
  if run = [] then (A.zero, { s.advance 0 with ok := false })
  else (A.literal run, s.advance run.length)

variable (A : Arithmetic α)

theorem length_number_le (s : State) : (number A s).2.rest.length ≤ s.rest.length := by
  rw [number]
  dsimp only
  split_ifs
  · exact length_advance_le s 0
  · exact length_advance_le s _

/-! ### The functions

Each is defined together with the fact that it does not go back, by which the descent ends. -/

mutual

def exprAux (s : State) : After α s :=
  match termAux s with
  | ⟨v, hv⟩ =>
    match exprLoopAux v.1 v.2 with
    | ⟨r, hr⟩ => ⟨r, hr.trans hv⟩
termination_by 8 * s.rest.length + 6
decreasing_by all_goals omega

def exprLoopAux (v : α) (s : State) : After α s :=
  if s.ok then
    if h : s.peek = some 43 then
      have hlt := length_advance_lt h
      match termAux (s.advance 1) with
      | ⟨w, hw⟩ =>
        match exprLoopAux (A.add v w.1) w.2 with
        | ⟨r, hr⟩ => ⟨r, (hr.trans hw).trans hlt.le⟩
    else if h : s.peek = some 45 then
      have hlt := length_advance_lt h
      match termAux (s.advance 1) with
      | ⟨w, hw⟩ =>
        match exprLoopAux (A.sub v w.1) w.2 with
        | ⟨r, hr⟩ => ⟨r, (hr.trans hw).trans hlt.le⟩
    else ⟨(v, s.advance 0), length_advance_le s 0⟩
  else ⟨(v, s), le_rfl⟩
termination_by 8 * s.rest.length + 5
decreasing_by all_goals omega

def termAux (s : State) : After α s :=
  match powerAux s with
  | ⟨v, hv⟩ =>
    match termLoopAux v.1 v.2 with
    | ⟨r, hr⟩ => ⟨r, hr.trans hv⟩
termination_by 8 * s.rest.length + 4
decreasing_by all_goals omega

def termLoopAux (v : α) (s : State) : After α s :=
  if s.ok then
    if h : s.peek = some 42 ∧ ¬s.stars then
      have hlt := length_advance_lt h.1
      match powerAux (s.advance 1) with
      | ⟨w, hw⟩ =>
        match termLoopAux (A.mul v w.1) w.2 with
        | ⟨r, hr⟩ => ⟨r, (hr.trans hw).trans hlt.le⟩
    else if h : s.peek = some 47 then
      have hlt := length_advance_lt h
      match powerAux (s.advance 1) with
      | ⟨d, hd⟩ =>
        if A.isZero d.1 then ⟨(A.zero, { d.2 with ok := false }), hd.trans hlt.le⟩
        else
          match termLoopAux (A.div v d.1) d.2 with
          | ⟨r, hr⟩ => ⟨r, (hr.trans hd).trans hlt.le⟩
    else ⟨(v, s.advance 0), length_advance_le s 0⟩
  else ⟨(v, s), le_rfl⟩
termination_by 8 * s.rest.length + 3
decreasing_by all_goals omega

def powerAux (s : State) : After α s :=
  match unaryAux s with
  | ⟨b, hb⟩ =>
    if h : b.2.stars then
      have hlt := length_advance_two_lt h
      match powerAux (b.2.advance 2) with
      | ⟨e, he⟩ => ⟨(A.pow b.1 e.1, e.2), (he.trans hlt.le).trans hb⟩
    else ⟨(b.1, b.2.advance 0), (length_advance_le b.2 0).trans hb⟩
termination_by 8 * s.rest.length + 2
decreasing_by all_goals omega

def unaryAux (s : State) : After α s :=
  if h : s.peek = some 45 then
    have hlt := length_advance_lt h
    match unaryAux (s.advance 1) with
    | ⟨r, hr⟩ => ⟨(A.neg r.1, r.2), hr.trans hlt.le⟩
  else if h : s.peek = some 43 then
    have hlt := length_advance_lt h
    match unaryAux (s.advance 1) with
    | ⟨r, hr⟩ => ⟨r, hr.trans hlt.le⟩
  else
    have hle := length_advance_le s 0
    match primaryAux (s.advance 0) with
    | ⟨r, hr⟩ => ⟨r, hr.trans hle⟩
termination_by 8 * s.rest.length + 1
decreasing_by all_goals omega

def primaryAux (s : State) : After α s :=
  if h : s.peek = some 40 then
    have hlt := length_advance_lt h
    match exprAux (s.advance 1) with
    | ⟨v, hv⟩ =>
      if v.2.peek = some 41 then
        ⟨(v.1, v.2.advance 1), (length_advance_le v.2 1).trans (hv.trans hlt.le)⟩
      else
        ⟨(v.1, { v.2.advance 0 with ok := false }),
          (length_advance_le v.2 0).trans (hv.trans hlt.le)⟩
  else ⟨number A s, length_number_le A s⟩
termination_by 8 * s.rest.length
decreasing_by all_goals omega

end

def expr (s : State) : α × State := (exprAux A s).1

def exprLoop (v : α) (s : State) : α × State := (exprLoopAux A v s).1

def term (s : State) : α × State := (termAux A s).1

def termLoop (v : α) (s : State) : α × State := (termLoopAux A v s).1

def power (s : State) : α × State := (powerAux A s).1

def unary (s : State) : α × State := (unaryAux A s).1

def primary (s : State) : α × State := (primaryAux A s).1

/-- `ExprParser.parse` -/
def parse (text : Text) : Option α :=
  let v := expr A ⟨text, true⟩
  let s := v.2.advance 0
  if s.ok = false ∨ s.rest ≠ [] then none else some v.1

/-! ### What each function does -/

variable {A}

theorem expr_eq (s : State) : expr A s = exprLoop A (term A s).1 (term A s).2 := by
  rw [expr, exprAux]
  rfl

theorem exprLoop_eq (v : α) (s : State) :
    exprLoop A v s =
      if s.ok then
        if s.peek = some 43 then
          exprLoop A (A.add v (term A (s.advance 1)).1) (term A (s.advance 1)).2
        else if s.peek = some 45 then
          exprLoop A (A.sub v (term A (s.advance 1)).1) (term A (s.advance 1)).2
        else (v, s.advance 0)
      else (v, s) := by
  rw [exprLoop, exprLoopAux]
  split_ifs <;> rfl

theorem term_eq (s : State) : term A s = termLoop A (power A s).1 (power A s).2 := by
  rw [term, termAux]
  rfl

theorem termLoop_eq (v : α) (s : State) :
    termLoop A v s =
      if s.ok then
        if s.peek = some 42 ∧ ¬s.stars then
          termLoop A (A.mul v (power A (s.advance 1)).1) (power A (s.advance 1)).2
        else if s.peek = some 47 then
          if A.isZero (power A (s.advance 1)).1 then
            (A.zero, { (power A (s.advance 1)).2 with ok := false })
          else termLoop A (A.div v (power A (s.advance 1)).1) (power A (s.advance 1)).2
        else (v, s.advance 0)
      else (v, s) := by
  rw [termLoop, termLoopAux]
  simp only [power]
  split_ifs with hok hmul hdiv hzero
  · rfl
  · exact (if_pos hzero).symm
  · exact (if_neg hzero).symm
  · rfl
  · rfl

theorem power_eq (s : State) :
    power A s =
      if (unary A s).2.stars then
        (A.pow (unary A s).1 (power A ((unary A s).2.advance 2)).1,
          (power A ((unary A s).2.advance 2)).2)
      else ((unary A s).1, (unary A s).2.advance 0) := by
  rw [power, powerAux]
  simp only [unary]
  split_ifs with hstars
  · exact (if_pos hstars).symm
  · exact (if_neg hstars).symm

theorem unary_eq (s : State) :
    unary A s =
      if s.peek = some 45 then (A.neg (unary A (s.advance 1)).1, (unary A (s.advance 1)).2)
      else if s.peek = some 43 then unary A (s.advance 1)
      else primary A (s.advance 0) := by
  rw [unary, unaryAux]
  split_ifs <;> rfl

theorem primary_eq (s : State) :
    primary A s =
      if s.peek = some 40 then
        if (expr A (s.advance 1)).2.peek = some 41 then
          ((expr A (s.advance 1)).1, (expr A (s.advance 1)).2.advance 1)
        else ((expr A (s.advance 1)).1, { (expr A (s.advance 1)).2.advance 0 with ok := false })
      else number A s := by
  rw [primary, primaryAux]
  simp only [expr]
  split_ifs with hopen hclose
  · exact (if_pos hclose).symm
  · exact (if_neg hclose).symm
  · rfl

end Calculator

end SingularityShell
