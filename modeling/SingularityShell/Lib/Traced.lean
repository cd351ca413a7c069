import Mathlib.Tactic.TypeStar

/-!
# Computations with a trace

A computation that may stop and that leaves a trace of what it did, and rules for how it ends: with
a value, without one, or at an event that should not be.

## Main definitions

* `Traced` — a trace and a result
* `Traced.Reads` — how a computation ends whose value is known
* `Traced.Tells` — how one ends of which it is known whether it has a value

## Main results

* `Traced.Reads.bind`, `Traced.Reads.tells`, `Traced.Tells.bind` — the rules for one computation
  after the other
-/

namespace SingularityShell

/-- The events of a computation, and its value unless it stops. -/
structure Traced (ε σ α : Type*) where
  log : List ε
  result : Except σ α

namespace Traced

universe u

variable {ε σ : Type*} {α β : Type u}

def bind (x : Traced ε σ α) (f : α → Traced ε σ β) : Traced ε σ β :=
  match x.result with
  | .ok a => ⟨x.log ++ (f a).log, (f a).result⟩
  | .error s => ⟨x.log, .error s⟩

instance : Monad (Traced ε σ) where
  pure a := ⟨[], .ok a⟩
  bind := bind

/-- Stops without an event. -/
def stop (s : σ) : Traced ε σ α := ⟨[], .error s⟩

theorem pure_def (a : α) : (pure a : Traced ε σ α) = ⟨[], .ok a⟩ := rfl

theorem bind_of_ok {x : Traced ε σ α} {a : α} (h : x.result = .ok a) (f : α → Traced ε σ β) :
    (x >>= f) = ⟨x.log ++ (f a).log, (f a).result⟩ := by
  show bind x f = _
  rw [bind, h]

theorem bind_of_error {x : Traced ε σ α} {s : σ} (h : x.result = .error s)
    (f : α → Traced ε σ β) : (x >>= f) = ⟨x.log, .error s⟩ := by
  show bind x f = _
  rw [bind, h]

theorem result_bind {x : Traced ε σ α} {a : α} (h : x.result = .ok a) (f : α → Traced ε σ β) :
    (x >>= f).result = (f a).result := by
  rw [bind_of_ok h]

/-- The result of one computation after the other, when the first has a value `a` and the second is
`y` there. -/
theorem result_of_bind {x : Traced ε σ α} {a : α} {f : α → Traced ε σ β} {y : Traced ε σ β}
    {r : Except σ β} (h : x.result = .ok a) (hf : f a = y) (hr : y.result = r) :
    (x >>= f).result = r := by
  rw [result_bind h, hf, hr]

/-! ### How a computation ends -/

variable {p : ε → Prop} {bad : σ → Prop} {x : Traced ε σ α} {f : α → Traced ε σ β} {a : α}
  {b : β}

/-- There is a value, and every event has `p`. -/
def Gives (p : ε → Prop) (x : Traced ε σ α) (a : α) : Prop :=
  x.result = .ok a ∧ ∀ e ∈ x.log, p e

/-- The computation stops, but not in a bad way, and every event has `p`. -/
def Refuses (p : ε → Prop) (bad : σ → Prop) (x : Traced ε σ α) : Prop :=
  (∃ s, x.result = .error s ∧ ¬bad s) ∧ ∀ e ∈ x.log, p e

/-- The computation stops in a bad way, and some event does not have `p`. -/
def Fails (p : ε → Prop) (bad : σ → Prop) (x : Traced ε σ α) : Prop :=
  (∃ s, x.result = .error s ∧ bad s) ∧ ∃ e ∈ x.log, ¬p e

theorem gives_pure (a : α) : Gives p (pure a : Traced ε σ α) a :=
  ⟨rfl, fun _ he => absurd he List.not_mem_nil⟩

theorem refuses_stop {s : σ} (h : ¬bad s) : Refuses p bad (stop s : Traced ε σ α) :=
  ⟨⟨s, rfl, h⟩, fun _ he => absurd he List.not_mem_nil⟩

theorem Fails.bind (h : Fails p bad x) (f : α → Traced ε σ β) : Fails p bad (x >>= f) := by
  obtain ⟨⟨s, hs, hbad⟩, hlog⟩ := h
  rw [bind_of_error hs]
  exact ⟨⟨s, rfl, hbad⟩, hlog⟩

theorem Refuses.bind (h : Refuses p bad x) (f : α → Traced ε σ β) : Refuses p bad (x >>= f) := by
  obtain ⟨⟨s, hs, hbad⟩, hlog⟩ := h
  rw [bind_of_error hs]
  exact ⟨⟨s, rfl, hbad⟩, hlog⟩

theorem Gives.bind (h : Gives p x a) (hf : Gives p (f a) b) : Gives p (x >>= f) b := by
  rw [bind_of_ok h.1]
  exact ⟨hf.1, List.forall_mem_append.mpr ⟨h.2, hf.2⟩⟩

theorem Gives.bind_refuses (h : Gives p x a) (hf : Refuses p bad (f a)) :
    Refuses p bad (x >>= f) := by
  rw [bind_of_ok h.1]
  exact ⟨hf.1, List.forall_mem_append.mpr ⟨h.2, hf.2⟩⟩

theorem Gives.bind_fails (h : Gives p x a) (hf : Fails p bad (f a)) : Fails p bad (x >>= f) := by
  rw [bind_of_ok h.1]
  obtain ⟨hstop, e, he, hpe⟩ := hf
  exact ⟨hstop, e, List.mem_append_right _ he, hpe⟩

/-- The computation fails in the case `far`. Otherwise its value is the one of `o`, and it refuses
where there is none. -/
structure Reads (p : ε → Prop) (bad : σ → Prop) (x : Traced ε σ α) (o : Option α) (far : Prop) :
    Prop where
  fails : far → Fails p bad x
  refuses : ¬far → o = none → Refuses p bad x
  gives : ¬far → ∀ a, o = some a → Gives p x a

/-- The computation fails in the case `far`. Otherwise it has a value in the case `whole`, and
refuses where that is not the case. -/
structure Tells (p : ε → Prop) (bad : σ → Prop) (x : Traced ε σ α) (whole far : Prop) : Prop where
  fails : far → Fails p bad x
  refuses : ¬far → ¬whole → Refuses p bad x
  gives : ¬far → whole → ∃ a, Gives p x a

theorem Reads.of_fails {o : Option α} {far : Prop} (hfar : far) (h : Fails p bad x) :
    Reads p bad x o far :=
  ⟨fun _ => h, fun hnot => absurd hfar hnot, fun hnot => absurd hfar hnot⟩

theorem Reads.of_refuses {far : Prop} (hfar : ¬far) (h : Refuses p bad x) :
    Reads p bad x none far :=
  ⟨fun hf => absurd hf hfar, fun _ _ => h, fun _ a ha => absurd ha.symm (Option.some_ne_none a)⟩

theorem Reads.of_gives {far : Prop} (hfar : ¬far) (h : Gives p x a) :
    Reads p bad x (some a) far :=
  ⟨fun hf => absurd hf hfar, fun _ hnone => absurd hnone (Option.some_ne_none a),
    fun _ _ ha => Option.some.inj ha ▸ h⟩

theorem Tells.of_fails {whole far : Prop} (hfar : far) (h : Fails p bad x) :
    Tells p bad x whole far :=
  ⟨fun _ => h, fun hnot => absurd hfar hnot, fun hnot => absurd hfar hnot⟩

theorem Tells.of_refuses {whole far : Prop} (hfar : ¬far) (hwhole : ¬whole)
    (h : Refuses p bad x) : Tells p bad x whole far :=
  ⟨fun hf => absurd hf hfar, fun _ _ => h, fun _ hw => absurd hw hwhole⟩

theorem Tells.of_gives {whole far : Prop} (hfar : ¬far) (hwhole : whole) (h : Gives p x a) :
    Tells p bad x whole far :=
  ⟨fun hf => absurd hf hfar, fun _ hnot => absurd hwhole hnot, fun _ _ => ⟨a, h⟩⟩

theorem reads_pure (a : α) : Reads p bad (pure a : Traced ε σ α) (some a) False :=
  .of_gives id (gives_pure a)

theorem reads_stop {s : σ} (h : ¬bad s) : Reads p bad (stop s : Traced ε σ α) none False :=
  .of_refuses id (refuses_stop h)

theorem tells_pure (a : α) : Tells p bad (pure a : Traced ε σ α) True False :=
  .of_gives id trivial (gives_pure a)

theorem tells_stop {s : σ} (h : ¬bad s) : Tells p bad (stop s : Traced ε σ α) False False :=
  .of_refuses id id (refuses_stop h)

theorem Gives.bind_reads {o : Option β} {far : Prop} (h : Gives p x a)
    (hf : Reads p bad (f a) o far) : Reads p bad (x >>= f) o far where
  fails hfar := h.bind_fails (hf.fails hfar)
  refuses hfar hnone := h.bind_refuses (hf.refuses hfar hnone)
  gives hfar b hb := h.bind (hf.gives hfar b hb)

theorem Gives.bind_tells {whole far : Prop} (h : Gives p x a) (hf : Tells p bad (f a) whole far) :
    Tells p bad (x >>= f) whole far where
  fails hfar := h.bind_fails (hf.fails hfar)
  refuses hfar hwhole := h.bind_refuses (hf.refuses hfar hwhole)
  gives hfar hwhole := (hf.gives hfar hwhole).imp fun _ hb => h.bind hb

theorem Reads.congr {o o' : Option α} {far far' : Prop} (h : Reads p bad x o far) (ho : o = o')
    (hfar : far ↔ far') : Reads p bad x o' far' := ho ▸ propext hfar ▸ h

theorem Tells.congr {whole whole' far far' : Prop} (h : Tells p bad x whole far)
    (hwhole : whole ↔ whole') (hfar : far ↔ far') : Tells p bad x whole' far' :=
  propext hwhole ▸ propext hfar ▸ h

/-- **One computation after the other**, which has a value of its own. -/
theorem Reads.bind {o : Option α} {far : Prop} {o' : α → Option β} {far' : α → Prop}
    (hx : Reads p bad x o far) (hf : ∀ a, o = some a → Reads p bad (f a) (o' a) (far' a)) :
    Reads p bad (x >>= f) (o.bind o') (far ∨ ∃ a, o = some a ∧ far' a) := by
  by_cases hfar : far
  · exact .of_fails (.inl hfar) ((hx.fails hfar).bind f)
  cases o with
  | none => exact .of_refuses (by simpa using hfar) ((hx.refuses hfar rfl).bind f)
  | some a => exact ((hx.gives hfar a rfl).bind_reads (hf a rfl)).congr rfl (by simp [hfar])

/-- **One computation after the other**, which is told to have a value or not. -/
theorem Reads.tells {o : Option α} {far : Prop} {whole far' : α → Prop}
    (hx : Reads p bad x o far) (hf : ∀ a, o = some a → Tells p bad (f a) (whole a) (far' a)) :
    Tells p bad (x >>= f) (∃ a, o = some a ∧ whole a) (far ∨ ∃ a, o = some a ∧ far' a) := by
  by_cases hfar : far
  · exact .of_fails (.inl hfar) ((hx.fails hfar).bind f)
  cases o with
  | none => exact .of_refuses (by simpa using hfar) (by simp) ((hx.refuses hfar rfl).bind f)
  | some a => exact ((hx.gives hfar a rfl).bind_tells (hf a rfl)).congr (by simp) (by simp [hfar])

/-- **One computation after the other**, whatever value the first has. -/
theorem Tells.bind {whole far whole' far' : Prop} (hx : Tells p bad x whole far)
    (hf : ∀ a, Tells p bad (f a) whole' far') :
    Tells p bad (x >>= f) (whole ∧ whole') (far ∨ whole ∧ far') := by
  by_cases hfar : far
  · exact .of_fails (.inl hfar) ((hx.fails hfar).bind f)
  by_cases hwhole : whole
  · obtain ⟨a, ha⟩ := hx.gives hfar hwhole
    exact (ha.bind_tells (hf a)).congr (by simp [hwhole]) (by simp [hfar, hwhole])
  · exact .of_refuses (by simp [hfar, hwhole]) (fun h => hwhole h.1)
      ((hx.refuses hfar hwhole).bind f)

end Traced

end SingularityShell
