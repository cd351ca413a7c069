import Mathlib.Data.List.Nodup
import Mathlib.Logic.Function.Basic
import SingularityShell.Lib.Ascii
import SingularityShell.Lib.Transition

/-!
# Input sources

The shell types through the keyboard layout or through an engine of one of two frameworks. Choosing
a source waits for the framework twice: for an engine to be connected, and for the engine to select
what is asked for. Choices overlap, fail and lose their engines.

## Main definitions

* `Ime.Sources.InputSources`, `Ime.Sources.Activation` — the state, with the choices that wait
* `Ime.Sources.activate`, `cycle`, `configure`, `lost` — the methods and handlers
* `Ime.Sources.step` — these and what the frameworks do
* `Ime.Sources.InEffect`, `Ime.Sources.Proper` — what is meant
* `Ime.Sources.Regular` — steps that keep it

## Main results

* `Ime.Sources.proper_sources_of_regular` — the source that is named is in effect, in runs of
  regular steps
* `Ime.Sources.not_proper_sources` — an engine of the other framework that refuses
-/

namespace SingularityShell

namespace Ime

namespace Sources

open Ascii

/-! ### Identifiers -/

/-- What stands before the first colon. -/
def frameworkOf (id : Text) : Text := id.takeWhile (· ≠ 58)

/-- What stands after it. -/
def nameOf (id : Text) : Text := (id.dropWhile (· ≠ 58)).tail

/-- The settings, and which daemons are found. -/
structure Env where
  /-- `input-method-framework` -/
  wanted : Text := ofString "auto"
  /-- `input-method-engines` -/
  engines : List Text := []
  installed : Text → Bool := fun _ => true

def installedFrameworks (env : Env) : List Text :=
  [ofString "fcitx5", ofString "ibus"].filter fun id =>
    (env.wanted = ofString "auto" || env.wanted = [] || id = env.wanted) && env.installed id

def frameworkFor (env : Env) (id : Text) : Option Text :=
  (installedFrameworks env).find? fun framework => framework = id

def configured (env : Env) : List Text :=
  env.engines.foldl (fun result id => if id ∈ result then result else result ++ [id]) []

/-! ### The state -/

/-- Where an activation waits. -/
inductive Phase where
  | connecting
  | selecting (engine : ℕ)
  /-- The engine has answered, and the activation is about to go on. -/
  | answered (engine : ℕ) (ok : Bool)
  deriving DecidableEq

structure Activation where
  generation : ℕ
  id : Text
  phase : Phase
  deriving DecidableEq

structure Engine where
  framework : Text
  live : Bool
  /-- The name that it has accepted last. -/
  accepted : Option Text

structure InputSources where
  current : Text := []
  engine : Option ℕ := none
  connecting : Bool := false
  engineFramework : Text := []
  /-- The number of the last call. It is a `uint`: two activations would have to wait `2 ^ 32` calls
  apart to have the same one. -/
  generation : ℕ := 0
  /-- The activations that wait, in the order of their calls. -/
  waiting : List Activation := []
  engines : ℕ → Engine := fun _ => ⟨[], false, none⟩
  /-- How many engines have been connected. -/
  created : ℕ := 0

/-- `activate`, as far as its first wait. -/
def activate (env : Env) (id : Text) (s : InputSources) : InputSources :=
  let s := { s with generation := s.generation + 1 }
  if id = [] then { s with current := [] }
  else if 58 ∉ id ∨ frameworkOf id = [] then s
  else
    match frameworkFor env (frameworkOf id) with
    | none => s
    | some framework =>
      let phase :=
        match s.engine with
        | some e => if s.engineFramework = framework then .selecting e else .connecting
        | none => .connecting
      { s with connecting := true, waiting := s.waiting ++ [⟨s.generation, id, phase⟩] }

/-- The source that follows the current one. -/
def next (env : Env) (s : InputSources) : Text :=
  let order := [] :: configured env
  let index := order.zipIdx.foldl (fun index p => if p.1 = s.current then p.2 else index) 0
  order.getD ((index + 1) % order.length) []

def cycle (env : Env) (s : InputSources) : InputSources := activate env (next env s) s

/-- The configured engines have changed. -/
def configure (env : Env) (s : InputSources) : InputSources :=
  if s.current ≠ [] ∧ s.current ∉ configured env then activate env [] s else s

/-- The handler of `lost`, which an engine has from when it is put in place. -/
def lost (env : Env) (e : ℕ) (s : InputSources) : InputSources :=
  let s := { s with engines := Function.update s.engines e { s.engines e with live := false } }
  if s.engine ≠ some e then s
  else
    let s := { s with engine := none, engineFramework := [] }
    if s.current ≠ [] then activate env s.current s else s

/-- The end of an activation. -/
def finish (generation : ℕ) (s : InputSources) : InputSources :=
  { s with connecting := false, waiting := s.waiting.filter (·.generation ≠ generation) }

def setPhase (generation : ℕ) (phase : Phase) (waiting : List Activation) : List Activation :=
  waiting.map fun a => if a.generation = generation then { a with phase := phase } else a

/-- What an activation does once `connect_engine` is done. -/
def connected (ok : Bool) (a : Activation) (s : InputSources) : InputSources :=
  if !ok then finish a.generation s
  else
    let e := s.created
    let s := { s with
      engines := Function.update s.engines e ⟨frameworkOf a.id, true, none⟩
      created := s.created + 1 }
    if a.generation ≠ s.generation then finish a.generation s
    else
      { s with
        engine := some e
        engineFramework := frameworkOf a.id
        waiting := setPhase a.generation (.selecting e) s.waiting }

/-- An engine answers the oldest request that it has. -/
def answer (e : ℕ) (ok : Bool) (a : Activation) (s : InputSources) : InputSources :=
  { s with
    waiting := setPhase a.generation (.answered e ok) s.waiting
    engines := if ok then Function.update s.engines e
        { s.engines e with accepted := some (nameOf a.id) } else s.engines }

/-- What an activation does once `select_engine` is done. -/
def selected (ok : Bool) (a : Activation) (s : InputSources) : InputSources :=
  let s := finish a.generation s
  if ok ∧ a.generation = s.generation then { s with current := a.id } else s

/-! ### Events -/

inductive Event where
  | activate (env : Env) (id : Text)
  | cycle (env : Env)
  | configure (env : Env)
  | lost (env : Env) (engine : ℕ)
  | connected (generation : ℕ) (ok : Bool)
  | answers (engine : ℕ) (ok : Bool)
  | resumes (generation : ℕ)

/-- The request that an engine is at. -/
def request (s : InputSources) (e : ℕ) : Option Activation :=
  s.waiting.find? fun a => a.phase = .selecting e

/-- One event. What is not possible leaves everything as it is. -/
def step (s : InputSources) : Event → InputSources
  | .activate env id => activate env id s
  | .cycle env => cycle env s
  | .configure env => configure env s
  | .lost env e => if (s.engines e).live then lost env e s else s
  | .connected generation ok =>
    match s.waiting.find? fun a => a.generation = generation ∧ a.phase = .connecting with
    | none => s
    | some a => connected ok a s
  | .answers e ok =>
    match request s e with
    | none => s
    | some a => if ok && !(s.engines e).live then s else answer e ok a s
  | .resumes generation =>
    match s.waiting.find? fun a => a.generation = generation with
    | none => s
    | some a =>
      match a.phase with
      | .answered _ ok => selected ok a s
      | _ => s

def run (events : List Event) : InputSources := Transition.run step {} events

/-! ### What is meant -/

variable {s : InputSources} {env : Env} {id : Text}

/-- The source that is named is the one that types. -/
def InEffect (s : InputSources) : Prop :=
  s.current = [] ∨ ∃ e, s.engine = some e ∧ (s.engines e).live = true ∧
    (s.engines e).framework = frameworkOf s.current ∧
    (s.engines e).accepted = some (nameOf s.current)

/-- The activation is the one of the last call. -/
def Activation.Newest (s : InputSources) (a : Activation) : Prop := a.generation = s.generation

structure Proper (s : InputSources) : Prop where
  effect : s.waiting = [] → InEffect s
  connecting : s.connecting = true ↔ ∃ a ∈ s.waiting, a.Newest s

/-- The call waits for its framework. -/
def Waits (env : Env) (id : Text) : Prop :=
  58 ∈ id ∧ frameworkOf id ≠ [] ∧ (frameworkFor env (frameworkOf id)).isSome = true

/-- The call is refused at once. -/
def Refused (env : Env) (id : Text) : Prop := id ≠ [] ∧ ¬Waits env id

/-- The source that an event chooses. -/
def Event.choice (s : InputSources) : Event → Option (Env × Text)
  | .activate env id => some (env, id)
  | .cycle env => some (env, next env s)
  | _ => none

/-- What the activation that waits will make current if it succeeds. -/
def outcome (s : InputSources) : Option Text :=
  (s.waiting.find? fun a => a.generation = s.generation).map Activation.id

/-- An activation ends before a later one has begun to wait or after that has ended; it fails only
where what is current is in effect, and succeeds only with its engine in place. An engine accepts
what has been superseded only where it is not the one that types. A call that does not wait is made
only while none waits, and a lost engine is called for again only where it is installed. -/
def Regular (s : InputSources) : Event → Prop
  | .activate env id => Waits env id ∨ s.connecting = false
  | .cycle env => Waits env (next env s) ∨ s.connecting = false
  | .configure env => s.current ≠ [] ∧ s.current ∉ configured env → s.connecting = false
  | .lost env e => s.engine = some e → s.current ≠ [] → Waits env s.current
  | .connected generation ok => ∀ a ∈ s.waiting, a.generation = generation → a.phase = .connecting →
    (a.Newest s → ok = false → InEffect s) ∧ (¬a.Newest s → s.connecting = false)
  | .answers e ok => ok = true → ∀ a, request s e = some a → ¬a.Newest s →
    s.connecting = true ∨ s.engine ≠ some e ∨ s.current = []
  | .resumes generation => ∀ a ∈ s.waiting, a.generation = generation → ∀ e ok,
    a.phase = .answered e ok → (a.Newest s → if ok then s.engine = some e else InEffect s) ∧
      (¬a.Newest s → s.connecting = false)

/-! ### The invariant -/

/-- What is known of the activation of the last call. -/
def Activation.Sound (s : InputSources) (a : Activation) : Prop :=
  match a.phase with
  | .connecting => True
  | .selecting e => e < s.created ∧ (s.engines e).framework = frameworkOf a.id
  | .answered e ok => e < s.created ∧ (ok = true → (s.engines e).framework = frameworkOf a.id ∧
      (s.engines e).accepted = some (nameOf a.id) ∧ ∀ b ∈ s.waiting, b.phase ≠ .selecting e)

/-- The activations and engines of every state. -/
structure Base (s : InputSources) : Prop where
  order : s.waiting.Pairwise (·.generation < ·.generation)
  generations : ∀ a ∈ s.waiting, a.generation ≤ s.generation
  engine : ∀ e, s.engine = some e → e < s.created ∧ (s.engines e).live = true ∧
    (s.engines e).framework = s.engineFramework
  newest : ∀ a ∈ s.waiting, a.Newest s → a.Sound s

structure Kept (s : InputSources) : Prop extends Base s where
  connecting : s.connecting = true ↔ ∃ a ∈ s.waiting, a.Newest s
  effect : s.connecting = false → InEffect s

theorem Kept.proper (h : Kept s) : Proper s where
  effect hnil := by
    refine h.effect (Bool.eq_false_iff.mpr fun hc => ?_)
    obtain ⟨a, ha, -⟩ := h.connecting.mp hc
    rw [hnil] at ha
    cases ha
  connecting := h.connecting

theorem frameworkFor_eq {framework : Text} (h : frameworkFor env id = some framework) :
    framework = id := by
  simpa using List.find?_some h

/-- The call that waits becomes the last. -/
theorem kept_activate_of_waits (h : Base s) (hw : Waits env id) : Kept (activate env id s) := by
  obtain ⟨hcolon, hne, hfor⟩ := hw
  have hid : id ≠ [] := fun he => by simp [he] at hcolon
  obtain ⟨framework, hframework⟩ := Option.isSome_iff_exists.mp hfor
  obtain ⟨phase, hphase⟩ : ∃ phase, phase = (match s.engine with
    | some e => if s.engineFramework = framework then Phase.selecting e else .connecting
    | none => .connecting) := ⟨_, rfl⟩
  have hbad : ¬(58 ∉ id ∨ frameworkOf id = []) := fun hb => hb.elim (· hcolon) hne
  have heq : activate env id s = { s with
      generation := s.generation + 1, connecting := true,
      waiting := s.waiting ++ [⟨s.generation + 1, id, phase⟩] } := by
    rw [activate]
    simp only [hid, if_false, hbad, hframework, ← hphase]
  rw [heq]
  have hlast : ⟨s.generation + 1, id, phase⟩ ∈ s.waiting ++ [⟨s.generation + 1, id, phase⟩] :=
    List.mem_append_right _ (List.mem_singleton_self _)
  refine ⟨⟨?_, ?_, h.engine, ?_⟩, ⟨fun _ => ⟨_, hlast, rfl⟩, fun _ => rfl⟩,
    fun hc => absurd hc (by simp)⟩
  · refine List.pairwise_append.mpr ⟨h.order, List.pairwise_singleton _ _, fun a ha b hb => ?_⟩
    rw [List.mem_singleton.mp hb]
    exact Nat.lt_succ_of_le (h.generations a ha)
  · intro a ha
    rcases List.mem_append.mp ha with ha | ha
    · exact Nat.le_succ_of_le (h.generations a ha)
    · rw [List.mem_singleton.mp ha]
  · intro a ha hnew
    rcases List.mem_append.mp ha with ha | ha
    · have hgen : a.generation = s.generation + 1 := hnew
      exact absurd (h.generations a ha) (by omega)
    · rw [List.mem_singleton.mp ha, Activation.Sound]
      dsimp only
      cases hengine : s.engine with
      | none =>
        rw [hengine] at hphase
        rw [hphase]
        trivial
      | some e =>
        rw [hengine] at hphase
        dsimp only at hphase
        split_ifs at hphase with hsame
        · obtain ⟨hlt, -, hfw⟩ := h.engine e hengine
          rw [hphase]
          exact ⟨hlt, hfw.trans (hsame.trans (frameworkFor_eq hframework))⟩
        · rw [hphase]
          trivial

/-- A call that does not wait is made while none waits. -/
theorem kept_activate (h : Kept s) (hok : Waits env id ∨ s.connecting = false) :
    Kept (activate env id s) := by
  by_cases hw : Waits env id
  · exact kept_activate_of_waits h.toBase hw
  · have hidle : s.connecting = false := hok.resolve_left hw
    have hold : ∀ a ∈ s.waiting, a.generation ≠ s.generation + 1 := fun a ha he =>
      absurd (h.generations a ha) (by omega)
    have hbase : ∀ t : InputSources, t.waiting = s.waiting → t.generation = s.generation + 1 →
        t.engine = s.engine → t.engines = s.engines → t.created = s.created →
        t.engineFramework = s.engineFramework → Base t := by
      rintro t hw hg he hes hc hf
      refine ⟨hw ▸ h.order, fun a ha => ?_, fun e hte => ?_, fun a ha hn => ?_⟩
      · exact hg ▸ Nat.le_succ_of_le (h.generations a (hw ▸ ha))
      · rw [hes, hc, hf]
        exact h.engine e (he ▸ hte)
      · exact absurd (hg ▸ hn) (hold a (hw ▸ ha))
    have hconn : ∀ t : InputSources, t.waiting = s.waiting → t.generation = s.generation + 1 →
        t.connecting = s.connecting → (t.connecting = true ↔ ∃ a ∈ t.waiting, a.Newest t) := by
      rintro t hw hg hc
      rw [hc, hidle]
      refine ⟨fun hf => absurd hf (by decide), ?_⟩
      rintro ⟨a, ha, hn⟩
      exact absurd (hg ▸ hn) (hold a (hw ▸ ha))
    rw [activate]
    dsimp only
    by_cases hid : id = []
    · rw [if_pos hid]
      exact ⟨hbase _ rfl rfl rfl rfl rfl rfl, hconn _ rfl rfl rfl, fun _ => .inl rfl⟩
    · have hstays : Kept { s with generation := s.generation + 1 } :=
        ⟨hbase _ rfl rfl rfl rfl rfl rfl, hconn _ rfl rfl rfl, fun _ => h.effect hidle⟩
      rw [if_neg hid]
      split_ifs with hbad
      · exact hstays
      · cases hfor : frameworkFor env (frameworkOf id) with
        | none => exact hstays
        | some framework =>
          rw [not_or, not_not] at hbad
          exact absurd ⟨hbad.1, hbad.2, Option.isSome_iff_exists.mpr ⟨_, hfor⟩⟩ hw

/-! ### The end of an activation -/

/-- Nothing is said about the newest activation but in terms of these. -/
theorem Activation.Sound.congr {t : InputSources} {a : Activation} (h : a.Sound s)
    (hcreated : s.created ≤ t.created) (hengines : ∀ e, e < s.created →
      (t.engines e).framework = (s.engines e).framework ∧
        (t.engines e).accepted = (s.engines e).accepted)
    (hwaiting : ∀ b ∈ t.waiting, ∀ e < s.created, b.phase = .selecting e →
      ∃ c ∈ s.waiting, c.phase = .selecting e) : a.Sound t := by
  rw [Activation.Sound] at h ⊢
  cases hphase : a.phase with
  | connecting => trivial
  | selecting e =>
    rw [hphase] at h
    obtain ⟨hlt, hframework⟩ := h
    exact ⟨hlt.trans_le hcreated, (hengines e hlt).1.trans hframework⟩
  | answered e ok =>
    rw [hphase] at h
    obtain ⟨hlt, hok⟩ := h
    refine ⟨hlt.trans_le hcreated, fun ho => ?_⟩
    obtain ⟨hframework, haccepted, hnone⟩ := hok ho
    refine ⟨(hengines e hlt).1.trans hframework, (hengines e hlt).2.trans haccepted, ?_⟩
    intro b hb hsel
    obtain ⟨c, hc, hcsel⟩ := hwaiting b hb e hlt hsel
    exact hnone c hc hcsel

theorem base_finish (h : Base s) (generation : ℕ) : Base (finish generation s) where
  order := h.order.filter _
  generations a ha := h.generations a (List.mem_of_mem_filter ha)
  engine := h.engine
  newest a ha hn := (h.newest a (List.mem_of_mem_filter ha) hn).congr (Nat.le_refl _)
    (fun _ _ => ⟨rfl, rfl⟩) fun b hb _ _ hsel => ⟨b, List.mem_of_mem_filter hb, hsel⟩

/-- The last activation ends, or an earlier one while the last does not wait. -/
theorem connecting_finish {generation : ℕ}
    (hconn : s.connecting = true ↔ ∃ a ∈ s.waiting, a.Newest s)
    (h : generation ≠ s.generation → s.connecting = false) :
    (finish generation s).connecting = true ↔
      ∃ a ∈ (finish generation s).waiting, a.Newest (finish generation s) := by
  refine ⟨fun hc => absurd hc (by simp [finish]), ?_⟩
  rintro ⟨a, ha, hn⟩
  obtain ⟨hmem, hne⟩ := List.mem_filter.mp ha
  have hgen : a.generation = s.generation := hn
  have hother : generation ≠ s.generation := fun he =>
    absurd (hgen.trans he.symm) (of_decide_eq_true hne)
  exact absurd (hconn.mpr ⟨a, hmem, hn⟩) (by simp [h hother])

theorem kept_finish {generation : ℕ} (h : Kept s)
    (hother : generation ≠ s.generation → s.connecting = false)
    (hnewest : generation = s.generation → InEffect s) : Kept (finish generation s) := by
  refine ⟨base_finish h.toBase generation, connecting_finish h.connecting hother, fun _ => ?_⟩
  by_cases hgen : generation = s.generation
  · exact hnewest hgen
  · exact h.effect (hother hgen)

/-! ### What the frameworks do -/

theorem base_created (h : Base s) (engine : Engine) : Base { s with
    engines := Function.update s.engines s.created engine, created := s.created + 1 } := by
  have hold : ∀ e, e < s.created → Function.update s.engines s.created engine e = s.engines e :=
    fun e he => Function.update_of_ne (Nat.ne_of_lt he) ..
  refine ⟨h.order, h.generations, fun e he => ?_, fun a ha hn => ?_⟩
  · obtain ⟨hlt, hlive, hframework⟩ := h.engine e he
    dsimp only
    rw [hold e hlt]
    exact ⟨Nat.lt_succ_of_lt hlt, hlive, hframework⟩
  · refine (h.newest a ha hn).congr (Nat.le_succ _) (fun e he => ?_)
      fun b hb _ _ hsel => ⟨b, hb, hsel⟩
    dsimp only
    rw [hold e he]
    exact ⟨rfl, rfl⟩

theorem inEffect_created (h : Base s) (heffect : InEffect s) (engine : Engine) : InEffect { s with
    engines := Function.update s.engines s.created engine, created := s.created + 1 } := by
  rcases heffect with hnil | ⟨e, he, hrest⟩
  · exact .inl hnil
  · refine .inr ⟨e, he, ?_⟩
    dsimp only
    rw [Function.update_of_ne (Nat.ne_of_lt (h.engine e he).1)]
    exact hrest

/-- Generations tell the activations apart. -/
theorem Base.eq_of_generation (h : Base s) {a b : Activation} (ha : a ∈ s.waiting)
    (hb : b ∈ s.waiting) (he : a.generation = b.generation) : a = b := by
  have hnodup : (s.waiting.map Activation.generation).Nodup :=
    (List.pairwise_map.mpr h.order).imp Nat.ne_of_lt
  exact List.inj_on_of_nodup_map hnodup ha hb he

theorem generation_setPhase (generation : ℕ) (phase : Phase) (a : Activation) :
    (if a.generation = generation then { a with phase := phase } else a).generation =
      a.generation := by
  split_ifs <;> rfl

theorem order_setPhase (h : Base s) (generation : ℕ) (phase : Phase) :
    (setPhase generation phase s.waiting).Pairwise (·.generation < ·.generation) := by
  rw [setPhase, List.pairwise_map]
  refine h.order.imp fun hab => ?_
  rwa [generation_setPhase, generation_setPhase]

/-- Only the activation itself is changed. -/
theorem mem_setPhase (h : Base s) {a : Activation} (ha : a ∈ s.waiting) (phase : Phase)
    {b : Activation} : b ∈ setPhase a.generation phase s.waiting ↔
      b = { a with phase := phase } ∨ b ∈ s.waiting ∧ b.generation ≠ a.generation := by
  rw [setPhase, List.mem_map]
  constructor
  · rintro ⟨c, hc, rfl⟩
    by_cases hgen : c.generation = a.generation
    · rw [if_pos hgen, h.eq_of_generation hc ha hgen]
      exact .inl rfl
    · rw [if_neg hgen]
      exact .inr ⟨hc, hgen⟩
  · rintro (rfl | ⟨hb, hgen⟩)
    · exact ⟨a, ha, if_pos rfl⟩
    · exact ⟨b, hb, if_neg hgen⟩

theorem newest_setPhase (h : Base s) {a : Activation} (ha : a ∈ s.waiting) (phase : Phase) :
    (∃ b ∈ setPhase a.generation phase s.waiting, b.generation = s.generation) ↔
      ∃ b ∈ s.waiting, b.generation = s.generation := by
  constructor
  · rintro ⟨b, hb, hn⟩
    rcases (mem_setPhase h ha phase).mp hb with rfl | ⟨hb, -⟩
    · exact ⟨a, ha, hn⟩
    · exact ⟨b, hb, hn⟩
  · rintro ⟨b, hb, hn⟩
    by_cases hgen : b.generation = a.generation
    · exact ⟨_, (mem_setPhase h ha phase).mpr (.inl rfl), hgen.symm.trans hn⟩
    · exact ⟨b, (mem_setPhase h ha phase).mpr (.inr ⟨hb, hgen⟩), hn⟩

theorem generations_setPhase (h : Base s) {a : Activation} (ha : a ∈ s.waiting) (phase : Phase) :
    ∀ b ∈ setPhase a.generation phase s.waiting, b.generation ≤ s.generation := by
  intro b hb
  rcases (mem_setPhase h ha phase).mp hb with rfl | ⟨hb, -⟩
  · exact h.generations a ha
  · exact h.generations b hb

theorem kept_connected {ok : Bool} {a : Activation} (h : Kept s) (ha : a ∈ s.waiting)
    (hfail : a.Newest s → ok = false → InEffect s) (hother : ¬a.Newest s → s.connecting = false) :
    Kept (connected ok a s) := by
  rw [connected]
  cases ok with
  | false => exact kept_finish h hother fun hn => hfail hn rfl
  | true =>
    have hbase := base_created h.toBase ⟨frameworkOf a.id, true, none⟩
    rw [if_neg (by decide)]
    dsimp only
    split_ifs with hn
    · have hcreated : Kept { s with
          engines := Function.update s.engines s.created ⟨frameworkOf a.id, true, none⟩
          created := s.created + 1 } :=
        ⟨hbase, h.connecting, fun hc => inEffect_created h.toBase (h.effect hc) _⟩
      exact kept_finish hcreated hother fun he => absurd he hn
    · rw [not_not] at hn
      have hconnecting : s.connecting = true := h.connecting.mpr ⟨a, ha, hn⟩
      refine ⟨⟨order_setPhase h.toBase _ _, generations_setPhase h.toBase ha _, fun e he => ?_,
        fun b hb hnb => ?_⟩, ?_, fun hc => absurd (hconnecting.symm.trans hc) (by decide)⟩
      · obtain rfl := Option.some.inj he
        dsimp only
        rw [Function.update_self]
        exact ⟨Nat.lt_succ_self _, rfl, rfl⟩
      · rcases (mem_setPhase h.toBase ha _).mp hb with rfl | ⟨-, hne⟩
        · rw [Activation.Sound]
          dsimp only
          rw [Function.update_self]
          exact ⟨Nat.lt_succ_self _, rfl⟩
        · exact absurd (Eq.trans hnb hn.symm) hne
      · exact h.connecting.trans (newest_setPhase h.toBase ha _).symm

/-- The request that an engine is at is the only one, if it is of the last call. -/
theorem request_newest (h : Base s) {e : ℕ} {a : Activation} (hrequest : request s e = some a)
    (hn : a.Newest s) : ∀ b ∈ s.waiting, b.phase = .selecting e → b = a := by
  intro b hb hphase
  obtain ⟨-, before, after, hlist, hbefore⟩ := List.find?_eq_some_iff_append.mp hrequest
  rw [hlist] at hb
  rcases List.mem_append.mp hb with hin | hin
  · have := hbefore b hin
    rw [decide_eq_true hphase] at this
    cases this
  rcases List.mem_cons.mp hin with he | hin
  · exact he
  · have horder := h.order
    rw [hlist] at horder
    have hlt : a.generation < b.generation :=
      List.rel_of_pairwise_cons (List.pairwise_append.mp horder).2.1 hin
    have hle : b.generation ≤ s.generation := h.generations b (hlist ▸ hb)
    have hgen : a.generation = s.generation := hn
    omega

theorem kept_answer {e : ℕ} {ok : Bool} {a : Activation} (h : Kept s)
    (hrequest : request s e = some a) (hok : ok = true → ¬a.Newest s →
      s.connecting = true ∨ s.engine ≠ some e ∨ s.current = []) : Kept (answer e ok a s) := by
  have ha : a ∈ s.waiting := List.mem_of_find?_eq_some hrequest
  have hphase : a.phase = .selecting e := by simpa using List.find?_some hrequest
  obtain ⟨engines, hengines⟩ : ∃ engines, engines = if ok then Function.update s.engines e
    { s.engines e with accepted := some (nameOf a.id) } else s.engines := ⟨_, rfl⟩
  have hsame : ∀ i, (engines i).framework = (s.engines i).framework ∧
      (engines i).live = (s.engines i).live := by
    intro i
    rw [hengines]
    split_ifs
    · by_cases hi : i = e
      · rw [hi, Function.update_self]
        exact ⟨rfl, rfl⟩
      · rw [Function.update_of_ne hi]
        exact ⟨rfl, rfl⟩
    · exact ⟨rfl, rfl⟩
  have hother : ∀ i, ok = false ∨ i ≠ e → engines i = s.engines i := by
    rintro i (hf | hi)
    · rw [hengines, hf, if_neg (by decide)]
    · rw [hengines]
      split_ifs
      · exact Function.update_of_ne hi ..
      · rfl
  rw [answer, ← hengines]
  refine ⟨⟨order_setPhase h.toBase _ _, generations_setPhase h.toBase ha _, fun i hi => ?_,
    fun b hb hnb => ?_⟩, ?_, fun hc => ?_⟩
  · dsimp only
    rw [(hsame i).1, (hsame i).2]
    exact h.engine i hi
  · rcases (mem_setPhase h.toBase ha _).mp hb with rfl | ⟨hb, hne⟩
    · have hsound := h.newest a ha hnb
      rw [Activation.Sound, hphase] at hsound
      refine ⟨hsound.1, fun ho => ⟨(hsame e).1.trans hsound.2, ?_, fun c hc hsel => ?_⟩⟩
      · show (engines e).accepted = _
        rw [hengines, if_pos ho, Function.update_self]
      · rcases (mem_setPhase h.toBase ha _).mp hc with rfl | ⟨hc, hne⟩
        · cases hsel
        · exact hne (congrArg _ (request_newest h.toBase hrequest hnb c hc hsel))
    · have hsound := h.newest b hb hnb
      rw [Activation.Sound] at hsound ⊢
      cases hbphase : b.phase with
      | connecting => trivial
      | selecting i =>
        rw [hbphase] at hsound
        exact ⟨hsound.1, (hsame i).1.trans hsound.2⟩
      | answered i done =>
        rw [hbphase] at hsound
        refine ⟨hsound.1, fun hd => ?_⟩
        obtain ⟨hframework, haccepted, hnone⟩ := hsound.2 hd
        -- An engine that has answered the last call has no request left.
        have hi : i ≠ e := fun hi => hnone a ha (hi ▸ hphase)
        refine ⟨(hsame i).1.trans hframework, ?_, fun c hc hsel => ?_⟩
        · dsimp only
          rw [hother i (.inr hi)]
          exact haccepted
        · rcases (mem_setPhase h.toBase ha _).mp hc with rfl | ⟨hc, -⟩
          · cases hsel
          · exact hnone c hc hsel
  · exact h.connecting.trans (newest_setPhase h.toBase ha _).symm
  · rcases h.effect hc with hnil | ⟨i, hi, hlive, hframework, haccepted⟩
    · exact .inl hnil
    · by_cases hchanged : ok = true ∧ i = e
      · have hn : ¬a.Newest s := fun hn =>
          absurd (h.connecting.mpr ⟨a, ha, hn⟩) (by rw [show s.connecting = false from hc]; decide)
        rcases hok hchanged.1 hn with hcon | heng | hnil
        · exact absurd (hcon.symm.trans hc) (by decide)
        · exact absurd (hchanged.2 ▸ hi) heng
        · exact .inl hnil
      · have hstays : engines i = s.engines i := by
          refine hother i ?_
          rcases not_and_or.mp hchanged with hf | hi
          · exact .inl (Bool.eq_false_iff.mpr hf)
          · exact .inr hi
        refine .inr ⟨i, hi, ?_⟩
        dsimp only
        rw [hstays]
        exact ⟨hlive, hframework, haccepted⟩

theorem kept_selected {e : ℕ} {ok : Bool} {a : Activation} (h : Kept s) (ha : a ∈ s.waiting)
    (hphase : a.phase = .answered e ok)
    (hnewest : a.Newest s → if ok then s.engine = some e else InEffect s)
    (hother : ¬a.Newest s → s.connecting = false) : Kept (selected ok a s) := by
  rw [selected]
  split_ifs with hdone
  · obtain ⟨hok, hn⟩ := hdone
    have hengine : s.engine = some e := by
      have := hnewest hn
      rwa [if_pos hok] at this
    have hsound := h.newest a ha hn
    rw [Activation.Sound, hphase] at hsound
    obtain ⟨hframework, haccepted, -⟩ := hsound.2 hok
    have hbase := base_finish h.toBase a.generation
    refine ⟨⟨hbase.order, hbase.generations, hbase.engine, hbase.newest⟩,
      connecting_finish h.connecting fun hne => absurd hn hne, fun _ => .inr ⟨e, hengine, ?_⟩⟩
    exact ⟨(h.engine e hengine).2.1, hframework, haccepted⟩
  · refine kept_finish h hother fun hn => ?_
    have hok : ok ≠ true := fun ho => hdone ⟨ho, hn⟩
    have := hnewest hn
    rwa [if_neg hok] at this

theorem kept_lost {e : ℕ} (h : Kept s)
    (hok : s.engine = some e → s.current ≠ [] → Waits env s.current) : Kept (lost env e s) := by
  obtain ⟨engines, hengines⟩ : ∃ engines, engines =
    Function.update s.engines e { s.engines e with live := false } := ⟨_, rfl⟩
  have hsame : ∀ i, (engines i).framework = (s.engines i).framework ∧
      (engines i).accepted = (s.engines i).accepted := by
    intro i
    rw [hengines]
    by_cases hi : i = e
    · rw [hi, Function.update_self]
      exact ⟨rfl, rfl⟩
    · rw [Function.update_of_ne hi]
      exact ⟨rfl, rfl⟩
  have hother : ∀ i, i ≠ e → engines i = s.engines i := fun i hi =>
    hengines ▸ Function.update_of_ne hi ..
  have hnewest : ∀ t : InputSources, t.waiting = s.waiting → t.generation = s.generation →
      t.created = s.created → t.engines = engines → ∀ a ∈ t.waiting, a.Newest t → a.Sound t := by
    rintro t hw hg hc he a ha hn
    rw [hw] at ha
    exact (h.newest a ha (Eq.trans hn hg)).congr hc.ge (fun i _ => he ▸ hsame i)
      fun b hb i _ hsel => ⟨b, hw ▸ hb, hsel⟩
  rw [lost, ← hengines]
  dsimp only
  by_cases hengine : s.engine = some e
  · have hbase : Base { s with engines := engines, engine := none, engineFramework := [] } :=
      ⟨h.order, h.generations, nofun, hnewest _ rfl rfl rfl rfl⟩
    rw [if_neg (not_not.mpr hengine)]
    split_ifs with hcurrent
    · exact kept_activate_of_waits hbase (hok hengine hcurrent)
    · exact ⟨hbase, h.connecting, fun _ => .inl (not_not.mp hcurrent)⟩
  · rw [if_pos hengine]
    have hne : ∀ i, s.engine = some i → i ≠ e := fun i hi he => hengine (he ▸ hi)
    refine ⟨⟨h.order, h.generations, fun i hi => ?_, hnewest _ rfl rfl rfl rfl⟩, h.connecting,
      fun hc => ?_⟩
    · dsimp only
      rw [hother i (hne i hi)]
      exact h.engine i hi
    · rcases h.effect hc with hnil | ⟨i, hi, hrest⟩
      · exact .inl hnil
      · refine .inr ⟨i, hi, ?_⟩
        dsimp only
        rw [hother i (hne i hi)]
        exact hrest

/-! ### Runs -/

/-- **The step lemma.** -/
theorem kept_step (h : Kept s) {ev : Event} (hok : Regular s ev) : Kept (step s ev) := by
  cases ev with
  | activate env id => exact kept_activate h hok
  | cycle env => exact kept_activate h hok
  | configure env =>
    rw [step, configure]
    split_ifs with hgone
    · exact kept_activate h (.inr (hok hgone))
    · exact h
  | lost env e =>
    rw [step]
    split_ifs
    · exact kept_lost h hok
    · exact h
  | connected generation ok =>
    rw [step]
    split
    · exact h
    next a ha =>
    have hmem := List.mem_of_find?_eq_some ha
    obtain ⟨hgen, hphase⟩ : a.generation = generation ∧ a.phase = .connecting := by
      simpa using List.find?_some ha
    obtain ⟨hfail, hother⟩ := hok a hmem hgen hphase
    exact kept_connected h hmem hfail hother
  | answers e ok =>
    rw [step]
    split
    · exact h
    next a ha =>
    split_ifs
    · exact h
    · exact kept_answer h ha fun ho hn => hok ho a ha hn
  | resumes generation =>
    rw [step]
    split
    · exact h
    next a ha =>
    have hmem := List.mem_of_find?_eq_some ha
    have hgen : a.generation = generation := by simpa using List.find?_some ha
    cases hphase : a.phase with
    | connecting => exact h
    | selecting e => exact h
    | answered e ok =>
      obtain ⟨hnewest, hother⟩ := hok a hmem hgen e ok hphase
      exact kept_selected h hmem hphase hnewest hother

theorem kept_init : Kept {} := by
  refine ⟨⟨List.Pairwise.nil, List.forall_mem_nil _, nofun, List.forall_mem_nil _⟩, ?_,
    fun _ => .inl rfl⟩
  refine ⟨fun hc => absurd hc (by decide), ?_⟩
  rintro ⟨a, ha, -⟩
  cases ha

/-- A call that is refused while none waits takes nothing back. -/
theorem outcome_activate (h : Kept s) (hrefused : Refused env id) (hidle : s.connecting = false) :
    (activate env id s).current = s.current ∧ outcome (activate env id s) = outcome s := by
  obtain ⟨hne, hw⟩ := hrefused
  have hnone : ∀ generation ≥ s.generation,
      (s.waiting.find? fun a => a.generation = generation).map Activation.id = none := by
    intro generation hge
    rw [Option.map_eq_none_iff, List.find?_eq_none]
    intro a ha he
    have hgen : a.generation = s.generation :=
      le_antisymm (h.generations a ha) (hge.trans (of_decide_eq_true he).ge)
    exact absurd (h.connecting.mpr ⟨a, ha, hgen⟩) (by simp [hidle])
  have hstays : activate env id s = { s with generation := s.generation + 1 } := by
    rw [activate]
    dsimp only
    rw [if_neg hne]
    split_ifs with hbad
    · rfl
    · cases hfor : frameworkFor env (frameworkOf id) with
      | none => rfl
      | some framework =>
        rw [not_or, not_not] at hbad
        exact absurd ⟨hbad.1, hbad.2, Option.isSome_iff_exists.mpr ⟨_, hfor⟩⟩ hw
  rw [hstays]
  exact ⟨rfl, (hnone _ (Nat.le_succ _)).trans (hnone _ (Nat.le_refl _)).symm⟩

/-- **The source that is named is in effect** whenever no activation waits, `connecting` tells
whether the last one does, and a call that is refused changes nothing: in every run of regular
steps. -/
theorem proper_sources_of_regular {events : List Event}
    (h : Transition.Guarded step Regular {} events) : Proper (run events) ∧
      ∀ before e after env id, events = before ++ e :: after →
        e.choice (run before) = some (env, id) → Refused env id →
          (step (run before) e).current = (run before).current ∧
            outcome (step (run before) e) = outcome (run before) := by
  have hkept : ∀ {es}, Transition.Guarded step Regular {} es → Kept (run es) := fun hg =>
    hg.invariant (P := Kept) (fun _ _ hs he => kept_step hs he) kept_init
  refine ⟨(hkept h).proper, ?_⟩
  rintro before e after env id rfl hchoice hrefused
  obtain ⟨hbefore, hnow, -⟩ := (Transition.guarded_append ..).mp h
  cases e with
  | activate env' id' =>
    obtain ⟨rfl, rfl⟩ := Prod.mk.inj (Option.some.inj hchoice)
    exact outcome_activate (hkept hbefore) hrefused (Or.resolve_left hnow hrefused.2)
  | cycle env' =>
    obtain ⟨rfl, rfl⟩ := Prod.mk.inj (Option.some.inj hchoice)
    exact outcome_activate (hkept hbefore) hrefused (Or.resolve_left hnow hrefused.2)
  | configure => cases hchoice
  | lost => cases hchoice
  | connected => cases hchoice
  | answers => cases hchoice
  | resumes => cases hchoice

/-- An engine is chosen, another one of the same framework, a name that means nothing, and the
engine is lost and connected again. -/
def chosen : List Event :=
  [.activate {} (ofString "ibus:a"), .connected 1 true, .answers 0 true, .resumes 1,
    .activate {} (ofString "none"), .activate {} (ofString "ibus:b"), .answers 0 true, .resumes 3,
    .lost {} 0, .connected 4 true, .answers 1 true, .resumes 4]

theorem regular_chosen : Transition.Guarded step Regular {} chosen := by
  have hresumes : ∀ {s : InputSources} (generation : ℕ) (id : Text) (e : ℕ),
      s.waiting = [⟨generation, id, .answered e true⟩] → generation = s.generation →
        s.engine = some e → Regular s (.resumes generation) := by
    rintro s generation id e hw hn hengine b hb - i ok hanswered
    obtain rfl := List.mem_singleton.mp (hw ▸ hb)
    obtain ⟨rfl, rfl⟩ := Phase.answered.inj hanswered
    exact ⟨fun _ => hengine, fun hother => absurd hn hother⟩
  have hwaits : ∀ t ∈ [ofString "ibus:a", ofString "ibus:b"], Waits {} t := by
    intro t ht
    simp only [List.mem_cons, List.not_mem_nil, or_false] at ht
    rcases ht with rfl | rfl <;> exact ⟨by decide, by decide, by decide⟩
  refine ⟨.inr rfl, fun a _ hg _ => ⟨fun _ hf => absurd hf (by decide), fun hn => absurd hg hn⟩,
    fun _ a _ _ => .inl rfl, hresumes 1 (ofString "ibus:a") 0 rfl rfl rfl, .inr rfl, .inr rfl,
    fun _ a _ _ => .inl rfl, hresumes 3 (ofString "ibus:b") 0 rfl rfl rfl,
    fun _ _ => hwaits _ (by decide),
    fun a _ hg _ => ⟨fun _ hf => absurd hf (by decide), fun hn => absurd hg hn⟩,
    fun _ a _ _ => .inl rfl, hresumes 4 (ofString "ibus:b") 1 rfl rfl rfl, trivial⟩

theorem proper_chosen : Proper (run chosen) ∧
    outcome (step (run (chosen.take 4)) (.activate {} (ofString "none"))) =
      outcome (run (chosen.take 4)) :=
  have h := proper_sources_of_regular regular_chosen
  ⟨h.1, (h.2 (chosen.take 4) _ (chosen.drop 5) {} (ofString "none") rfl rfl
    ⟨by decide, fun hw => absurd hw.1 (by decide)⟩).2⟩

/-- The engine of the other framework does not take the name: what types is not what is named. -/
theorem not_proper_sources : ¬∀ events, Proper (run events) := by
  intro h
  have hlast := (h [.activate {} (ofString "ibus:a"), .connected 1 true, .answers 0 true,
    .resumes 1, .activate {} (ofString "fcitx5:b"), .connected 2 true, .answers 1 false,
    .resumes 2]).effect (by decide)
  rcases hlast with hnil | ⟨e, he, -, -, haccepted⟩
  · exact absurd hnil (by decide)
  · obtain rfl := Option.some.inj ((by decide : _ = some 1).symm.trans he)
    exact absurd haccepted (by decide)

end Sources

end Ime

end SingularityShell
