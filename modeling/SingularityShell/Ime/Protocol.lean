import Mathlib.Data.List.Basic
import Mathlib.Data.Nat.Notation
import SingularityShell.Lib.Ascii
import SingularityShell.Lib.Transition

/-!
# The objects of the input method protocol

The shell asks the compositor for an input method object, which the compositor can end, and the
shell may then ask for another one. The number of `done` events, the state of the text field and the
grab are kept apart from the object, and stay when it is replaced.

## Main definitions

* `Ime.Protocol.State` — the statics of `ime.c`, and the requests that were sent
* `Ime.Protocol.Proper` — the requests and the grab are those of the current object
* `Ime.Protocol.Regular` — an object ends without a grab, and is replaced as if it had not been

## Main results

* `Ime.Protocol.kept_step` — the step lemma
* `Ime.Protocol.proper_client_of_regular` — the protocol is kept in a run of such events
-/

namespace SingularityShell

namespace Ime

namespace Protocol

open Ascii

/-- `struct ime_state` -/
structure ImeState where
  active : Bool := false
  surrounding : Option Text := none
  cursor : UInt32 := 0
  purpose : UInt32 := 0
  hint : UInt32 := 0

inductive Request where
  | grabKeyboard
  /-- The grab is released. -/
  | release
  | setPreedit (text : Text) (cursorBegin cursorEnd : ℤ)
  | deleteSurrounding (before after : UInt32)
  | commitString (text : Text)
  | commit (serial : UInt32)

/-- A request that was sent, with the object that it is sent on or that the grab belongs to, and
what held of the current object then. -/
structure Sent where
  object : ℕ
  request : Request
  /-- The current object. -/
  current : Option ℕ
  /-- The number of its `done` events. -/
  dones : ℕ
  /-- Whether the last of them left it active. -/
  active : Bool

structure State where
  /-- Whether `display` is set. -/
  display : Bool := false
  /-- `input_method`, which is known by its number. -/
  inputMethod : Option ℕ := none
  /-- `keyboard_grab`, which is known by the input method that it belongs to. -/
  keyboardGrab : Option ℕ := none
  pending : ImeState := {}
  current : ImeState := {}
  serial : UInt32 := 0
  wantGrab : Bool := false
  /-- The number of input methods so far. -/
  objects : ℕ := 0
  /-- The number of `done` events of the current object, and whether it is active, as its events
  say. -/
  dones : ℕ := 0
  objectPending : Bool := false
  objectActive : Bool := false
  sent : List Sent := []

/-- A request is sent. -/
def send (object : ℕ) (request : Request) (s : State) : State :=
  { s with sent := s.sent ++ [⟨object, request, s.inputMethod, s.dones, s.objectActive⟩] }

/-- `update_grab`, while no key is handled. -/
def updateGrab (s : State) : State :=
  let grab := s.wantGrab && s.current.active && s.inputMethod.isSome
  match s.keyboardGrab with
  | none =>
    match s.inputMethod with
    | some object =>
      if grab then send object .grabKeyboard { s with keyboardGrab := some object } else s
    | none => s
  | some owner => if grab then s else send owner .release { s with keyboardGrab := none }

/-- `im_activate` -/
def imActivate (s : State) : State :=
  { s with pending := { active := true }, objectPending := true }

/-- `im_deactivate` -/
def imDeactivate (s : State) : State :=
  { s with pending := { s.pending with active := false }, objectPending := false }

/-- `im_surrounding_text` -/
def imSurroundingText (text : Text) (cursor : UInt32) (s : State) : State :=
  { s with pending := { s.pending with surrounding := some text, cursor } }

/-- `im_content_type` -/
def imContentType (hint purpose : UInt32) (s : State) : State :=
  { s with pending := { s.pending with hint, purpose } }

/-- `im_done` -/
def imDone (s : State) : State :=
  updateGrab { s with
    serial := s.serial + 1
    current := s.pending
    dones := s.dones + 1
    objectActive := s.objectPending }

/-- `im_unavailable` -/
def imUnavailable (s : State) : State := { s with inputMethod := none }

/-- What `singularity_ime_start` finds: a display, a seat, and the globals. -/
structure Found where
  display : Bool
  seat : Bool
  globals : Bool

/-- The objects are there that `singularity_ime_start` needs. -/
def Found.all (found : Found) : Bool := found.display && found.seat && found.globals

/-- `singularity_ime_start` -/
def start (found : Found) (s : State) : State :=
  if s.inputMethod.isSome then s
  else if !found.display then s
  else if !found.seat || !found.globals then { s with display := true }
  else
    { s with
      display := true
      inputMethod := some s.objects
      objects := s.objects + 1
      dones := 0
      objectPending := false
      objectActive := false }

/-- `singularity_ime_set_grab` -/
def setGrab (grab : Bool) (s : State) : State :=
  let s := { s with wantGrab := grab }
  if s.display then updateGrab s else s

/-- `singularity_ime_active` -/
def isActive (s : State) : Bool := s.inputMethod.isSome && s.current.active

/-- `singularity_ime_preedit` -/
def preedit (text : Text) (cursorBegin cursorEnd : ℤ) (s : State) : State :=
  match s.inputMethod with
  | none => s
  | some object =>
    if !s.current.active then s
    else
      let s := if text ≠ [] then send object (.setPreedit text cursorBegin cursorEnd) s else s
      send object (.commit s.serial) s

/-- `singularity_ime_replace` -/
def replace (before after : UInt32) (text : Text) (s : State) : State :=
  match s.inputMethod with
  | none => s
  | some object =>
    if !s.current.active then s
    else
      let s := if before ≠ 0 ∨ after ≠ 0 then send object (.deleteSurrounding before after) s else s
      let s := if text ≠ [] then send object (.commitString text) s else s
      send object (.commit s.serial) s

/-- An event of the input method, which comes only while there is one, or a call of the shell. -/
inductive Event where
  | start (found : Found)
  | activate
  | deactivate
  | surroundingText (text : Text) (cursor : UInt32)
  | contentType (hint purpose : UInt32)
  | done
  | unavailable
  | setGrab (grab : Bool)
  | preedit (text : Text) (cursorBegin cursorEnd : ℤ)
  | replace (before after : UInt32) (text : Text)

def step (s : State) : Event → State
  | .start found => start found s
  | .activate => if s.inputMethod.isSome then imActivate s else s
  | .deactivate => if s.inputMethod.isSome then imDeactivate s else s
  | .surroundingText text cursor =>
    if s.inputMethod.isSome then imSurroundingText text cursor s else s
  | .contentType hint purpose => if s.inputMethod.isSome then imContentType hint purpose s else s
  | .done => if s.inputMethod.isSome then imDone s else s
  | .unavailable => if s.inputMethod.isSome then imUnavailable s else s
  | .setGrab grab => setGrab grab s
  | .preedit text cursorBegin cursorEnd => preedit text cursorBegin cursorEnd s
  | .replace before after text => replace before after text s

/-- The state after the events. -/
def run (events : List Event) : State := Transition.run step {} events

/-! ### The property -/

/-- A request that is sent on the current object or its grab, with its number of `done` events, and
while it is active unless it releases the grab. -/
structure Sent.Ok (m : Sent) : Prop where
  live : m.current = some m.object
  serial : ∀ serial, m.request = .commit serial → serial = UInt32.ofNat m.dones
  active : m.request ≠ .release → m.active = true

/-- The requests are those of the current object, and the keyboard is grabbed only while it is
active. -/
structure Proper (s : State) : Prop where
  sent : ∀ m ∈ s.sent, m.Ok
  grab : ∀ owner, s.keyboardGrab = some owner →
    s.inputMethod = some owner ∧ s.objectActive = true

/-- An object ends while there is no grab, and another one is created only when the one before had
no event that left a trace. -/
def Regular (s : State) : Event → Prop
  | .unavailable => s.inputMethod.isSome → s.keyboardGrab = none
  | .start found => s.inputMethod = none → found.all →
    s.serial = 0 ∧ s.pending.active = false ∧ s.current.active = false
  | _ => True

/-! ### The invariant -/

/-- The statics are those of the current object. -/
structure Kept (s : State) : Prop where
  sent : ∀ m ∈ s.sent, m.Ok
  without : s.inputMethod = none → s.keyboardGrab = none
  statics : s.inputMethod.isSome → s.serial = UInt32.ofNat s.dones ∧
    s.pending.active = s.objectPending ∧ s.current.active = s.objectActive
  grab : ∀ owner, s.keyboardGrab = some owner →
    s.inputMethod = some owner ∧ s.objectActive = true

variable {s : State}

/-- A request that is sent on the current object. -/
theorem Kept.send (h : Kept s) {object : ℕ} {request : Request}
    (hobject : s.inputMethod = some object)
    (hserial : ∀ serial, request = .commit serial → serial = s.serial)
    (hactive : request ≠ .release → s.current.active = true) : Kept (send object request s) := by
  obtain ⟨hdones, -, hcurrent⟩ := h.statics (by rw [hobject]; rfl)
  refine ⟨fun m hm => ?_, h.without, h.statics, h.grab⟩
  rcases List.mem_append.mp hm with hold | hnew
  · exact h.sent m hold
  · rw [List.mem_singleton.mp hnew]
    exact ⟨hobject, fun serial he => (hserial serial he).trans hdones,
      fun hne => hcurrent.symm.trans (hactive hne)⟩

/-- What `update_grab` needs: the invariant, except that the object may have become inactive. -/
theorem kept_updateGrab (hsent : ∀ m ∈ s.sent, m.Ok)
    (hnone : s.inputMethod = none → s.keyboardGrab = none)
    (hsome : s.inputMethod.isSome → s.serial = UInt32.ofNat s.dones ∧
      s.pending.active = s.objectPending ∧ s.current.active = s.objectActive)
    (hgrab : ∀ owner, s.keyboardGrab = some owner → s.inputMethod = some owner) :
    Kept (updateGrab s) := by
  rw [updateGrab]
  cases howner : s.keyboardGrab with
  | none =>
    have hkept : Kept s := ⟨hsent, hnone, hsome, fun owner he =>
      absurd (howner.symm.trans he) (by simp)⟩
    cases hobject : s.inputMethod with
    | none => exact hkept
    | some object =>
      dsimp only
      split_ifs with hwant
      · have hactive := (Bool.and_eq_true_iff.mp (Bool.and_eq_true_iff.mp hwant).1).2
        have hcurrent := (hsome (by rw [hobject]; rfl)).2.2
        have hgrabbed : Kept { s with keyboardGrab := some object } :=
          ⟨hsent, fun he => absurd (hobject.symm.trans he) (by simp), hsome,
            fun owner he => ⟨hobject.trans he, hcurrent.symm.trans hactive⟩⟩
        have hsend : Kept (send object .grabKeyboard { s with keyboardGrab := some object }) :=
          hgrabbed.send hobject nofun fun _ => hactive
        rw [hobject] at hsend
        exact hsend
      · exact hkept
  | some owner =>
    have hobject := hgrab owner howner
    dsimp only
    split_ifs with hwant
    · have hactive := (Bool.and_eq_true_iff.mp (Bool.and_eq_true_iff.mp hwant).1).2
      have hcurrent := (hsome (by rw [hobject]; rfl)).2.2
      exact ⟨hsent, hnone, hsome, fun owner he => ⟨hgrab owner he, hcurrent.symm.trans hactive⟩⟩
    · have hreleased : Kept { s with keyboardGrab := none } := ⟨hsent, fun _ => rfl, hsome, nofun⟩
      exact hreleased.send hobject nofun fun hne => absurd rfl hne

theorem kept_start (h : Kept s) {found : Found} (hok : Regular s (.start found)) :
    Kept (start found s) := by
  rw [start]
  split_ifs with hobject hdisplay hmissing
  · exact h
  · exact h
  · exact ⟨h.sent, h.without, h.statics, h.grab⟩
  · have hnone : s.inputMethod = none := Option.not_isSome_iff_eq_none.mp hobject
    have hall : found.all = true := by
      obtain ⟨display, seat, globals⟩ := found
      cases display <;> cases seat <;> cases globals <;> first | rfl | exact absurd rfl hdisplay |
        exact absurd rfl hmissing
    obtain ⟨hserial, hpending, hcurrent⟩ := hok hnone hall
    refine ⟨h.sent, nofun, fun _ => ⟨hserial, hpending, hcurrent⟩, fun owner he => ?_⟩
    exact absurd ((h.without hnone).symm.trans he) (by simp)

theorem kept_imDone (h : Kept s) (hobject : s.inputMethod.isSome) : Kept (imDone s) := by
  obtain ⟨hdones, hpending, -⟩ := h.statics hobject
  refine kept_updateGrab h.sent h.without (fun _ => ⟨?_, hpending, hpending⟩) fun owner he =>
    (h.grab owner he).1
  show s.serial + 1 = UInt32.ofNat (s.dones + 1)
  rw [hdones, UInt32.ofNat_add]
  rfl

theorem kept_preedit (h : Kept s) (text : Text) (cursorBegin cursorEnd : ℤ) :
    Kept (preedit text cursorBegin cursorEnd s) := by
  rw [preedit]
  cases hobject : s.inputMethod with
  | none => exact h
  | some object =>
    dsimp only
    by_cases hactive : s.current.active = true
    · rw [if_neg (by rw [hactive]; decide)]
      by_cases htext : text ≠ []
      · rw [if_pos htext]
        have hset : Kept (send object (.setPreedit text cursorBegin cursorEnd) s) :=
          h.send hobject nofun fun _ => hactive
        exact hset.send hobject (fun serial he => (Request.commit.inj he).symm) fun _ => hactive
      · rw [if_neg htext]
        exact h.send hobject (fun serial he => (Request.commit.inj he).symm) fun _ => hactive
    · rw [if_pos (by rw [Bool.eq_false_iff.mpr hactive]; rfl)]
      exact h

theorem kept_replace (h : Kept s) (before after : UInt32) (text : Text) :
    Kept (replace before after text s) := by
  rw [replace]
  cases hobject : s.inputMethod with
  | none => exact h
  | some object =>
    dsimp only
    by_cases hactive : s.current.active = true
    · rw [if_neg (by rw [hactive]; decide)]
      obtain ⟨t, ht⟩ : ∃ t, t = if before ≠ 0 ∨ after ≠ 0 then
        send object (.deleteSurrounding before after) s else s := ⟨_, rfl⟩
      obtain ⟨u, hu⟩ : ∃ u, u = if text ≠ [] then send object (.commitString text) t else t :=
        ⟨_, rfl⟩
      have hdeleted : Kept t ∧ t.inputMethod = some object ∧ t.current.active = true := by
        rw [ht]
        split_ifs
        · exact ⟨h.send hobject nofun fun _ => hactive, hobject, hactive⟩
        · exact ⟨h, hobject, hactive⟩
      have hcommitted : Kept u ∧ u.inputMethod = some object ∧ u.current.active = true := by
        rw [hu]
        split_ifs
        · exact ⟨hdeleted.1.send hdeleted.2.1 nofun fun _ => hdeleted.2.2, hdeleted.2⟩
        · exact hdeleted
      rw [← ht, ← hu]
      exact hcommitted.1.send hcommitted.2.1 (fun serial he => (Request.commit.inj he).symm)
        fun _ => hcommitted.2.2
    · rw [if_pos (by rw [Bool.eq_false_iff.mpr hactive]; rfl)]
      exact h

/-- **The step lemma.** -/
theorem kept_step (h : Kept s) {e : Event} (hok : Regular s e) : Kept (step s e) := by
  have hgrab : ∀ owner, s.keyboardGrab = some owner → s.inputMethod = some owner :=
    fun owner he => (h.grab owner he).1
  cases e with
  | start found => exact kept_start h hok
  | activate =>
    rw [step]
    split_ifs with hobject
    · obtain ⟨hserial, -, hcurrent⟩ := h.statics hobject
      exact ⟨h.sent, h.without, fun _ => ⟨hserial, rfl, hcurrent⟩, h.grab⟩
    · exact h
  | deactivate =>
    rw [step]
    split_ifs with hobject
    · obtain ⟨hserial, -, hcurrent⟩ := h.statics hobject
      exact ⟨h.sent, h.without, fun _ => ⟨hserial, rfl, hcurrent⟩, h.grab⟩
    · exact h
  | surroundingText text cursor =>
    rw [step]
    split_ifs
    · exact ⟨h.sent, h.without, h.statics, h.grab⟩
    · exact h
  | contentType hint purpose =>
    rw [step]
    split_ifs
    · exact ⟨h.sent, h.without, h.statics, h.grab⟩
    · exact h
  | done =>
    rw [step]
    split_ifs with hobject
    · exact kept_imDone h hobject
    · exact h
  | unavailable =>
    rw [step]
    split_ifs with hobject
    · refine ⟨h.sent, fun _ => hok hobject, nofun, fun owner he => ?_⟩
      exact absurd ((hok hobject).symm.trans he) (by simp)
    · exact h
  | setGrab grab =>
    rw [step, setGrab]
    dsimp only
    split_ifs
    · exact kept_updateGrab h.sent h.without h.statics hgrab
    · exact ⟨h.sent, h.without, h.statics, h.grab⟩
  | preedit text cursorBegin cursorEnd => exact kept_preedit h text cursorBegin cursorEnd
  | replace before after text => exact kept_replace h before after text

/-! ### Runs -/

theorem kept_init : Kept {} := ⟨List.forall_mem_nil _, fun _ => rfl, nofun, nofun⟩

/-- **The protocol is kept**, in every run in which an object ends while the keyboard is not
grabbed, and an object is created only before any event of an earlier one has left a trace. -/
theorem proper_client_of_regular {events : List Event}
    (h : Transition.Guarded step Regular {} events) : Proper (run events) :=
  have hkept : Kept (run events) :=
    h.invariant (P := Kept) (fun _ _ hs he => kept_step hs he) kept_init
  ⟨hkept.sent, hkept.grab⟩

/-- Another input method runs, then text is entered. -/
def entered : List Event :=
  [.start ⟨true, true, true⟩, .unavailable, .setGrab true, .start ⟨true, true, true⟩, .activate,
    .contentType 0 1, .done, .preedit [97] 0 1, .replace 0 0 [98], .deactivate, .done]

theorem proper_entered : Proper (run entered) :=
  proper_client_of_regular ⟨fun _ _ => ⟨rfl, rfl, rfl⟩, fun _ => rfl, trivial,
    fun _ _ => ⟨rfl, rfl, rfl⟩, trivial, trivial, trivial, trivial, trivial, trivial, trivial,
    trivial⟩

/-- The compositor ends the object while text is entered, and the shell asks for another one. -/
def replaced : List Event :=
  [.start ⟨true, true, true⟩, .activate, .done, .unavailable, .start ⟨true, true, true⟩,
    .preedit [] 0 0]

theorem not_proper_client : ¬∀ events, Proper (run events) := by
  intro h
  have hlast := (h replaced).sent ⟨1, .commit 1, some 1, 0, false⟩ List.mem_cons_self
  exact absurd (hlast.active nofun) (by decide)

end Protocol

end Ime

end SingularityShell
