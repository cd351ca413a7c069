import SingularityShell.Ime.Service

/-!
# The preedit that the client shows

While a text field is active and nothing is dictated, the client should show what the engine
composes. A commit that sets no preedit takes it away, so the property is kept exactly by the events
that do not make one while the engine composes, and that do not change what the engine composes
without a word to the client.

## Main definitions

* `Ime.Service.Displayed` — the client shows the preedit of the engine
* `Ime.Service.Exposed` — a commit of another one would take the preedit away
* `Ime.Service.Regular` — the events that keep the property
* `Ime.Service.Effect` — what a call does, given when it enters a text

## Main results

* `Ime.Service.displayed_step` — the step lemma
* `Ime.Service.displayed_iff_regular` — the runs in which the property holds
-/

namespace SingularityShell

namespace Ime

namespace Service

open Ascii

/-! ### The property -/

/-- The client shows the preedit of the engine while the text field is active and nothing is
dictated. -/
def Displayed (s : State) : Prop :=
  s.active = true → s.dictating = false → s.shown = s.enginePreedit

/-- The engine composes a text, which the client shows. -/
structure Composing (s : State) : Prop where
  active : s.active = true
  dictating : s.dictating = false
  preedit : s.enginePreedit ≠ []

/-- The engine composes a text, and what is sent arrives. -/
structure Exposed (s : State) : Prop extends Composing s where
  connected : s.im.inputMethod.isSome = true

/-! ### When a text is entered -/

/-- `apply_suggestion` enters a text. -/
def appliesSuggestion (env : Env) (s : State) : Bool := s.active && wordBeforeCursor env s ≠ []

/-- `replace_previous` enters a text. -/
def replacesPrevious (previous : Text) (s : State) : Bool :=
  s.active && previous.isSuffixOf (beforeCursor s)

/-- `choose_accent` enters a text. -/
def choosesAccent (index : ℤ) (s : State) : Bool :=
  0 ≤ index && index.toNat < s.popupItems.length && replacesPrevious s.holdText s

/-- `autocorrect` enters a text. -/
def autocorrects (env : Env) (s : State) : Bool := corrections env (wordBeforeCursor env s) s ≠ []

/-- `revert` enters a text, for the correction that was noted. -/
def reverts (noted : Option Text × Option Text) (s : State) : Bool :=
  noted.1.isSome && (noted.2.getD [] ++ [32]).isSuffixOf (beforeCursor s)

/-- A key for the accents that are shown enters a text. -/
def accentKeyEnters (k : Key) (s : State) : Bool :=
  if k.keysym = 0xff1b then false
  else if k.plain ∧ 49 ≤ k.keysym ∧ k.keysym ≤ 57 then choosesAccent (k.keysym - 49 : ℕ) s
  else if k.keysym = 0xff51 ∨ k.keysym = 0xff53 then false
  else choosesAccent s.popupSelected s

/-- A key after those of the popup enters a text. -/
def typedKeyEnters (env : Env) (k : Key) (s : State) : Bool :=
  (k.plain && k.keysym = 0xff08 && reverts (s.correctedFrom, s.correctedTo) s) ||
    (k.plain && k.keysym = 0x20 && env.spellAutocorrect && autocorrects env (forgetCorrection s))

/-- A key that is pressed, and goes neither to the dictation nor to the engine, enters a text. -/
def pressedKeyEnters (env : Env) (k : Key) (s : State) : Bool :=
  let s := if s.holdKey ≠ 0 ∧ k.key ≠ s.holdKey then cancelHold s else s
  if k.plain && k.keysym = 0xff09 && !s.popupAccents && s.popupItems ≠ [] then
    appliesSuggestion env s
  else
    let s := if k.plain then trackTyped env k.keysym k.text s else { s with typedWord := [] }
    if s.popupAccents then
      if (accentKey k s).isSome then accentKeyEnters k s else typedKeyEnters env k (closePopup s)
    else typedKeyEnters env k s

/-- A key enters a text. -/
def keyEnters (env : Env) (k : Key) (s : State) : Bool :=
  !(s.captureEscape && k.keysym = 0xff1b) && !(engineContext env s || s.draining) && k.pressed &&
    pressedKeyEnters env k s

/-- What is hit in the popup enters a text. -/
def hitEnters (env : Env) (hit : Hit) (s : State) : Bool :=
  match hit with
  | .item action =>
    !(s.engineCandidates && s.boundEngine.isSome) && action < s.popupItems.length &&
      if s.popupAccents then choosesAccent action s else appliesSuggestion env s
  | _ => false

/-! ### Regular events -/

/-- The dictation ends with the preedit of the engine: it takes its own preview away, and without
one the client has been shown the preedit again. -/
def EndsWell (s : State) : Prop :=
  s.active = true →
    if s.preview ≠ [] ∧ s.im.inputMethod.isSome then s.enginePreedit = []
    else s.shown = s.enginePreedit

/-- No text is entered while the engine composes one, and the engine is heard in time: it ends its
preedit by a text or by another preedit, and has none when a text field is entered, when it is
replaced, or when no source of input is chosen. -/
def Regular (s : State) : Event → Prop
  | .activate => ¬Exposed s
  | .done _ =>
    s.im.inputMethod.isSome → s.active = false → s.im.pending.active = true → s.dictating = false →
      s.enginePreedit = []
  | .engineCommit text =>
    s.boundEngine.isSome → Composing s → text ≠ [] ∧ s.im.inputMethod.isSome
  | .enginePreedit text _ =>
    s.boundEngine.isSome → s.active = true → s.dictating = false →
      s.im.inputMethod.isSome ∨ text = s.enginePreedit
  | .engineDelete _ _ => s.boundEngine.isSome → ¬Exposed s
  | .engineReady _ engine => engine ≠ s.boundEngine → ¬Composing s
  | .sourcesChanged env => env.current = [] → ¬Composing s
  | .key env k =>
    s.im.keyboardGrab.isSome →
      (keyEnters env k s = true → ¬Exposed s) ∧
        (s.captureEscape = true → k.keysym = 0xff1b → k.pressed = true → s.dictating = true →
          EndsWell s)
  | .pointer env hit => hitEnters env hit s = true → ¬Exposed s
  | .applySuggestion env _ => appliesSuggestion env s = true → ¬Exposed s
  | .commitText _ => ¬Exposed s
  | .oskSpace env =>
    env.spellAutocorrect = true → autocorrects env (forgetCorrection s) = true → ¬Exposed s
  | .oskBackspace _ => reverts (s.correctedFrom, s.correctedTo) s = true → ¬Exposed s
  | .endDictation _ => s.dictating = true → EndsWell s
  | _ => True

/-! ### The requests of a call -/

variable {s t u : State} {p q : Prop}

/-- The objects and the text field of the input method. Nothing else of it is read by the service.
-/
structure SameField (im im' : Protocol.State) : Prop where
  inputMethod : im'.inputMethod = im.inputMethod
  current : im'.current = im.current
  pending : im'.pending = im.pending

/-- The requests are sent on the way from one state of the input method to the other one. -/
structure Sends (im : Protocol.State) (requests : List Protocol.Request) (im' : Protocol.State) :
    Prop extends SameField im im' where
  sent : ∃ sent, im'.sent = im.sent ++ sent ∧ sent.map (·.request) = requests

variable {im im' : Protocol.State} {requests : List Protocol.Request}

theorem SameField.refl (im : Protocol.State) : SameField im im := ⟨rfl, rfl, rfl⟩

theorem Sends.of_sent (h : SameField im im') (hsent : im'.sent = im.sent) : Sends im [] im' :=
  ⟨h, [], by rw [hsent, List.append_nil], rfl⟩

theorem Sends.refl (im : Protocol.State) : Sends im [] im := .of_sent (.refl im) rfl

theorem Sends.send (h : Sends im requests im') (object : ℕ) (request : Protocol.Request) :
    Sends im (requests ++ [request]) (Protocol.send object request im') := by
  obtain ⟨hfield, sent, hsent, hrequests⟩ := h
  refine ⟨⟨hfield.inputMethod, hfield.current, hfield.pending⟩,
    sent ++ [⟨object, request, im'.inputMethod, im'.dones, im'.objectActive⟩], ?_, ?_⟩
  · rw [Protocol.send, hsent, List.append_assoc]
  · rw [List.map_append, hrequests, List.map_singleton]

/-- A request that is sent on a condition. -/
theorem Sends.send_if (h : Sends im requests im') {c : Prop} [Decidable c] (object : ℕ)
    (request : Protocol.Request) :
    Sends im (requests ++ if c then [request] else [])
      (if c then Protocol.send object request im' else im') := by
  split
  · exact h.send object request
  · rwa [List.append_nil]

/-- The client receives what is sent. -/
theorem client_deliver
    (h : ∃ sent, im.sent = s.im.sent ++ sent ∧ sent.map (·.request) = requests) :
    (deliver im s).client = requests.foldl Client.receive s.client := by
  obtain ⟨sent, hsent, rfl⟩ := h
  rw [List.foldl_map]
  simp only [deliver, hsent, List.drop_left]

/-- Requests that are no concern of the client. -/
theorem foldl_receive_of_other (h : ∀ r ∈ requests, ∀ c : Client, c.receive r = c) (c : Client) :
    requests.foldl Client.receive c = c := by
  induction requests with
  | nil => rfl
  | cons r requests ih =>
    rw [List.foldl_cons, h r List.mem_cons_self]
    exact ih fun r' hr' => h r' (List.mem_cons_of_mem _ hr')

theorem preedit_of_idle (text : Text) (cursorBegin cursorEnd : ℤ)
    (h : ¬(im.inputMethod.isSome ∧ im.current.active)) :
    Protocol.preedit text cursorBegin cursorEnd im = im := by
  rw [Protocol.preedit]
  cases hobject : im.inputMethod with
  | none => rfl
  | some object => exact if_pos (by simpa [hobject] using h)

theorem replace_of_idle (before after : UInt32) (text : Text)
    (h : ¬(im.inputMethod.isSome ∧ im.current.active)) :
    Protocol.replace before after text im = im := by
  rw [Protocol.replace]
  cases hobject : im.inputMethod with
  | none => rfl
  | some object => exact if_pos (by simpa [hobject] using h)

theorem sends_preedit (text : Text) (cursorBegin cursorEnd : ℤ)
    (h : im.inputMethod.isSome ∧ im.current.active) :
    ∃ serial, Sends im
      ((if text ≠ [] then [.setPreedit text cursorBegin cursorEnd] else []) ++ [.commit serial])
      (Protocol.preedit text cursorBegin cursorEnd im) := by
  obtain ⟨object, hobject⟩ := Option.isSome_iff_exists.mp h.1
  have hactive : ¬(!im.current.active) = true := by simp [h.2]
  rw [Protocol.preedit, hobject]
  dsimp only
  rw [if_neg hactive]
  exact ⟨_, ((Sends.refl im).send_if object _).send object _⟩

theorem sends_replace (before after : UInt32) (text : Text)
    (h : im.inputMethod.isSome ∧ im.current.active) :
    ∃ serial, Sends im
      ((if before ≠ 0 ∨ after ≠ 0 then [.deleteSurrounding before after] else []) ++
        (if text ≠ [] then [.commitString text] else []) ++ [.commit serial])
      (Protocol.replace before after text im) := by
  obtain ⟨object, hobject⟩ := Option.isSome_iff_exists.mp h.1
  have hactive : ¬(!im.current.active) = true := by simp [h.2]
  rw [Protocol.replace, hobject]
  dsimp only
  rw [if_neg hactive]
  exact ⟨_, (((Sends.refl im).send_if object _).send_if object _).send object _⟩

theorem sameField_preedit (text : Text) (cursorBegin cursorEnd : ℤ) (im : Protocol.State) :
    SameField im (Protocol.preedit text cursorBegin cursorEnd im) := by
  by_cases h : im.inputMethod.isSome ∧ im.current.active
  · obtain ⟨_, hsends⟩ := sends_preedit text cursorBegin cursorEnd h
    exact hsends.toSameField
  · rw [preedit_of_idle text cursorBegin cursorEnd h]
    exact .refl im

theorem sameField_replace (before after : UInt32) (text : Text) (im : Protocol.State) :
    SameField im (Protocol.replace before after text im) := by
  by_cases h : im.inputMethod.isSome ∧ im.current.active
  · obtain ⟨_, hsends⟩ := sends_replace before after text h
    exact hsends.toSameField
  · rw [replace_of_idle before after text h]
    exact .refl im

theorem client_imePreedit (text : Text) (cursorBegin cursorEnd : ℤ) (s : State)
    (hset : s.client.pending = none) :
    (imePreedit text cursorBegin cursorEnd s).client =
      if s.im.inputMethod.isSome ∧ s.im.current.active then { preedit := text } else s.client := by
  by_cases h : s.im.inputMethod.isSome ∧ s.im.current.active
  · obtain ⟨serial, hsends⟩ := sends_preedit text cursorBegin cursorEnd h
    rw [if_pos h, imePreedit, client_deliver hsends.sent]
    by_cases htext : text = []
    · rw [if_neg (not_not.mpr htext), htext]
      show Client.mk none (s.client.pending.getD []) = Client.mk none []
      rw [hset, Option.getD_none]
    · rw [if_pos htext]
      rfl
  · rw [if_neg h, imePreedit, preedit_of_idle text cursorBegin cursorEnd h,
      client_deliver (Sends.refl _).sent]
    rfl

/-- What is entered and taken away is no concern of the preedit, and the commit takes it away. -/
theorem client_imeReplace (before after : UInt32) (text : Text) (s : State)
    (hset : s.client.pending = none) :
    (imeReplace before after text s).client =
      if s.im.inputMethod.isSome ∧ s.im.current.active then {} else s.client := by
  by_cases h : s.im.inputMethod.isSome ∧ s.im.current.active
  · obtain ⟨serial, hsends⟩ := sends_replace before after text h
    have hother : ∀ r ∈
        (if before ≠ 0 ∨ after ≠ 0 then [.deleteSurrounding before after] else []) ++
          (if text ≠ [] then [Protocol.Request.commitString text] else []),
        ∀ c : Client, c.receive r = c := by
      intro r hr c
      rcases List.mem_append.mp hr with hdelete | hcommit
      · rw [List.mem_singleton.mp (List.mem_ite_nil_right.mp hdelete).2]
        rfl
      · rw [List.mem_singleton.mp (List.mem_ite_nil_right.mp hcommit).2]
        rfl
    rw [if_pos h, imeReplace, client_deliver hsends.sent, List.foldl_append,
      foldl_receive_of_other hother]
    show Client.mk none (s.client.pending.getD []) = Client.mk none []
    rw [hset, Option.getD_none]
  · rw [if_neg h, imeReplace, replace_of_idle before after text h,
      client_deliver (Sends.refl _).sent]
    rfl

/-- The grab is no concern of the client, nor of the text field. -/
theorem updateGrab_spec (im : Protocol.State) :
    ∃ requests, Sends im requests (Protocol.updateGrab im) ∧
      ∀ r ∈ requests, ∀ c : Client, c.receive r = c := by
  have hone : ∀ (im' : Protocol.State) (object : ℕ) (request : Protocol.Request),
      Sends im [] im' → (∀ c : Client, c.receive request = c) →
      ∃ requests, Sends im requests (Protocol.send object request im') ∧
        ∀ r ∈ requests, ∀ c : Client, c.receive r = c := fun _ object request hsends hother =>
    ⟨_, hsends.send object request, fun r hr => List.mem_singleton.mp hr ▸ hother⟩
  rw [Protocol.updateGrab]
  split
  · split
    · split
      · exact hone _ _ _ (.of_sent ⟨rfl, rfl, rfl⟩ rfl) fun _ => rfl
      · exact ⟨[], .refl im, List.forall_mem_nil _⟩
    · exact ⟨[], .refl im, List.forall_mem_nil _⟩
  · split
    · exact ⟨[], .refl im, List.forall_mem_nil _⟩
    · exact hone _ _ _ (.of_sent ⟨rfl, rfl, rfl⟩ rfl) fun _ => rfl

/-! ### Effects -/

/-- What a call does that enters a text when `p` holds: everything that matters stays, and the
client shows no preedit after the text. -/
structure Effect (p : Prop) (s t : State) : Prop where
  active : t.active = s.active
  dictating : t.dictating = s.dictating
  preedit : t.enginePreedit = s.enginePreedit
  field : SameField s.im t.im
  entered : s.client.pending = none → p → s.im.inputMethod.isSome = true →
    s.im.current.active = true → t.client = {}
  kept : s.client.pending = none →
    ¬(p ∧ s.im.inputMethod.isSome = true ∧ s.im.current.active = true) → t.client = s.client

/-- A call that enters no text. -/
abbrev Quiet (s t : State) : Prop := Effect False s t

theorem Quiet.of_im (him : t.im = s.im) (hclient : t.client = s.client)
    (hactive : t.active = s.active) (hdictating : t.dictating = s.dictating)
    (hpreedit : t.enginePreedit = s.enginePreedit) : Quiet s t :=
  ⟨hactive, hdictating, hpreedit, him ▸ .refl _, fun _ h => h.elim, fun _ _ => hclient⟩

theorem Effect.congr (h : Effect p s t) (hpq : p ↔ q) : Effect q s t := propext hpq ▸ h

theorem Effect.trans (h : Effect p s t) (h' : Effect q t u) : Effect (p ∨ q) s u where
  active := h'.active.trans h.active
  dictating := h'.dictating.trans h.dictating
  preedit := h'.preedit.trans h.preedit
  field := ⟨h'.field.inputMethod.trans h.field.inputMethod, h'.field.current.trans h.field.current,
    h'.field.pending.trans h.field.pending⟩
  entered := by
    intro hset hpq hobject hactive
    have hobject' : t.im.inputMethod.isSome = true := h.field.inputMethod ▸ hobject
    have hactive' : t.im.current.active = true := h.field.current ▸ hactive
    by_cases hp : p
    · have hclient := h.entered hset hp hobject hactive
      by_cases hq : q
      · exact h'.entered (by rw [hclient]) hq hobject' hactive'
      · exact (h'.kept (by rw [hclient]) fun hc => hq hc.1).trans hclient
    · have hclient := h.kept hset fun hc => hp hc.1
      exact h'.entered (by rw [hclient]; exact hset) (hpq.resolve_left hp) hobject' hactive'
  kept := by
    intro hset hno
    have hclient := h.kept hset fun hc => hno ⟨.inl hc.1, hc.2⟩
    have hclient' := h'.kept (by rw [hclient]; exact hset) fun hc =>
      hno ⟨.inr hc.1, h.field.inputMethod ▸ hc.2.1, h.field.current ▸ hc.2.2⟩
    exact hclient'.trans hclient

/-- After or before a call that enters no text. -/
theorem Effect.then_quiet (h : Effect p s t) (h' : Quiet t u) : Effect p s u :=
  (h.trans h').congr (iff_of_eq (or_false p))

theorem Quiet.then (h : Quiet s t) (h' : Effect q t u) : Effect q s u :=
  (h.trans h').congr (iff_of_eq (false_or q))

theorem Effect.of_pos (hp : p) (h : Effect True s t) : Effect p s t :=
  h.congr (iff_of_true trivial hp)

theorem Effect.of_neg (hp : ¬p) (h : Quiet s t) : Effect p s t := h.congr (iff_of_false id hp)

theorem Quiet.refl (s : State) : Quiet s s := .of_im rfl rfl rfl rfl rfl

theorem quiet_closePopup (s : State) : Quiet s (closePopup s) := .of_im rfl rfl rfl rfl rfl

theorem quiet_cancelHold (s : State) : Quiet s (cancelHold s) := .of_im rfl rfl rfl rfl rfl

theorem quiet_forgetCorrection (s : State) : Quiet s (forgetCorrection s) :=
  .of_im rfl rfl rfl rfl rfl

theorem quiet_scheduleSuggestions (s : State) : Quiet s (scheduleSuggestions s) :=
  .of_im rfl rfl rfl rfl rfl

theorem quiet_showPopup (items : List Text) (accents : Bool) (selected : ℤ) (s : State) :
    Quiet s (showPopup items accents selected s) := by
  rw [showPopup]
  split
  · exact .refl s
  · exact .of_im rfl rfl rfl rfl rfl

theorem quiet_updateGrab (env : Env) (s : State) : Quiet s (updateGrab env s) := by
  obtain ⟨grab, hgrab⟩ : ∃ grab, updateGrab env s = deliver (Protocol.setGrab grab s.im) s :=
    ⟨_, rfl⟩
  rw [hgrab]
  have hspec : ∃ requests, Sends s.im requests (Protocol.setGrab grab s.im) ∧
      ∀ r ∈ requests, ∀ c : Client, c.receive r = c := by
    rw [Protocol.setGrab]
    split
    · obtain ⟨requests, hsends, hother⟩ := updateGrab_spec { s.im with wantGrab := grab }
      exact ⟨requests, ⟨⟨hsends.inputMethod, hsends.current, hsends.pending⟩, hsends.sent⟩, hother⟩
    · exact ⟨[], .of_sent ⟨rfl, rfl, rfl⟩ rfl, List.forall_mem_nil _⟩
  obtain ⟨requests, hsends, hother⟩ := hspec
  exact ⟨rfl, rfl, rfl, hsends.toSameField, fun _ h => h.elim,
    fun _ _ => (client_deliver hsends.sent).trans (foldl_receive_of_other hother _)⟩

theorem effect_imeReplace (before after : UInt32) (text : Text) (s : State) :
    Effect True s (imeReplace before after text s) where
  active := rfl
  dictating := rfl
  preedit := rfl
  field := sameField_replace before after text s.im
  entered hset _ hobject hactive := by
    rw [client_imeReplace before after text s hset, if_pos ⟨hobject, hactive⟩]
  kept hset hno := by
    rw [client_imeReplace before after text s hset, if_neg fun h => hno ⟨trivial, h⟩]

/-! ### The texts of the service -/

theorem effect_applySuggestion (env : Env) (suggestion : Text) (s : State) :
    Effect (appliesSuggestion env s = true) s (applySuggestion env suggestion s) := by
  have hif : (!s.active || wordBeforeCursor env s = []) = !appliesSuggestion env s := by
    simp [appliesSuggestion]
  rw [applySuggestion, hif]
  by_cases h : appliesSuggestion env s = true
  · refine .of_pos h ?_
    rw [if_neg (by simp [h])]
    have hreplaced : Effect True s (if s.hasSurrounding then
        imeReplace (.ofNat (wordBeforeCursor env s).length) 0 suggestion s
        else imeReplace 0 0 suggestion s) := by
      split <;> exact effect_imeReplace _ _ _ _
    exact hreplaced.then_quiet (.of_im rfl rfl rfl rfl rfl)
  · rw [if_pos (by simpa using h)]
    exact .of_neg h (.refl s)

theorem effect_commitText (text : Text) (s : State) :
    Effect (s.active = true) s (commitText text s) := by
  rw [commitText]
  by_cases h : s.active = true
  · rw [if_neg (by simp [h])]
    exact .of_pos h (effect_imeReplace _ _ _ _)
  · rw [if_pos (by simpa using h)]
    exact .of_neg h (.refl s)

theorem effect_replacePrevious (previous text : Text) (s : State) :
    Effect (replacesPrevious previous s = true) s (replacePrevious previous text s) := by
  have hif : (!s.active || !previous.isSuffixOf (beforeCursor s)) = !replacesPrevious previous s :=
    (Bool.not_and _ _).symm
  rw [replacePrevious, hif]
  by_cases h : replacesPrevious previous s = true
  · rw [if_neg (by simp [h])]
    exact .of_pos h (effect_imeReplace _ _ _ _)
  · rw [if_pos (by simpa using h)]
    exact .of_neg h (.refl s)

theorem effect_chooseAccent (index : ℤ) (s : State) :
    Effect (choosesAccent index s = true) s (chooseAccent index s) := by
  rw [chooseAccent]
  by_cases hindex : index < 0
  · rw [if_pos hindex]
    exact .of_neg (by simp [choosesAccent, hindex]) (.refl s)
  rw [if_neg hindex]
  cases hchoice : s.popupItems[index.toNat]? with
  | none =>
    have hlength := List.getElem?_eq_none_iff.mp hchoice
    exact .of_neg (by simp [choosesAccent, Nat.not_lt.mpr hlength]) (.refl s)
  | some choice =>
    obtain ⟨hlength, -⟩ := List.getElem?_eq_some_iff.mp hchoice
    have h := (quiet_closePopup s).then (effect_replacePrevious s.holdText choice (closePopup s))
    refine h.congr ?_
    show replacesPrevious s.holdText s = true ↔ _
    simp [choosesAccent, hlength, Int.not_lt.mp hindex]

theorem autocorrect_fst (env : Env) (s : State) : (autocorrect env s).1 = autocorrects env s := by
  rw [autocorrect, autocorrects]
  dsimp only
  split <;> simp [*]

theorem effect_autocorrect (env : Env) (s : State) :
    Effect (autocorrects env s = true) s (autocorrect env s).2 := by
  cases hitems : corrections env (wordBeforeCursor env s) s with
  | nil =>
    simp only [autocorrect, hitems]
    exact .of_neg (by simp [autocorrects, hitems]) (.refl s)
  | cons item items =>
    simp only [autocorrect, hitems]
    exact .of_pos (by simp [autocorrects, hitems])
      ((effect_imeReplace _ _ _ _).then_quiet (.of_im rfl rfl rfl rfl rfl))

theorem revertNoted_fst (env : Env) (noted : Option Text × Option Text) (s : State) :
    (revertNoted env noted s).1 = reverts noted s := by
  rw [revertNoted, reverts]
  cases noted.1 with
  | none => rfl
  | some correctedFrom =>
    by_cases h : (noted.2.getD [] ++ [32]).isSuffixOf (beforeCursor s) = true <;>
      simp [revert, h]

theorem effect_revertNoted (env : Env) (noted : Option Text × Option Text) (s : State) :
    Effect (reverts noted s = true) s (revertNoted env noted s).2 := by
  rw [revertNoted, reverts]
  cases noted.1 with
  | none => exact .of_neg (by simp) (.refl s)
  | some correctedFrom =>
    by_cases h : (noted.2.getD [] ++ [32]).isSuffixOf (beforeCursor s) = true
    · simp only [revert, h, Bool.not_true, Bool.false_eq_true, if_false]
      exact .of_pos (by simp) ((effect_imeReplace _ _ _ _).then_quiet (.of_im rfl rfl rfl rfl rfl))
    · simp only [revert, h, Bool.not_false, if_true]
      exact .of_neg (by simp) (.refl s)

theorem quiet_keepWord (env : Env) (s : State) : Quiet s (keepWord env s) := by
  have hword : Quiet s (if wordBeforeCursor env s ≠ [] then
      { s with rejected := env.down (wordBeforeCursor env s) :: s.rejected } else s) := by
    split
    · exact .of_im rfl rfl rfl rfl rfl
    · exact .refl s
  exact hword.then_quiet (quiet_closePopup _)

theorem quiet_trackTyped (env : Env) (keysym : ℕ) (text : Text) (s : State) :
    Quiet s (trackTyped env keysym text s) := by
  rw [trackTyped]
  split <;> exact .of_im rfl rfl rfl rfl rfl

theorem quiet_refreshSuggestions (env : Env) (s : State) : Quiet s (refreshSuggestions env s) := by
  rw [refreshSuggestions]
  by_cases hbusy : (s.popupAccents || s.dictating || s.engineCandidates) = true
  · rw [if_pos hbusy]
    exact .refl s
  rw [if_neg hbusy]
  refine Effect.then_quiet ?_ (quiet_updateGrab env _)
  by_cases hshown : (env.spellSuggestions && !env.screenKeyboardEnabled &&
      corrections env (if s.active then wordBeforeCursor env s else []) s ≠ []) = true
  · rw [if_pos hshown]
    exact quiet_showPopup _ _ _ s
  · rw [if_neg hshown]
    exact quiet_closePopup s

theorem quiet_drainKeys (env : Env) (queue : List Key) (s : State) :
    Quiet s (drainKeys env queue s) := by
  induction queue with
  | nil => exact .of_im rfl rfl rfl rfl rfl
  | cons k queue ih =>
    rw [drainKeys]
    split
    · exact .of_im rfl rfl rfl rfl rfl
    · exact ih

/-! ### Keys -/

theorem fst_guard (r : Bool × State) (b : Bool) :
    (if b then r else (false, s)).1 = (b && r.1) := by
  cases b with
  | false => rfl
  | true => exact (Bool.true_and _).symm

/-- A text that is entered on a condition. -/
theorem Effect.guard {r : Bool × State} (h : Effect (r.1 = true) s r.2) (b : Bool) :
    Effect ((if b then r else (false, s)).1 = true) s (if b then r else (false, s)).2 := by
  cases b with
  | false => exact .of_neg Bool.false_ne_true (.refl s)
  | true => exact h

theorem effect_typedKey (env : Env) (k : Key) (s : State) :
    Effect (typedKeyEnters env k s = true) s (typedKey env k s) := by
  obtain ⟨noted, hnoted⟩ : ∃ noted, noted = (s.correctedFrom, s.correctedTo) := ⟨_, rfl⟩
  obtain ⟨t, ht⟩ : ∃ t, t = forgetCorrection s := ⟨_, rfl⟩
  obtain ⟨reverted, hreverted⟩ : ∃ r, r =
    if k.plain && k.keysym = 0xff08 then revertNoted env noted t else (false, t) := ⟨_, rfl⟩
  obtain ⟨corrected, hcorrected⟩ : ∃ r, r =
    if k.plain && k.keysym = 0x20 && env.spellAutocorrect then autocorrect env t else (false, t) :=
    ⟨_, rfl⟩
  have hrevert : Effect (reverted.1 = true) t reverted.2 := by
    rw [hreverted]
    exact Effect.guard (by rw [revertNoted_fst]; exact effect_revertNoted env noted t) _
  have hcorrect : Effect (corrected.1 = true) t corrected.2 := by
    rw [hcorrected]
    exact Effect.guard (by rw [autocorrect_fst]; exact effect_autocorrect env t) _
  have henters : typedKeyEnters env k s = (reverted.1 || corrected.1) := by
    have hsame : typedKeyEnters env k s =
        ((k.plain && k.keysym = 0xff08 && reverts noted t) ||
          (k.plain && k.keysym = 0x20 && env.spellAutocorrect && autocorrects env t)) := by
      rw [ht, hnoted]
      rfl
    rw [hsame, hreverted, hcorrected, fst_guard, fst_guard, revertNoted_fst, autocorrect_fst]
  have hstep : typedKey env k s =
      if reverted.1 then reverted.2
      else if corrected.1 then corrected.2
      else if k.keysym = 0xff1b ∧ t.popupItems ≠ [] then keepWord env t
      else if k.plain && env.pressHoldAccents && accentContext t && charCount k.text = 1 &&
          env.variants (getChar k.text) ≠ [] then
        { t with holdKey := k.key, holdText := k.text, holdTimeout := true }
      else t := by
    rw [hreverted, hcorrected, hnoted, ht]
    rfl
  refine (ht ▸ quiet_forgetCorrection s : Quiet s t).then ?_
  rw [henters, hstep]
  by_cases hr : reverted.1 = true
  · rw [if_pos hr]
    exact hrevert.congr (by simp [hr])
  rw [if_neg hr]
  by_cases hc : corrected.1 = true
  · rw [if_pos hc]
    exact hcorrect.congr (by simp [hc])
  rw [if_neg hc]
  refine .of_neg (by simp [hr, hc]) ?_
  by_cases hescape : k.keysym = 0xff1b ∧ t.popupItems ≠ []
  · rw [if_pos hescape]
    exact quiet_keepWord env t
  rw [if_neg hescape]
  split
  · exact .of_im rfl rfl rfl rfl rfl
  · exact .refl t

theorem effect_accentKey {k : Key} (h : accentKey k s = some t) :
    Effect (accentKeyEnters k s = true) s t := by
  rw [accentKey] at h
  rw [accentKeyEnters]
  by_cases hescape : k.keysym = 0xff1b
  · rw [if_pos hescape] at h ⊢
    exact Option.some.inj h ▸ .of_neg Bool.false_ne_true (quiet_closePopup s)
  rw [if_neg hescape] at h ⊢
  by_cases hdigit : k.plain ∧ 49 ≤ k.keysym ∧ k.keysym ≤ 57
  · rw [if_pos hdigit] at h ⊢
    exact Option.some.inj h ▸ effect_chooseAccent _ s
  rw [if_neg hdigit] at h ⊢
  by_cases harrow : k.keysym = 0xff51 ∨ k.keysym = 0xff53
  · rw [if_pos harrow] at h ⊢
    exact Option.some.inj h ▸ .of_neg Bool.false_ne_true (.of_im rfl rfl rfl rfl rfl)
  rw [if_neg harrow] at h ⊢
  by_cases hreturn : k.keysym = 0xff0d ∨ k.keysym = 0xff8d
  · rw [if_pos hreturn] at h
    exact Option.some.inj h ▸ effect_chooseAccent _ s
  · rw [if_neg hreturn] at h
    exact nomatch h

theorem effect_pressedKey (env : Env) (k : Key) (s : State) :
    Effect (pressedKeyEnters env k s = true) s (pressedKey env k s) := by
  obtain ⟨t, ht⟩ : ∃ t, t = if s.holdKey ≠ 0 ∧ k.key ≠ s.holdKey then cancelHold s else s :=
    ⟨_, rfl⟩
  have hheld : Quiet s t := by
    rw [ht]
    split
    · exact quiet_cancelHold s
    · exact .refl s
  refine hheld.then ?_
  simp only [pressedKeyEnters, pressedKey, ← ht]
  by_cases htab : (k.plain && k.keysym = 0xff09 && !t.popupAccents && t.popupItems ≠ []) = true
  · rw [if_pos htab, if_pos htab]
    exact effect_applySuggestion env _ t
  rw [if_neg htab, if_neg htab]
  obtain ⟨u, hu⟩ : ∃ u, u = if k.plain then trackTyped env k.keysym k.text t
    else { t with typedWord := [] } := ⟨_, rfl⟩
  have htracked : Quiet t u := by
    rw [hu]
    split
    · exact quiet_trackTyped env _ _ t
    · exact .of_im rfl rfl rfl rfl rfl
  refine htracked.then ?_
  rw [← hu]
  by_cases haccents : u.popupAccents = true
  · rw [if_pos haccents, if_pos haccents]
    cases haccent : accentKey k u with
    | none => exact (quiet_closePopup u).then (effect_typedKey env k _)
    | some v => exact effect_accentKey haccent
  · rw [if_neg haccents, if_neg haccents]
    exact effect_typedKey env k u

/-- A key that does not end the dictation. -/
theorem effect_onKey (env : Env) (k : Key) {s : State}
    (h : ¬(s.captureEscape && k.keysym = 0xff1b) = true) :
    Effect (keyEnters env k s = true) s (onKey env k s) := by
  rw [onKey, if_neg h]
  by_cases hengine : (engineContext env s || s.draining) = true
  · rw [if_pos hengine]
    refine .of_neg (by rw [keyEnters, hengine]; simp) ?_
    by_cases hdraining : s.draining = true
    · rw [if_pos hdraining]
      exact .of_im rfl rfl rfl rfl rfl
    · rw [if_neg hdraining]
      have hqueued : Quiet s { s with keyQueue := s.keyQueue ++ [k] } := .of_im rfl rfl rfl rfl rfl
      exact hqueued.then_quiet (quiet_drainKeys env _ _)
  rw [if_neg hengine]
  by_cases hpressed : k.pressed = true
  · rw [if_neg (by simp [hpressed])]
    refine (effect_pressedKey env k s).congr ?_
    rw [keyEnters, Bool.eq_false_iff.mpr h, Bool.eq_false_iff.mpr hengine, hpressed]
    exact Iff.rfl
  · rw [if_pos (by simpa using hpressed)]
    refine .of_neg (by simp [keyEnters, hpressed]) ?_
    split
    · exact quiet_cancelHold s
    · exact .refl s

theorem effect_onPointer (env : Env) (hit : Hit) (s : State) :
    Effect (hitEnters env hit s = true) s (onPointer env hit s) := by
  cases hit with
  | item action =>
    rw [onPointer, hitEnters]
    by_cases hengine : (s.engineCandidates && s.boundEngine.isSome) = true
    · rw [if_pos hengine, hengine]
      exact .of_neg (by simp) (.refl s)
    rw [if_neg hengine, Bool.eq_false_iff.mpr hengine]
    cases hitem : s.popupItems[action]? with
    | none =>
      have hlength := List.getElem?_eq_none_iff.mp hitem
      exact .of_neg (by simp [Nat.not_lt.mpr hlength]) (.refl s)
    | some item =>
      obtain ⟨hlength, -⟩ := List.getElem?_eq_some_iff.mp hitem
      dsimp only
      by_cases haccents : s.popupAccents = true
      · rw [if_pos haccents, if_pos haccents]
        exact (effect_chooseAccent action s).congr (by simp [hlength])
      · rw [if_neg haccents, if_neg haccents]
        exact (effect_applySuggestion env item s).congr (by simp [hlength])
  | none => exact .of_neg Bool.false_ne_true (.refl s)
  | dictation => exact .of_neg Bool.false_ne_true (.refl s)
  | previous => exact .of_neg Bool.false_ne_true (.refl s)
  | next => exact .of_neg Bool.false_ne_true (.refl s)

/-! ### Steps -/

/-- What holds in every state: the field is active as `ime.c` has it, nothing is set without a
commit, and a field that was not active shows no preedit when it becomes so. -/
structure Kept (s : State) : Prop where
  active : s.active = s.im.current.active
  settled : s.client.pending = none
  fresh : s.active = false → s.im.pending.active = true → s.client = {}

theorem kept_init : Kept {} := ⟨rfl, rfl, fun _ h => nomatch h⟩

theorem Kept.effect (h : Kept s) (he : Effect p s t) : Kept t where
  active := by rw [he.active, he.field.current, h.active]
  settled := by
    by_cases hp : p ∧ s.im.inputMethod.isSome = true ∧ s.im.current.active = true
    · rw [he.entered h.settled hp.1 hp.2.1 hp.2.2]
    · rw [he.kept h.settled hp, h.settled]
  fresh hactive hpending := by
    rw [he.active] at hactive
    rw [he.field.pending] at hpending
    rw [he.kept h.settled fun hp => ?_, h.fresh hactive hpending]
    rw [← h.active, hactive] at hp
    exact nomatch hp.2.2

/-- A call keeps the property unless it enters a text while the engine composes one. -/
theorem Effect.displayed_iff (he : Effect p s t) (h : Kept s) (hd : Displayed s) :
    Displayed t ↔ (p → ¬Exposed s) := by
  constructor
  · intro hd' hp hexposed
    have hclient : t.client = {} := he.entered h.settled hp hexposed.connected
      (h.active ▸ hexposed.active)
    have hshown := hd' (he.active ▸ hexposed.active) (he.dictating ▸ hexposed.dictating)
    rw [State.shown, hclient, he.preedit] at hshown
    exact hexposed.preedit hshown.symm
  · intro hno hactive hdictating
    rw [he.active] at hactive
    rw [he.dictating] at hdictating
    have hshown := hd hactive hdictating
    rw [State.shown, he.preedit]
    by_cases hp : p ∧ s.im.inputMethod.isSome = true ∧ s.im.current.active = true
    · rw [he.entered h.settled hp.1 hp.2.1 hp.2.2]
      by_contra hne
      exact hno hp.1 ⟨⟨hactive, hdictating, fun hempty => hne hempty.symm⟩, hp.2.1⟩
    · rw [he.kept h.settled hp]
      exact hshown

theorem Kept.congr (h : Kept s) (him : t.im = s.im) (hclient : t.client = s.client)
    (hactive : t.active = s.active) : Kept t :=
  ⟨by rw [hactive, him, h.active], by rw [hclient, h.settled],
    fun ha hp => by rw [hclient, h.fresh (hactive ▸ ha) (him ▸ hp)]⟩

theorem client_deliver_of_sent {im : Protocol.State} (h : im.sent = s.im.sent) :
    (deliver im s).client = s.client :=
  client_deliver ⟨[], by rw [h, List.append_nil], rfl⟩

/-- An event of the input method before its `done`. -/
theorem Kept.deliver (h : Kept s) {im : Protocol.State} (hsent : im.sent = s.im.sent)
    (hcurrent : im.current = s.im.current)
    (hpending : im.pending.active = true → s.im.pending.active = true) : Kept (deliver im s) where
  active := by
    show s.active = im.current.active
    rw [hcurrent, h.active]
  settled := by rw [client_deliver_of_sent hsent, h.settled]
  fresh hactive hp := by rw [client_deliver_of_sent hsent, h.fresh hactive (hpending hp)]

theorem displayed_deliver {im : Protocol.State} (hsent : im.sent = s.im.sent) (hd : Displayed s) :
    Displayed (deliver im s) := by
  intro hactive hdictating
  rw [State.shown, client_deliver_of_sent hsent]
  exact hd hactive hdictating

/-- A text field is entered. -/
theorem kept_activate (h : Kept s) :
    Kept { deliver (Protocol.imActivate s.im) s with client := {} } :=
  ⟨h.active, rfl, fun _ _ => rfl⟩

theorem displayed_activate (hobject : s.im.inputMethod.isSome = true) :
    Displayed { deliver (Protocol.imActivate s.im) s with client := {} } ↔ ¬Exposed s := by
  constructor
  · intro hd' hexposed
    exact hexposed.preedit (hd' hexposed.active hexposed.dictating).symm
  · intro hno hactive hdictating
    by_contra hne
    exact hno ⟨⟨hactive, hdictating, fun hempty => hne hempty.symm⟩, hobject⟩

theorem onState_spec (env : Env) (isActive : Bool) (text : Text) (textCursor : ℕ)
    (purpose hint : UInt32) (hset : s.client.pending = none)
    (ht : t = onState env isActive text textCursor purpose hint s) :
    t.active = isActive ∧ t.dictating = s.dictating ∧ t.client = s.client ∧ SameField s.im t.im ∧
      (isActive = true → t.enginePreedit = s.enginePreedit) := by
  obtain ⟨u, hu⟩ : ∃ u, u =
    if isActive && !s.active then { s with hasSurrounding := false, typedWord := [] } else s :=
      ⟨_, rfl⟩
  have hquiet : Quiet s u := by
    rw [hu]
    split
    · exact .of_im rfl rfl rfl rfl rfl
    · exact .refl s
  obtain ⟨v, hv⟩ : ∃ v, v =
    if isActive && text ≠ [] && !u.hasSurrounding then { u with hasSurrounding := true } else u :=
    ⟨_, rfl⟩
  have hquiet' : Quiet u v := by
    rw [hv]
    split
    · exact .of_im rfl rfl rfl rfl rfl
    · exact .refl u
  have hsv : Quiet s v := hquiet.then_quiet hquiet'
  obtain ⟨w, hw⟩ : ∃ w, w = updateGrab env { v with
    active := isActive
    surrounding := text
    cursor := min textCursor text.length
    purpose
    hint } := ⟨_, rfl⟩
  have hgrab := quiet_updateGrab env { v with
    active := isActive
    surrounding := text
    cursor := min textCursor text.length
    purpose
    hint }
  rw [← hw] at hgrab
  have hvset : v.client = s.client := hsv.kept hset fun h => h.1
  have hwclient : w.client = s.client :=
    (hgrab.kept (by rw [hvset]; exact hset) fun h => h.1).trans hvset
  have hwfield : SameField s.im w.im :=
    ⟨hgrab.field.inputMethod.trans hsv.field.inputMethod,
      hgrab.field.current.trans hsv.field.current,
      hgrab.field.pending.trans hsv.field.pending⟩
  have hwpreedit : w.enginePreedit = s.enginePreedit := hgrab.preedit.trans hsv.preedit
  have hwdictating : w.dictating = s.dictating := hgrab.dictating.trans hsv.dictating
  obtain ⟨x, hx⟩ : ∃ x, x =
    if w.boundEngine.isSome && !isActive && s.active then clearEngineUi w else w := ⟨_, rfl⟩
  have hcleared : x.active = w.active ∧ x.dictating = w.dictating ∧ x.client = w.client ∧
      x.im = w.im ∧ (isActive = true → x.enginePreedit = w.enginePreedit) := by
    rw [hx]
    by_cases hleft : (w.boundEngine.isSome && !isActive && s.active) = true
    · rw [if_pos hleft]
      exact ⟨rfl, rfl, rfl, rfl, fun h => absurd hleft (by simp [h])⟩
    · rw [if_neg hleft]
      exact ⟨rfl, rfl, rfl, rfl, fun _ => rfl⟩
  obtain ⟨hxactive, hxdictating, hxclient, hxim, hxpreedit⟩ := hcleared
  have hlast : t = if !isActive then
      { closePopup (cancelHold x) with correctedFrom := none, correctedTo := none }
      else scheduleSuggestions x := by
    rw [ht, hx, hw, hv, hu]
    rfl
  have hkept : t.active = x.active ∧ t.dictating = x.dictating ∧ t.client = x.client ∧ t.im = x.im ∧
      t.enginePreedit = x.enginePreedit := by
    rw [hlast]
    split <;> exact ⟨rfl, rfl, rfl, rfl, rfl⟩
  obtain ⟨htactive, htdictating, htclient, htim, htpreedit⟩ := hkept
  refine ⟨?_, ?_, ?_, ?_, fun hactive => ?_⟩
  · rw [htactive, hxactive, hgrab.active]
  · rw [htdictating, hxdictating, hwdictating]
  · rw [htclient, hxclient, hwclient]
  · rw [htim, hxim]
    exact hwfield
  · rw [htpreedit, hxpreedit hactive, hwpreedit]

/-- The text field of a `done`. -/
theorem onDone_spec (env : Env) (hset : s.client.pending = none) (ht : t = onDone env s) :
    t.active = s.im.pending.active ∧ t.dictating = s.dictating ∧ t.client = s.client ∧
      t.im.inputMethod = s.im.inputMethod ∧ t.im.current = s.im.pending ∧
      t.im.pending = s.im.pending ∧
      (s.im.pending.active = true → t.enginePreedit = s.enginePreedit) := by
  obtain ⟨requests, hsends, hother⟩ := updateGrab_spec { s.im with
    serial := s.im.serial + 1
    current := s.im.pending
    dones := s.im.dones + 1
    objectActive := s.im.objectPending }
  obtain ⟨u, hu⟩ : ∃ u, u = deliver (Protocol.imDone s.im) s := ⟨_, rfl⟩
  have huclient : u.client = s.client := by
    rw [hu]
    exact (client_deliver hsends.sent).trans (foldl_receive_of_other hother _)
  have hufield : u.im.inputMethod = s.im.inputMethod ∧ u.im.current = s.im.pending ∧
      u.im.pending = s.im.pending := by
    rw [hu]
    exact ⟨hsends.inputMethod, hsends.current, hsends.pending⟩
  have hstate : t = onState env u.im.current.active (u.im.current.surrounding.getD [])
      u.im.current.cursor.toNat u.im.current.purpose u.im.current.hint u := by
    rw [ht, hu]
    rfl
  obtain ⟨hactive, hdictating, hclient, hsame, hpreedit⟩ :=
    onState_spec env _ _ _ _ _ (by rw [huclient, hset]) hstate
  refine ⟨?_, ?_, ?_, ?_, ?_, ?_, fun h => ?_⟩
  · rw [hactive, hufield.2.1]
  · rw [hdictating, hu]
    rfl
  · rw [hclient, huclient]
  · rw [hsame.inputMethod, hufield.1]
  · rw [hsame.current, hufield.2.1]
  · rw [hsame.pending, hufield.2.2]
  · rw [hpreedit (by rw [hufield.2.1, h]), hu]
    rfl

theorem kept_done (env : Env) (h : Kept s) : Kept (onDone env s) := by
  obtain ⟨hactive, -, hclient, -, hcurrent, hpending, -⟩ := onDone_spec env h.settled rfl
  refine ⟨by rw [hactive, hcurrent], by rw [hclient, h.settled], fun ha hp => ?_⟩
  rw [hactive, ← hpending, hp] at ha
  exact nomatch ha

theorem displayed_done (env : Env) (h : Kept s) (hd : Displayed s) :
    Displayed (onDone env s) ↔
      (s.active = false → s.im.pending.active = true → s.dictating = false →
        s.enginePreedit = []) := by
  obtain ⟨hactive, hdictating, hclient, -, -, -, hpreedit⟩ := onDone_spec env h.settled rfl
  constructor
  · intro hd' hinactive hentered hidle
    have hshown := hd' (by rw [hactive, hentered]) (by rw [hdictating, hidle])
    rw [State.shown, hclient, h.fresh hinactive hentered, hpreedit hentered] at hshown
    exact hshown.symm
  · intro hok ha hidle
    rw [hactive] at ha
    rw [hdictating] at hidle
    rw [State.shown, hclient, hpreedit ha]
    cases hwas : s.active with
    | true => exact hd hwas hidle
    | false => rw [h.fresh hwas ha, hok hwas ha hidle]

/-! ### The engine -/

theorem kept_imePreedit (text : Text) (cursorBegin cursorEnd : ℤ) (h : Kept s)
    (hactive : s.active = true) : Kept (imePreedit text cursorBegin cursorEnd s) where
  active := by
    show s.active = (Protocol.preedit text cursorBegin cursorEnd s.im).current.active
    rw [(sameField_preedit text cursorBegin cursorEnd s.im).current, h.active]
  settled := by
    rw [client_imePreedit text cursorBegin cursorEnd s h.settled]
    split
    · rfl
    · exact h.settled
  fresh hinactive _ := nomatch hactive.symm.trans hinactive

/-- The engine has no preedit, or has another one. -/
theorem Kept.preedit (h : Kept s) (text : Text) : Kept { s with enginePreedit := text } :=
  h.congr rfl rfl rfl

theorem kept_engineCommit (text : Text) (h : Kept s) : Kept (onEngineCommit text s) := by
  rw [onEngineCommit]
  dsimp only
  split
  · exact (h.preedit []).effect (effect_imeReplace _ _ _ _)
  · exact h.preedit []

theorem displayed_engineCommit (text : Text) (h : Kept s) (hd : Displayed s) :
    Displayed (onEngineCommit text s) ↔
      (Composing s → text ≠ [] ∧ s.im.inputMethod.isSome = true) := by
  have hclient : s.active = true → (onEngineCommit text s).client =
      if text ≠ [] ∧ s.im.inputMethod.isSome = true then {} else s.client := by
    intro hactive
    have hcurrent : s.im.current.active = true := h.active ▸ hactive
    rw [onEngineCommit]
    by_cases htext : text = []
    · rw [if_neg (by simp [htext]), if_neg fun hc => hc.1 htext]
    · rw [if_pos (by simp [hactive, htext])]
      refine (client_imeReplace 0 0 text _ (h.preedit []).settled).trans ?_
      simp only [hcurrent, htext, and_true, ne_eq, not_false_eq_true, true_and]
  have hframe : (onEngineCommit text s).active = s.active ∧
      (onEngineCommit text s).dictating = s.dictating ∧
        (onEngineCommit text s).enginePreedit = [] := by
    rw [onEngineCommit]
    dsimp only
    split <;> exact ⟨rfl, rfl, rfl⟩
  obtain ⟨hactive', hdictating', hpreedit'⟩ := hframe
  constructor
  · intro hd' hcomposing
    have hshown := hd' (hactive' ▸ hcomposing.active) (hdictating' ▸ hcomposing.dictating)
    rw [State.shown, hclient hcomposing.active, hpreedit'] at hshown
    by_contra hno
    rw [if_neg hno] at hshown
    exact hcomposing.preedit ((hd hcomposing.active hcomposing.dictating).symm.trans hshown)
  · intro hok hactive hdictating
    rw [hactive'] at hactive
    rw [hdictating'] at hdictating
    rw [State.shown, hclient hactive, hpreedit']
    by_cases hempty : s.enginePreedit = []
    · split
      · rfl
      · exact (hd hactive hdictating).trans hempty
    · rw [if_pos (hok ⟨hactive, hdictating, hempty⟩)]

theorem kept_enginePreedit (text : Text) (charCursor : ℤ) (h : Kept s) :
    Kept (onEnginePreedit text charCursor s) := by
  rw [onEnginePreedit]
  by_cases hactive : s.active = true
  · rw [if_neg (by simp [hactive])]
    exact kept_imePreedit _ _ _ (h.preedit text) hactive
  · rw [if_pos (by simpa using hactive)]
    exact h.preedit text

theorem displayed_enginePreedit (text : Text) (charCursor : ℤ) (h : Kept s) (hd : Displayed s) :
    Displayed (onEnginePreedit text charCursor s) ↔
      (s.active = true → s.dictating = false →
        s.im.inputMethod.isSome = true ∨ text = s.enginePreedit) := by
  have hframe : (onEnginePreedit text charCursor s).active = s.active ∧
      (onEnginePreedit text charCursor s).dictating = s.dictating ∧
      (onEnginePreedit text charCursor s).enginePreedit = text := by
    rw [onEnginePreedit]
    dsimp only
    split <;> exact ⟨rfl, rfl, rfl⟩
  obtain ⟨hactive', hdictating', hpreedit'⟩ := hframe
  have hclient : s.active = true → (onEnginePreedit text charCursor s).client =
      if s.im.inputMethod.isSome = true then { preedit := text } else s.client := by
    intro hactive
    have hcurrent : s.im.current.active = true := h.active ▸ hactive
    rw [onEnginePreedit, if_neg (by simp [hactive])]
    refine (client_imePreedit text _ _ _ (h.preedit text).settled).trans ?_
    simp only [hcurrent, and_true]
  refine ⟨fun hd' hactive hdictating => ?_, fun hok hactive hdictating => ?_⟩
  · have hshown := hd' (hactive' ▸ hactive) (hdictating' ▸ hdictating)
    rw [State.shown, hclient hactive, hpreedit'] at hshown
    by_cases hobject : s.im.inputMethod.isSome = true
    · exact .inl hobject
    · rw [if_neg hobject] at hshown
      exact .inr (hshown.symm.trans (hd hactive hdictating))
  · rw [hactive'] at hactive
    rw [hdictating'] at hdictating
    rw [State.shown, hclient hactive, hpreedit']
    by_cases hobject : s.im.inputMethod.isSome = true
    · rw [if_pos hobject]
    · rw [if_neg hobject]
      exact (hd hactive hdictating).trans ((hok hactive hdictating).resolve_left hobject).symm

theorem effect_engineDelete (offset count : ℤ) (s : State) :
    Effect (s.active = true) s (onEngineDelete offset count s) := by
  rw [onEngineDelete]
  by_cases hactive : s.active = true
  · rw [if_neg (by simp [hactive])]
    exact .of_pos hactive (effect_imeReplace _ _ _ _)
  · rw [if_pos (by simpa using hactive)]
    exact .of_neg hactive (.refl s)

theorem quiet_engineCandidates (list : Bool) (s : State) : Quiet s (onEngineCandidates list s) := by
  rw [onEngineCandidates]
  dsimp only
  split
  · exact .of_im rfl rfl rfl rfl rfl
  · split <;> exact .of_im rfl rfl rfl rfl rfl

/-- The preedit of the engine is forgotten, and the client is not told. -/
theorem displayed_cleared (hd : Displayed s) (hactive' : t.active = s.active)
    (hdictating' : t.dictating = s.dictating) (hclient : t.client = s.client)
    (hpreedit' : t.enginePreedit = []) : Displayed t ↔ ¬Composing s := by
  refine ⟨fun hd' hcomposing => ?_, fun hno hactive hdictating => ?_⟩
  · have hshown := hd' (hactive' ▸ hcomposing.active) (hdictating' ▸ hcomposing.dictating)
    rw [State.shown, hclient, hpreedit'] at hshown
    exact hcomposing.preedit ((hd hcomposing.active hcomposing.dictating).symm.trans hshown)
  · rw [hactive'] at hactive
    rw [hdictating'] at hdictating
    rw [State.shown, hclient, hpreedit']
    by_contra hne
    exact hno ⟨hactive, hdictating, fun hempty => hne ((hd hactive hdictating).trans hempty)⟩

theorem kept_bindEngine (env : Env) (engine : Option ℕ) (h : Kept s) :
    Kept (bindEngine env engine s) := by
  rw [bindEngine]
  split
  · exact h.effect (quiet_updateGrab env s)
  · have hcleared : Kept (clearEngineUi { s with boundEngine := engine }) := h.congr rfl rfl rfl
    exact hcleared.effect (quiet_updateGrab env _)

theorem displayed_bindEngine (env : Env) (engine : Option ℕ) (h : Kept s) (hd : Displayed s) :
    Displayed (bindEngine env engine s) ↔ (engine ≠ s.boundEngine → ¬Composing s) := by
  rw [bindEngine]
  by_cases hsame : engine = s.boundEngine
  · rw [if_pos hsame, (quiet_updateGrab env s).displayed_iff h hd]
    exact iff_of_true False.elim fun hne => absurd hsame hne
  · rw [if_neg hsame]
    have hgrab := quiet_updateGrab env (clearEngineUi { s with boundEngine := engine })
    rw [displayed_cleared hd hgrab.active hgrab.dictating (hgrab.kept h.settled fun hp => hp.1)
      hgrab.preedit]
    exact ⟨fun hno _ => hno, fun hno => hno hsame⟩

theorem kept_sourcesChanged (env : Env) (h : Kept s) : Kept (onSourcesChanged env s) := by
  rw [onSourcesChanged]
  refine Kept.effect ?_ (quiet_updateGrab env _)
  split
  · exact h.congr rfl rfl rfl
  · exact h

theorem displayed_sourcesChanged (env : Env) (h : Kept s) (hd : Displayed s) :
    Displayed (onSourcesChanged env s) ↔ (env.current = [] → ¬Composing s) := by
  rw [onSourcesChanged]
  by_cases hcurrent : env.current = []
  · rw [if_pos hcurrent]
    have hgrab := quiet_updateGrab env (clearEngineUi s)
    rw [displayed_cleared hd hgrab.active hgrab.dictating (hgrab.kept h.settled fun hp => hp.1)
      hgrab.preedit]
    exact ⟨fun hno _ => hno, fun hno => hno hcurrent⟩
  · rw [if_neg hcurrent, (quiet_updateGrab env s).displayed_iff h hd]
    exact iff_of_true False.elim fun hempty => absurd hempty hcurrent

/-! ### Dictation -/

theorem kept_setPreedit (text : Text) (h : Kept s) : Kept (setPreedit text s) := by
  rw [setPreedit]
  by_cases hactive : s.active = true
  · rw [if_neg (by simp [hactive])]
    exact kept_imePreedit _ _ _ h hactive
  · rw [if_pos (by simpa using hactive)]
    exact h

theorem setPreedit_frame (text : Text) (s : State) :
    (setPreedit text s).active = s.active ∧ (setPreedit text s).dictating = s.dictating ∧
      (setPreedit text s).enginePreedit = s.enginePreedit ∧
        (setPreedit text s).preview = s.preview := by
  rw [setPreedit]
  split <;> exact ⟨rfl, rfl, rfl, rfl⟩

/-- Nothing is asked of the client while there is dictation. -/
theorem displayed_of_dictating (h : s.dictating = true) : Displayed s :=
  fun _ hidle => nomatch h.symm.trans hidle

theorem startDictation_spec (env : Env) (h : Kept s) (hd : Displayed s) :
    Kept (startDictation env s) ∧ Displayed (startDictation env s) := by
  rw [startDictation]
  by_cases hdictating : s.dictating = true
  · rw [if_pos hdictating]
    exact ⟨h, hd⟩
  · rw [if_neg hdictating]
    have hstarted : Kept { s with
        preview := []
        dictating := true
        popupItems := []
        popupAccents := false
        captureEscape := true } := h.congr rfl rfl rfl
    exact ⟨hstarted.effect (quiet_updateGrab env _),
      displayed_of_dictating (quiet_updateGrab env _).dictating⟩

theorem onPartial_spec (formatted : Text) (h : Kept s) (hd : Displayed s) :
    Kept (onPartial formatted s) ∧ Displayed (onPartial formatted s) := by
  rw [onPartial]
  by_cases hdictating : s.dictating = true
  · rw [if_neg (by simp [hdictating])]
    have hnoted : Kept { s with preview := formatted } := h.congr rfl rfl rfl
    exact ⟨kept_setPreedit formatted hnoted,
      displayed_of_dictating ((setPreedit_frame formatted _).2.1.trans hdictating)⟩
  · rw [if_pos (by simpa using hdictating)]
    exact ⟨h, hd⟩

theorem onSegment_spec (formatted : Text) (h : Kept s) (hd : Displayed s) :
    Kept (onSegment formatted s) ∧ Displayed (onSegment formatted s) := by
  rw [onSegment]
  by_cases hdictating : s.dictating = true
  · rw [if_neg (by simp [hdictating])]
    have hnoted : Kept { s with preview := [] } := h.congr rfl rfl rfl
    dsimp only
    split
    · exact ⟨hnoted, displayed_of_dictating hdictating⟩
    · have heffect := effect_commitText formatted { s with preview := [] }
      exact ⟨hnoted.effect heffect, displayed_of_dictating (heffect.dictating.trans hdictating)⟩
  · rw [if_pos (by simpa using hdictating)]
    exact ⟨h, hd⟩

theorem endDictation_spec (env : Env) (h : Kept s) (hd : Displayed s) :
    Kept (endDictation env s) ∧
      (Displayed (endDictation env s) ↔ (s.dictating = true → EndsWell s)) := by
  rw [endDictation]
  by_cases hdictating : s.dictating = true
  · rw [if_neg (by simp [hdictating])]
    obtain ⟨u, hu⟩ : ∃ u, u = if s.preview ≠ [] then setPreedit [] s else s := ⟨_, rfl⟩
    have hkept : Kept u := by
      rw [hu]
      split
      · exact kept_setPreedit [] h
      · exact h
    have hframe : u.active = s.active ∧ u.enginePreedit = s.enginePreedit := by
      rw [hu]
      split
      · exact ⟨(setPreedit_frame [] s).1, (setPreedit_frame [] s).2.2.1⟩
      · exact ⟨rfl, rfl⟩
    have hclient : s.active = true → u.client =
        if s.preview ≠ [] ∧ s.im.inputMethod.isSome = true then {} else s.client := by
      intro hactive
      have hcurrent : s.im.current.active = true := h.active ▸ hactive
      rw [hu]
      by_cases hpreview : s.preview = []
      · rw [if_neg fun hne => hne hpreview, if_neg fun hne => hne.1 hpreview]
      · rw [if_pos hpreview, setPreedit, if_neg (by simp [hactive]),
          client_imePreedit [] _ _ s h.settled]
        simp only [hcurrent, hpreview, and_true, ne_eq, not_false_eq_true, true_and]
    have hended : Kept { u with preview := [], captureEscape := false } := hkept.congr rfl rfl rfl
    have hgrab := quiet_updateGrab env { u with preview := [], captureEscape := false }
    obtain ⟨v, hv⟩ : ∃ v, v = updateGrab env { u with preview := [], captureEscape := false } :=
      ⟨_, rfl⟩
    rw [← hu]
    dsimp only
    rw [← hv]
    rw [← hv] at hgrab
    have hvclient : v.client = u.client := hgrab.kept hkept.settled fun hp => hp.1
    refine ⟨(hended.effect hgrab).congr rfl rfl rfl, ?_⟩
    have hiff : Displayed (scheduleSuggestions { v with dictating := false }) ↔
        (s.active = true → u.shown = s.enginePreedit) := by
      refine ⟨fun hd' hactive => ?_, fun hok hactive _ => ?_⟩
      · have hshown : v.client.preedit = v.enginePreedit :=
          hd' (hgrab.active.trans (hframe.1.trans hactive)) rfl
        rw [hvclient, hgrab.preedit] at hshown
        exact hshown.trans hframe.2
      · have hsactive : s.active = true := hframe.1.symm.trans (hgrab.active.symm.trans hactive)
        show v.client.preedit = v.enginePreedit
        rw [hvclient, hgrab.preedit]
        exact (hok hsactive).trans hframe.2.symm
    rw [hiff]
    refine ⟨fun hok _ hactive => ?_, fun hok hactive => ?_⟩
    · have hshown := hok hactive
      rw [State.shown, hclient hactive] at hshown
      split
      · rw [if_pos ‹_›] at hshown
        exact hshown.symm
      · rw [if_neg ‹_›] at hshown
        exact hshown
    · have hend := hok hdictating hactive
      rw [State.shown, hclient hactive]
      split
      · rw [if_pos ‹_›] at hend
        exact hend.symm
      · rw [if_neg ‹_›] at hend
        exact hend
  · rw [if_pos (by simpa using hdictating)]
    exact ⟨h, iff_of_true hd fun hyes => absurd hyes hdictating⟩

theorem effect_oskSpace (env : Env) (s : State) :
    Effect (env.spellAutocorrect = true ∧ autocorrects env (forgetCorrection s) = true) s
      (oskSpace env s) := by
  rw [oskSpace]
  refine (quiet_forgetCorrection s).then ?_
  by_cases hsetting : env.spellAutocorrect = true
  · rw [if_neg (by simp [hsetting])]
    exact (effect_autocorrect env _).congr (by simp [hsetting])
  · rw [if_pos (by simpa using hsetting)]
    exact .of_neg (fun hp => hsetting hp.1) (.refl _)

theorem effect_oskBackspace (env : Env) (s : State) :
    Effect (reverts (s.correctedFrom, s.correctedTo) s = true) s (oskBackspace env s) :=
  (quiet_forgetCorrection s).then
    (effect_revertNoted env (s.correctedFrom, s.correctedTo) (forgetCorrection s))

/-! ### The step -/

/-- A call that keeps the property when `p` holds. -/
structure Keeps (p : Prop) (t : State) : Prop where
  kept : Kept t
  displayed_iff : Displayed t ↔ p

theorem Keeps.congr (h : Keeps p t) (hpq : p ↔ q) : Keeps q t := ⟨h.kept, h.displayed_iff.trans hpq⟩

theorem Keeps.of_displayed (h : Kept s) (hd : Displayed s) : Keeps True s :=
  ⟨h, iff_of_true hd trivial⟩

theorem Kept.keeps (h : Kept s) (hd : Displayed s) (he : Effect p s t) : Keeps (p → ¬Exposed s) t :=
  ⟨h.effect he, he.displayed_iff h hd⟩

theorem Kept.keeps_quiet (h : Kept s) (hd : Displayed s) (he : Quiet s t) : Keeps True t :=
  (h.keeps hd he).congr (iff_of_true False.elim trivial)

/-- What is done only in some states. -/
theorem Keeps.guard {c : Prop} [Decidable c] (h : Kept s) (hd : Displayed s) (ht : c → Keeps p t) :
    Keeps (c → p) (if c then t else s) := by
  by_cases hc : c
  · rw [if_pos hc]
    exact (ht hc).congr ⟨fun hp _ => hp, fun hp => hp hc⟩
  · rw [if_neg hc]
    exact (Keeps.of_displayed h hd).congr (iff_of_true trivial fun hc' => absurd hc' hc)

theorem Keeps.guard_true {c : Prop} [Decidable c] (h : Kept s) (hd : Displayed s)
    (ht : c → Keeps True t) : Keeps True (if c then t else s) :=
  (Keeps.guard h hd ht).congr (iff_of_true (fun _ => trivial) trivial)

theorem keeps_deliver (h : Kept s) (hd : Displayed s) {im : Protocol.State}
    (hsent : im.sent = s.im.sent)
    (hcurrent : im.current = s.im.current)
    (hpending : im.pending.active = true → s.im.pending.active = true) :
      Keeps True (deliver im s) :=
  .of_displayed (h.deliver hsent hcurrent hpending) (displayed_deliver hsent hd)

theorem keeps_start (h : Kept s) (hd : Displayed s) (found : Protocol.Found) :
    Keeps True (deliver (Protocol.start found s.im) s) := by
  rw [Protocol.start]
  split
  · exact keeps_deliver h hd rfl rfl id
  split
  · exact keeps_deliver h hd rfl rfl id
  split
  · exact keeps_deliver h hd rfl rfl id
  · exact keeps_deliver h hd rfl rfl id

theorem keeps_onKey (env : Env) (k : Key) (h : Kept s) (hd : Displayed s) :
    Keeps ((keyEnters env k s = true → ¬Exposed s) ∧
      (s.captureEscape = true → k.keysym = 0xff1b → k.pressed = true → s.dictating = true →
        EndsWell s)) (onKey env k s) := by
  by_cases hescape : (s.captureEscape && k.keysym = 0xff1b) = true
  · have henters : ¬keyEnters env k s = true := by rw [keyEnters, hescape]; exact Bool.false_ne_true
    obtain ⟨hcapture, hkeysym⟩ : s.captureEscape = true ∧ k.keysym = 0xff1b := by
      simpa using hescape
    rw [onKey, if_pos hescape]
    refine (Keeps.guard h hd fun _ => ⟨(endDictation_spec env h hd).1,
      (endDictation_spec env h hd).2⟩).congr ?_
    exact ⟨fun hend => ⟨fun hyes => absurd hyes henters, fun _ _ => hend⟩,
      fun hok => hok.2 hcapture hkeysym⟩
  · refine (h.keeps hd (effect_onKey env k hescape)).congr ⟨fun hok => ⟨hok, ?_⟩, And.left⟩
    exact fun hcapture hkeysym => absurd (by simp [hcapture, hkeysym]) hescape

theorem displayed_step (h : Kept s) (hd : Displayed s) (e : Event) :
    Keeps (Regular s e) (step s e) := by
  cases e with
  | start found => exact keeps_start h hd found
  | activate =>
    refine (Keeps.guard h hd fun hobject => ⟨kept_activate h, displayed_activate hobject⟩).congr ?_
    exact ⟨fun hno hexposed => hno hexposed.connected hexposed, fun hno _ => hno⟩
  | deactivate => exact .guard_true h hd fun _ => keeps_deliver h hd rfl rfl nofun
  | surroundingText text cursor => exact .guard_true h hd fun _ => keeps_deliver h hd rfl rfl id
  | contentType hint purpose => exact .guard_true h hd fun _ => keeps_deliver h hd rfl rfl id
  | done env => exact .guard h hd fun _ => ⟨kept_done env h, displayed_done env h hd⟩
  | unavailable => exact .guard_true h hd fun _ => keeps_deliver h hd rfl rfl id
  | engineCommit text =>
    exact .guard h hd fun _ => ⟨kept_engineCommit text h, displayed_engineCommit text h hd⟩
  | enginePreedit text charCursor =>
    exact .guard h hd fun _ =>
      ⟨kept_enginePreedit text charCursor h, displayed_enginePreedit text charCursor h hd⟩
  | engineCandidates list =>
    exact .guard_true h hd fun _ => h.keeps_quiet hd (quiet_engineCandidates list s)
  | engineDelete offset count =>
    refine .guard h hd fun _ => (h.keeps hd (effect_engineDelete offset count s)).congr ?_
    exact ⟨fun hno hexposed => hno hexposed.active hexposed, fun hno _ => hno⟩
  | engineReady env engine =>
    exact ⟨kept_bindEngine env engine h, displayed_bindEngine env engine h hd⟩
  | sourcesChanged env => exact ⟨kept_sourcesChanged env h, displayed_sourcesChanged env h hd⟩
  | grabChanged env => exact h.keeps_quiet hd (quiet_updateGrab env s)
  | suggestionsChanged => exact h.keeps_quiet hd (quiet_scheduleSuggestions s)
  | key env k => exact .guard h hd fun _ => keeps_onKey env k h hd
  | answered env => exact .guard_true h hd fun _ => h.keeps_quiet hd (quiet_drainKeys env _ s)
  | held env =>
    have hunset : Quiet s { s with holdTimeout := false } := .of_im rfl rfl rfl rfl rfl
    exact .guard_true h hd fun _ => h.keeps_quiet hd (hunset.then_quiet (quiet_showPopup _ _ _ _))
  | suggest env =>
    have hunset : Quiet s { s with suggestTimeout := false } := .of_im rfl rfl rfl rfl rfl
    exact .guard_true h hd fun _ =>
      h.keeps_quiet hd (hunset.then_quiet (quiet_refreshSuggestions env _))
  | pointer env hit => exact h.keeps hd (effect_onPointer env hit s)
  | applySuggestion env suggestion => exact h.keeps hd (effect_applySuggestion env suggestion s)
  | keepWord env => exact h.keeps_quiet hd (quiet_keepWord env s)
  | commitText text =>
    refine (h.keeps hd (effect_commitText text s)).congr ?_
    exact ⟨fun hno hexposed => hno hexposed.active hexposed, fun hno _ => hno⟩
  | oskSpace env => exact (h.keeps hd (effect_oskSpace env s)).congr and_imp
  | oskBackspace env => exact h.keeps hd (effect_oskBackspace env s)
  | oskOtherKey => exact h.keeps_quiet hd (quiet_forgetCorrection s)
  | startDictation env =>
    exact .of_displayed (startDictation_spec env h hd).1 (startDictation_spec env h hd).2
  | onPartial formatted =>
    exact .of_displayed (onPartial_spec formatted h hd).1 (onPartial_spec formatted h hd).2
  | onSegment formatted =>
    exact .of_displayed (onSegment_spec formatted h hd).1 (onSegment_spec formatted h hd).2
  | endDictation env => exact ⟨(endDictation_spec env h hd).1, (endDictation_spec env h hd).2⟩

/-! ### Runs -/

/-- **The preedit of the engine is displayed** in every state of a run exactly when no text is
entered while the engine composes one, and the engine is heard in time. -/
theorem displayed_iff_regular (events : List Event) :
    (∀ events', events' <+: events → Displayed (run events')) ↔
      Transition.Guarded step Regular {} events :=
  Transition.guarded_iff_forall_prefix (I := Kept) (fun _ e h hd => (displayed_step h hd e).kept)
    (fun _ e h hd => (displayed_step h hd e).displayed_iff) kept_init
      (fun hactive => nomatch hactive)
    events

/-- The engine composes a text, and a letter is chosen on the keyboard on the screen. -/
def letterChosen (env : Env) : List Event :=
  [.start ⟨true, true, true⟩, .engineReady env (some 0), .activate, .done env,
    .enginePreedit [110] 1, .commitText [101]]

/-- No spelling is corrected, and the engine is chosen. -/
def Env.engineOnly : Env where
  spellAutocorrect := false
  spellSuggestions := false
  spellCheckAllApps := false
  pressHoldAccents := false
  screenKeyboardEnabled := true
  ownClient := false
  checkerReady := false
  check _ := true
  suggest _ _ := []
  current := [105]
  engine := true
  isAlpha _ := true
  isUpper _ := false
  toUpper c := c
  up text := text
  down text := text
  variants _ := []

theorem not_displayed : ¬∀ events, Displayed (run events) := by
  intro h
  exact absurd (h (letterChosen .engineOnly) (by decide) (by decide)) (by decide)

end Service

end Ime

end SingularityShell
