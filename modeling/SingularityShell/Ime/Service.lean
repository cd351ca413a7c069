import Mathlib.Data.List.SplitBy
import SingularityShell.Ime.Protocol
import SingularityShell.Lib.Machine

/-!
# The input method service

The service stands between an input engine and the text field of a client. The engine composes a
text that the client shows before it is entered, the preedit; the spelling correction, the accents,
the keyboard on the screen and the dictation enter texts of their own. All of them go through the
two functions of `ime.c` that send requests and commit them. What the client shows is kept along
with the state of the service, as the requests that were sent to it have it.

## Main definitions

* `Ime.Service.Client` — the preedit of the client, which a commit replaces
* `Ime.Service.State` — the fields of the service, and the preview of the dictation
* `Ime.Service.step` — the events
-/

namespace SingularityShell

namespace Ime

namespace Service

open Ascii Machine

/-! ### The client -/

/-- What a client shows, and the preedit string that was set since the last commit. -/
structure Client where
  pending : Option Text := none
  preedit : Text := []

def Client.receive (c : Client) : Protocol.Request → Client
  | .setPreedit text _ _ => { c with pending := some text }
  | .commit _ => { preedit := c.pending.getD [] }
  | _ => c

/-! ### Texts -/

/-- The characters of a text in UTF-8: one starts at each byte that does not continue one. -/
def characters (text : Text) : List Text := text.splitBy fun _ b => 128 ≤ b ∧ b < 192

/-- `char_count` -/
def charCount (text : Text) : ℕ := (characters text).length

/-- `index_of_nth_char` -/
def indexOfNthChar (n : ℕ) (text : Text) : ℕ := ((characters text).take n).flatten.length

/-- `get_char` -/
def getChar (text : Text) : Text := (characters text).headD []

/-! ### The state -/

/-- The settings, the sources of input and the spell checker, at the time of an event. -/
structure Env where
  spellAutocorrect : Bool
  spellSuggestions : Bool
  spellCheckAllApps : Bool
  pressHoldAccents : Bool
  screenKeyboardEnabled : Bool
  /-- `own_client` -/
  ownClient : Bool
  /-- The checker is enabled and available. -/
  checkerReady : Bool
  check : Text → Bool
  suggest : Text → ℕ → List Text
  /-- The source of input, which is empty when no engine is chosen. -/
  current : Text
  /-- Whether `sources.engine` is set. -/
  engine : Bool
  isAlpha : Text → Bool
  isUpper : Text → Bool
  /-- `toupper` of a character, `up` and `down` of a text. -/
  toUpper : Text → Text
  up : Text → Text
  down : Text → Text
  /-- `AccentTable.variants` -/
  variants : Text → List Text

structure Key where
  key : ℕ
  keysym : ℕ
  text : Text
  pressed : Bool
  modifiers : ℕ

structure State where
  /-- The statics of `ime.c`. -/
  im : Protocol.State := {}
  client : Client := {}
  active : Bool := false
  captureEscape : Bool := false
  dictating : Bool := false
  hasSurrounding : Bool := false
  typedWord : Text := []
  surrounding : Text := []
  cursor : ℕ := 0
  purpose : UInt32 := 0
  hint : UInt32 := 0
  rejected : List Text := []
  correctedFrom : Option Text := none
  correctedTo : Option Text := none
  holdKey : ℕ := 0
  holdText : Text := []
  holdTimeout : Bool := false
  suggestTimeout : Bool := false
  popupItems : List Text := []
  popupAccents : Bool := false
  popupSelected : ℤ := -1
  /-- Whether `engine_candidates` is set. -/
  engineCandidates : Bool := false
  enginePreedit : Text := []
  keyQueue : List Key := []
  draining : Bool := false
  boundEngine : Option ℕ := none
  /-- `preview` of the dictation, which runs while `dictating`. -/
  preview : Text := []

/-- The preedit that the client shows. -/
def State.shown (s : State) : Text := s.client.preedit

/-- A call of `ime.c` is made, and the client receives what it sends. -/
def deliver (im : Protocol.State) (s : State) : State :=
  { s with
    im
    client := (im.sent.drop s.im.sent.length).foldl (fun c m => c.receive m.request) s.client }

/-- `ime_preedit` -/
def imePreedit (text : Text) (cursorBegin cursorEnd : ℤ) (s : State) : State :=
  deliver (Protocol.preedit text cursorBegin cursorEnd s.im) s

/-- `ime_replace` -/
def imeReplace (before after : UInt32) (text : Text) (s : State) : State :=
  deliver (Protocol.replace before after text s.im) s

/-! ### Contexts and the grab -/

/-- `HINT_PRIVATE` -/
def hintPrivate : UInt32 := 0x40 ||| 0x80

/-- `engine_context` -/
def engineContext (env : Env) (s : State) : Bool :=
  s.active && env.current ≠ [] && env.engine && s.hint &&& hintPrivate = 0 &&
    (s.purpose ≤ 1 || s.purpose = 5 || s.purpose = 6 || s.purpose = 7 || s.purpose = 13)

/-- `spell_context` -/
def spellContext (env : Env) (s : State) : Bool :=
  s.active && (s.purpose = 0 || s.purpose = 1) && s.hint &&& hintPrivate = 0 &&
    env.spellCheckAllApps && !engineContext env s && !env.ownClient && env.checkerReady

/-- `accent_context` -/
def accentContext (s : State) : Bool :=
  s.active && (s.purpose ≤ 1 || s.purpose = 5 || s.purpose = 6 || s.purpose = 7) &&
    s.hint &&& hintPrivate = 0

/-- `update_grab` -/
def updateGrab (env : Env) (s : State) : State :=
  let grab :=
    (env.spellAutocorrect && spellContext env s) || (!s.hasSurrounding && spellContext env s) ||
      (env.pressHoldAccents && accentContext s && !engineContext env s) || engineContext env s ||
      (s.captureEscape && s.active) || (s.popupItems ≠ [] && !s.popupAccents)
  deliver (Protocol.setGrab grab s.im) s

/-! ### The popup and the timers -/

/-- `cancel_hold` -/
def cancelHold (s : State) : State := { s with holdTimeout := false, holdKey := 0 }

/-- `close_popup` -/
def closePopup (s : State) : State :=
  { s with popupItems := [], popupAccents := false, popupSelected := -1 }

/-- `show_popup` -/
def showPopup (items : List Text) (accents : Bool) (selected : ℤ) (s : State) : State :=
  if s.dictating then s
  else { s with popupItems := items, popupAccents := accents, popupSelected := selected }

/-- `schedule_suggestions` -/
def scheduleSuggestions (s : State) : State := { s with suggestTimeout := true }

/-! ### The engine -/

/-- `on_engine_commit` -/
def onEngineCommit (text : Text) (s : State) : State :=
  let s := { s with enginePreedit := [] }
  if s.active && text ≠ [] then imeReplace 0 0 text s else s

/-- `on_engine_preedit` -/
def onEnginePreedit (text : Text) (charCursor : ℤ) (s : State) : State :=
  let s := { s with enginePreedit := text }
  if !s.active then s
  else
    let clamped := max 0 (min charCursor (charCount text))
    let byteCursor : ℤ := indexOfNthChar clamped.toNat text
    imePreedit text byteCursor byteCursor s

/-- `on_engine_candidates` -/
def onEngineCandidates (list : Bool) (s : State) : State :=
  let s := { s with engineCandidates := list }
  if s.dictating then s
  else if !list || !s.active then s
  else { s with popupItems := [], popupAccents := false }

/-- `before_cursor` -/
def beforeCursor (s : State) : Text := s.surrounding.take s.cursor

/-- `delete_before` of `on_engine_delete` -/
def deleteBefore (offset : ℤ) (s : State) : UInt32 :=
  let before := beforeCursor s
  let beforeChars : ℤ := charCount before
  let start := max 0 (wrap32 (beforeChars + offset))
  .ofNat (before.length - indexOfNthChar (min start beforeChars).toNat before)

/-- `delete_after` of `on_engine_delete` -/
def deleteAfter (offset count : ℤ) (s : State) : UInt32 :=
  let after := s.surrounding.drop s.cursor
  let beforeChars : ℤ := charCount (beforeCursor s)
  let endChars := wrap32 (wrap32 (beforeChars + offset) + wrap32 count)
  if endChars > beforeChars then
    .ofNat (indexOfNthChar (min (endChars - beforeChars) (charCount after)).toNat after)
  else 0

/-- `on_engine_delete`, `offset` being an `int` and `count` a `uint`. -/
def onEngineDelete (offset count : ℤ) (s : State) : State :=
  if !s.active then s
  else imeReplace (deleteBefore offset s) (deleteAfter offset count s) [] s

/-- `clear_engine_ui` -/
def clearEngineUi (s : State) : State := { s with engineCandidates := false, enginePreedit := [] }

/-- `bind_engine` -/
def bindEngine (env : Env) (engine : Option ℕ) (s : State) : State :=
  if engine = s.boundEngine then updateGrab env s
  else updateGrab env (clearEngineUi { s with boundEngine := engine })

/-- `sources.changed` -/
def onSourcesChanged (env : Env) (s : State) : State :=
  updateGrab env (if env.current = [] then clearEngineUi s else s)

/-! ### The text field -/

/-- `on_state` -/
def onState (env : Env) (isActive : Bool) (text : Text) (textCursor : ℕ) (purpose hint : UInt32)
    (s : State) : State :=
  let wasActive := s.active
  let s := if isActive && !wasActive then { s with hasSurrounding := false, typedWord := [] } else s
  let s :=
    if isActive && text ≠ [] && !s.hasSurrounding then { s with hasSurrounding := true } else s
  let s := updateGrab env { s with
    active := isActive
    surrounding := text
    cursor := min textCursor text.length
    purpose
    hint }
  let s := if s.boundEngine.isSome && !isActive && wasActive then clearEngineUi s else s
  if !isActive then { closePopup (cancelHold s) with correctedFrom := none, correctedTo := none }
  else scheduleSuggestions s

/-- `im_done`, which calls `on_state`. -/
def onDone (env : Env) (s : State) : State :=
  let s := deliver (Protocol.imDone s.im) s
  let current := s.im.current
  onState env current.active (current.surrounding.getD []) current.cursor.toNat current.purpose
    current.hint s

/-! ### Words -/

/-- Leading apostrophes are no part of a word. -/
def trimApostrophes (word : Text) : Text := word.dropWhile (· = 39)

/-- `word_before_cursor` -/
def wordBeforeCursor (env : Env) (s : State) : Text :=
  if !s.hasSurrounding then trimApostrophes s.typedWord
  else
    let inWord := fun c => env.isAlpha c || c = [39]
    let word := ((characters (beforeCursor s)).rtakeWhile inWord).flatten
    if s.cursor < s.surrounding.length ∧ env.isAlpha (getChar (s.surrounding.drop s.cursor)) then []
    else trimApostrophes word

/-- `match_case` -/
def matchCase (env : Env) (word suggestion : Text) : Text :=
  if charCount word > 1 ∧ word = env.up word then env.up suggestion
  else if env.isUpper (getChar word) ∧ suggestion ≠ [] then
    env.toUpper (getChar suggestion) ++ suggestion.drop (getChar suggestion).length
  else suggestion

/-- `corrections` -/
def corrections (env : Env) (word : Text) (s : State) : List Text :=
  if !spellContext env s || charCount word < 2 then []
  else if env.down word ∈ s.rejected || env.check word then []
  else
    (env.suggest word 3).foldl (fun result suggestion =>
      let candidate := matchCase env word suggestion
      if candidate ≠ word ∧ candidate ∉ result then result ++ [candidate] else result) []

/-- `track_typed` -/
def trackTyped (env : Env) (keysym : ℕ) (text : Text) (s : State) : State :=
  if s.hasSurrounding then { s with typedWord := [] }
  else
    let typedWord :=
      if keysym = 0xff08 then
        s.typedWord.take (indexOfNthChar (charCount s.typedWord - 1) s.typedWord)
      else if charCount text = 1 ∧ (env.isAlpha text ∨ text = [39]) then s.typedWord ++ text
      else if keysym ≠ 0xffe1 ∧ keysym ≠ 0xffe2 ∧ keysym ≠ 0xfe03 then []
      else s.typedWord
    scheduleSuggestions { s with typedWord }

/-- `refresh_suggestions` -/
def refreshSuggestions (env : Env) (s : State) : State :=
  if s.popupAccents || s.dictating || s.engineCandidates then s
  else
    let items := corrections env (if s.active then wordBeforeCursor env s else []) s
    let floating := env.spellSuggestions && !env.screenKeyboardEnabled
    updateGrab env
      (if floating && items ≠ [] then
        showPopup items false (if env.spellAutocorrect then 0 else -1) s
      else closePopup s)

/-! ### Texts that are entered -/

/-- `apply_suggestion`. Where the surrounding text is not known, the word is deleted with keys. -/
def applySuggestion (env : Env) (suggestion : Text) (s : State) : State :=
  let word := wordBeforeCursor env s
  if !s.active || word = [] then s
  else
    let s :=
      if s.hasSurrounding then imeReplace (.ofNat word.length) 0 suggestion s
      else imeReplace 0 0 suggestion s
    closePopup { s with typedWord := [] }

/-- `keep_word` -/
def keepWord (env : Env) (s : State) : State :=
  let word := wordBeforeCursor env s
  closePopup (if word ≠ [] then { s with rejected := env.down word :: s.rejected } else s)

/-- `commit_text` -/
def commitText (text : Text) (s : State) : State := if !s.active then s else imeReplace 0 0 text s

/-- `replace_previous` -/
def replacePrevious (previous text : Text) (s : State) : State :=
  if !s.active || !previous.isSuffixOf (beforeCursor s) then s
  else imeReplace (.ofNat previous.length) 0 text s

/-- `choose_accent` -/
def chooseAccent (index : ℤ) (s : State) : State :=
  if index < 0 then s
  else
    match s.popupItems[index.toNat]? with
    | none => s
    | some choice => replacePrevious s.holdText choice (closePopup s)

/-- `autocorrect` -/
def autocorrect (env : Env) (s : State) : Bool × State :=
  let word := wordBeforeCursor env s
  match corrections env word s with
  | [] => (false, s)
  | item :: _ =>
    let s := imeReplace (.ofNat word.length) 0 (item ++ [32]) s
    (true, closePopup { s with correctedFrom := some word, correctedTo := some item })

/-- `revert` -/
def revert (env : Env) (correctedFrom correctedTo : Text) (s : State) : Bool × State :=
  let applied := correctedTo ++ [32]
  if !applied.isSuffixOf (beforeCursor s) then (false, s)
  else
    let s := imeReplace (.ofNat applied.length) 0 correctedFrom s
    (true, { s with rejected := env.down correctedFrom :: s.rejected })

/-- The correction is forgotten, which `osk_other_key` and the others do. -/
def forgetCorrection (s : State) : State := { s with correctedFrom := none, correctedTo := none }

/-- `osk_space` -/
def oskSpace (env : Env) (s : State) : State :=
  let s := forgetCorrection s
  if !env.spellAutocorrect then s else (autocorrect env s).2

/-- The correction that was noted is reverted, if there is one. -/
def revertNoted (env : Env) (noted : Option Text × Option Text) (s : State) : Bool × State :=
  match noted.1 with
  | none => (false, s)
  | some correctedFrom => revert env correctedFrom (noted.2.getD []) s

/-- `osk_backspace` -/
def oskBackspace (env : Env) (s : State) : State :=
  (revertNoted env (s.correctedFrom, s.correctedTo) (forgetCorrection s)).2

/-! ### Dictation -/

/-- `set_preedit` -/
def setPreedit (text : Text) (s : State) : State :=
  if !s.active then s else imePreedit text text.length text.length s

/-- The dictation starts to listen. -/
def startDictation (env : Env) (s : State) : State :=
  if s.dictating then s
  else
    updateGrab env { s with
      preview := []
      dictating := true
      popupItems := []
      popupAccents := false
      captureEscape := true }

/-- `on_partial` -/
def onPartial (formatted : Text) (s : State) : State :=
  if !s.dictating then s else setPreedit formatted { s with preview := formatted }

/-- `on_segment` -/
def onSegment (formatted : Text) (s : State) : State :=
  if !s.dictating then s
  else
    let s := { s with preview := [] }
    if formatted = [] then s else commitText formatted s

/-- `on_finished`, and `cancel`, which ends in the same way. -/
def endDictation (env : Env) (s : State) : State :=
  if !s.dictating then s
  else
    let s := if s.preview ≠ [] then setPreedit [] s else s
    let s := updateGrab env { s with preview := [], captureEscape := false }
    scheduleSuggestions { s with dictating := false }

/-! ### Keys -/

/-- `drain_keys` as far as the next key for the engine, which it then waits for. The keys that it
forwards are left out here. -/
def drainKeys (env : Env) : List Key → State → State
  | [], s => { s with keyQueue := [], draining := false }
  | _ :: queue, s =>
    if env.engine && engineContext env s then { s with keyQueue := queue, draining := true }
    else drainKeys env queue s

/-- `MOD_BLOCKING` -/
def Key.plain (k : Key) : Bool := k.modifiers &&& (0x2 ||| 0x4 ||| 0x8) = 0

/-- What a key does while the accents are shown, when it is for them. -/
def accentKey (k : Key) (s : State) : Option State :=
  if k.keysym = 0xff1b then some (closePopup s)
  else if k.plain ∧ 49 ≤ k.keysym ∧ k.keysym ≤ 57 then some (chooseAccent (k.keysym - 49 : ℕ) s)
  else if k.keysym = 0xff51 ∨ k.keysym = 0xff53 then
    let step : ℤ := if k.keysym = 0xff51 then -1 else 1
    some { s with
      popupSelected := (s.popupSelected + step + s.popupItems.length).tmod s.popupItems.length }
  else if k.keysym = 0xff0d ∨ k.keysym = 0xff8d then some (chooseAccent s.popupSelected s)
  else none

/-- The keys after those of the popup. -/
def typedKey (env : Env) (k : Key) (s : State) : State :=
  let noted := (s.correctedFrom, s.correctedTo)
  let s := forgetCorrection s
  let reverted :=
    if k.plain && k.keysym = 0xff08 then revertNoted env noted s else (false, s)
  let corrected :=
    if k.plain && k.keysym = 0x20 && env.spellAutocorrect then autocorrect env s else (false, s)
  if reverted.1 then reverted.2
  else if corrected.1 then corrected.2
  else if k.keysym = 0xff1b ∧ s.popupItems ≠ [] then keepWord env s
  else if k.plain && env.pressHoldAccents && accentContext s && charCount k.text = 1 &&
      env.variants (getChar k.text) ≠ [] then
    { s with holdKey := k.key, holdText := k.text, holdTimeout := true }
  else s

/-- A key that is pressed, when it goes neither to the dictation nor to the engine. -/
def pressedKey (env : Env) (k : Key) (s : State) : State :=
  let s := if s.holdKey ≠ 0 ∧ k.key ≠ s.holdKey then cancelHold s else s
  if k.plain && k.keysym = 0xff09 && !s.popupAccents && s.popupItems ≠ [] then
    applySuggestion env (s.popupItems.getD s.popupSelected.toNat []) s
  else
    let s := if k.plain then trackTyped env k.keysym k.text s else { s with typedWord := [] }
    if s.popupAccents then
      match accentKey k s with
      | some s => s
      | none => typedKey env k (closePopup s)
    else typedKey env k s

/-- `on_key`. Escape ends the dictation, which runs whenever it captures the key. -/
def onKey (env : Env) (k : Key) (s : State) : State :=
  if s.captureEscape && k.keysym = 0xff1b then if k.pressed then endDictation env s else s
  else if engineContext env s || s.draining then
    let s := { s with keyQueue := s.keyQueue ++ [k] }
    if s.draining then s else drainKeys env s.keyQueue s
  else if !k.pressed then if k.key = s.holdKey then cancelHold s else s
  else pressedKey env k s

/-! ### Events -/

/-- What is hit in the popup. -/
inductive Hit where
  | none
  | dictation
  | previous
  | next
  | item (action : ℕ)

/-- `on_pointer`. The candidates of an engine are its own matter. -/
def onPointer (env : Env) (hit : Hit) (s : State) : State :=
  match hit with
  | .item action =>
    if s.engineCandidates && s.boundEngine.isSome then s
    else
      match s.popupItems[action]? with
      | Option.none => s
      | some item => if s.popupAccents then chooseAccent action s else applySuggestion env item s
  | _ => s

inductive Event where
  /-- `ime_start` -/
  | start (found : Protocol.Found)
  /-- The events of the input method. -/
  | activate
  | deactivate
  | surroundingText (text : Text) (cursor : UInt32)
  | contentType (hint purpose : UInt32)
  | done (env : Env)
  | unavailable
  /-- The signals of the engine that is bound. -/
  | engineCommit (text : Text)
  | enginePreedit (text : Text) (charCursor : ℤ)
  | engineCandidates (list : Bool)
  | engineDelete (offset count : ℤ)
  /-- The signals of the sources of input. -/
  | engineReady (env : Env) (engine : Option ℕ)
  | sourcesChanged (env : Env)
  /-- The settings that the grab depends on, and those that the suggestions do. -/
  | grabChanged (env : Env)
  | suggestionsChanged
  /-- A key, and the answer of the engine to the first of those that wait. -/
  | key (env : Env) (k : Key)
  | answered (env : Env)
  /-- The timers. -/
  | held (env : Env)
  | suggest (env : Env)
  /-- The popup and the keyboard on the screen. -/
  | pointer (env : Env) (hit : Hit)
  | applySuggestion (env : Env) (suggestion : Text)
  | keepWord (env : Env)
  | commitText (text : Text)
  | oskSpace (env : Env)
  | oskBackspace (env : Env)
  | oskOtherKey
  /-- The dictation. -/
  | startDictation (env : Env)
  | onPartial (formatted : Text)
  | onSegment (formatted : Text)
  | endDictation (env : Env)

/-- The events of the input method come while there is one, the signals of an engine while one is
bound, and keys while the keyboard is grabbed. A text field that is entered shows no preedit. -/
def step (s : State) : Event → State
  | .start found => deliver (Protocol.start found s.im) s
  | .activate =>
    if s.im.inputMethod.isSome then { deliver (Protocol.imActivate s.im) s with client :=
      {} } else s
  | .deactivate => if s.im.inputMethod.isSome then deliver (Protocol.imDeactivate s.im) s else s
  | .surroundingText text cursor =>
    if s.im.inputMethod.isSome then deliver (Protocol.imSurroundingText text cursor s.im) s else s
  | .contentType hint purpose =>
    if s.im.inputMethod.isSome then deliver (Protocol.imContentType hint purpose s.im) s else s
  | .done env => if s.im.inputMethod.isSome then onDone env s else s
  | .unavailable => if s.im.inputMethod.isSome then deliver (Protocol.imUnavailable s.im) s else s
  | .engineCommit text => if s.boundEngine.isSome then onEngineCommit text s else s
  | .enginePreedit text charCursor =>
    if s.boundEngine.isSome then onEnginePreedit text charCursor s else s
  | .engineCandidates list => if s.boundEngine.isSome then onEngineCandidates list s else s
  | .engineDelete offset count => if s.boundEngine.isSome then onEngineDelete offset count s else s
  | .engineReady env engine => bindEngine env engine s
  | .sourcesChanged env => onSourcesChanged env s
  | .grabChanged env => updateGrab env s
  | .suggestionsChanged => scheduleSuggestions s
  | .key env k => if s.im.keyboardGrab.isSome then onKey env k s else s
  | .answered env => if s.draining then drainKeys env s.keyQueue s else s
  | .held env =>
    if s.holdTimeout then
      showPopup (env.variants (getChar s.holdText)) true 0 { s with holdTimeout := false }
    else s
  | .suggest env =>
    if s.suggestTimeout then refreshSuggestions env { s with suggestTimeout := false } else s
  | .pointer env hit => onPointer env hit s
  | .applySuggestion env suggestion => applySuggestion env suggestion s
  | .keepWord env => keepWord env s
  | .commitText text => commitText text s
  | .oskSpace env => oskSpace env s
  | .oskBackspace env => oskBackspace env s
  | .oskOtherKey => forgetCorrection s
  | .startDictation env => startDictation env s
  | .onPartial formatted => onPartial formatted s
  | .onSegment formatted => onSegment formatted s
  | .endDictation env => endDictation env s

/-- The state after the events. -/
def run (events : List Event) : State := Transition.run step {} events

end Service

end Ime

end SingularityShell
