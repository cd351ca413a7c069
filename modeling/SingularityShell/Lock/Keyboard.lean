import SingularityShell.Lib.Ascii
import SingularityShell.Lib.Transition

/-!
# The keyboard of the lock screen

The lock screen takes the password from the keys. The compositor may send another keymap at any
time, and a keymap and the state made from it are objects of a library that have to be released. The
text of a key is copied into a buffer of fixed size, which is edited byte by byte.

## Main definitions

* `Lock.Keys.Memory` — the objects of the library, and whether one was used after its release
* `Lock.Keys.Keyboard`, `Lock.Keys.kbKeymap`, `Lock.Keys.kbModifiers`, `Lock.Keys.kbKey` — the
  variables and the handlers
* `Lock.Keys.Field`, `Lock.Keys.Field.step` — a field in which characters are typed
* `Lock.Keys.Sound` — what is meant
* `Lock.Keys.Proper` — the events that the handlers are up to

## Main results

* `Lock.Keys.refines_step` — a proper event does to the field what it does to the buffer
* `Lock.Keys.sound_of_proper` — the headline: so it is in every run of proper events
* `Lock.Keys.not_sound_keymap` — a keymap that cannot be compiled, and a key
-/

namespace SingularityShell

namespace Lock

namespace Keys

open Ascii Transition

/-! ### Objects -/

/-- The objects of the library: their number, those that were released, and whether one of these was
used. -/
structure Memory where
  next : ℕ := 0
  released : List ℕ := []
  misused : Bool := false

def Memory.use (id : ℕ) (m : Memory) : Memory :=
  { m with misused := m.misused || decide (id ∈ m.released) }

/-- `xkb_keymap_unref` and `xkb_state_unref`, for a pointer that is not null. -/
def Memory.unref (pointer : Option ℕ) (m : Memory) : Memory :=
  match pointer with
  | none => m
  | some id => { m.use id with released := id :: m.released }

def Memory.new (m : Memory) : Memory := { m with next := m.next + 1 }

/-! ### The handlers -/

/-- The variables of `lock_main.c` that the keyboard has to do with. -/
structure Keyboard where
  memory : Memory := {}
  xkbKeymap : Option ℕ := none
  xkbState : Option ℕ := none
  password : Text := List.replicate 1024 0
  passwordLen : ℕ := 0
  /-- More bytes of the text of a key were copied than the buffer of the text has of it. -/
  overread : Bool := false
  /-- `anim_phase` is `PHASE_LEAVE`. -/
  leaving : Bool := false
  /-- The passwords that were given to `singularity_pam_authenticate`. -/
  asked : List Text := []

/-- The keys that are told apart. -/
inductive Sym where
  | enter
  | backSpace
  | escape
  | media
  | other
  deriving DecidableEq

inductive Event where
  /-- A keymap of a known format or not, which is mapped, compiled and made a state of or not. -/
  | keymap (format mapped compiled made : Bool)
  | modifiers
  /-- A key that is pressed or released, with its whole text, with the bytes that happen to be
  behind the buffer for the text, and with the answer if a password is given now. -/
  | key (pressed : Bool) (sym : Sym) (text behind : Text) (accepted : Bool)
  /-- The user was authenticated in another way. -/
  | leave

/-- `kb_keymap` -/
def kbKeymap (format mapped compiled made : Bool) (s : Keyboard) : Keyboard :=
  if !format || !mapped then s
  else
    let memory := (s.memory.unref s.xkbKeymap).unref s.xkbState
    if compiled then
      let keymap := memory.next
      let memory := memory.new.use keymap
      if made then
        { s with memory := memory.new, xkbKeymap := some keymap, xkbState := some memory.next }
      else { s with memory, xkbKeymap := some keymap, xkbState := none }
    else { s with memory, xkbKeymap := none }

/-- `kb_modifiers` -/
def kbModifiers (s : Keyboard) : Keyboard :=
  match s.xkbState with
  | none => s
  | some id => { s with memory := s.memory.use id }

/-- `submit_password`, with the answer that is given. -/
def submitPassword (accepted : Bool) (s : Keyboard) : Keyboard :=
  if s.passwordLen = 0 then s
  else
    { s with
      asked := s.asked ++ [(s.password.set s.passwordLen 0).takeWhile (· ≠ 0)]
      password := List.replicate 1024 0
      passwordLen := 0
      leaving := s.leaving || accepted }

/-- The buffer of eight bytes after `xkb_state_key_get_utf8`, and what is behind it. -/
def utf8Buf (text behind : Text) : Text := text.take 7 ++ 0 :: behind

/-- The last lines of `kb_key`. -/
def typeText (text behind : Text) (s : Keyboard) : Keyboard :=
  let buf := utf8Buf text behind
  let n := text.length
  if n > 0 ∧ buf.headD 0 ≥ 0x20 ∧ s.passwordLen + n < 1024 - 1 then
    { s with
      password := s.password.take s.passwordLen ++ buf.take n ++ s.password.drop (s.passwordLen + n)
      passwordLen := s.passwordLen + n
      overread := s.overread || decide (n > 7) }
  else s

/-- `kb_key` behind its first lines, with the state `id` -/
def pressSym (id : ℕ) (sym : Sym) (text behind : Text) (accepted : Bool) (s : Keyboard) :
    Keyboard :=
  let s := { s with memory := s.memory.use id }
  match sym with
  | .enter => submitPassword accepted s
  | .backSpace =>
    if s.passwordLen > 0 then
      { s with passwordLen := s.passwordLen - 1, password := s.password.set (s.passwordLen - 1) 0 }
    else s
  | .escape => { s with passwordLen := 0, password := s.password.set 0 0 }
  | .media => s
  | .other => typeText text behind { s with memory := s.memory.use id }

/-- `kb_key` -/
def kbKey (pressed : Bool) (sym : Sym) (text behind : Text) (accepted : Bool) (s : Keyboard) :
    Keyboard :=
  match s.xkbState with
  | none => s
  | some id => if !pressed || s.leaving then s else pressSym id sym text behind accepted s

def step (s : Keyboard) : Event → Keyboard
  | .keymap format mapped compiled made => kbKeymap format mapped compiled made s
  | .modifiers => kbModifiers s
  | .key pressed sym text behind accepted => kbKey pressed sym text behind accepted s
  | .leave => { s with leaving := true }

/-! ### What is meant -/

/-- A field in which characters are typed. -/
structure Field where
  /-- There is a keymap with a state. -/
  usable : Bool := false
  leaving : Bool := false
  typed : Text := []
  asked : List Text := []
  /-- Nothing was typed since the last escape or submission. -/
  wiped : Bool := true

/-- A byte that continues a character. -/
def continues (b : UInt8) : Bool := 0x80 ≤ b && b < 0xC0

/-- The text without its last character. -/
def dropLastChar (text : Text) : Text := (text.rdropWhile continues).dropLast

/-- A key is pressed. Keys without a printable text do nothing. -/
def Field.press (sym : Sym) (text : Text) (accepted : Bool) (f : Field) : Field :=
  match sym with
  | .enter =>
    if f.typed = [] then f
    else
      { f with
        asked := f.asked ++ [f.typed], typed := [], wiped := true
        leaving := f.leaving || accepted }
  | .backSpace => { f with typed := dropLastChar f.typed }
  | .escape => { f with typed := [], wiped := true }
  | .media => f
  | .other => if 0x20 ≤ text.headD 0 then { f with typed := f.typed ++ text, wiped := false } else f

def Field.step (f : Field) : Event → Field
  | .keymap format mapped compiled made =>
    if !format || !mapped then f else { f with usable := compiled && made }
  | .modifiers => f
  | .key pressed sym text _ accepted =>
    if f.usable && pressed && !f.leaving then f.press sym text accepted else f
  | .leave => { f with leaving := true }

/-- No released object is used, no byte is copied that is not of the text, the buffer has the
length, the passwords are those that were typed, and nothing is left of one after an escape or a
submission. -/
structure Sound (s : Keyboard) (f : Field) : Prop where
  memory : s.memory.misused = false
  copied : s.overread = false
  size : s.password.length = 1024
  length : s.passwordLen < 1024
  asked : s.asked = f.asked
  wiped : f.wiped = true → ∀ b ∈ s.password, b = 0

/-- A keymap can be compiled when there is a state of the last one. A key removes a character of one
byte, or leaves none or one byte to be wiped, or has a text that fits into both buffers. -/
def Proper (s : Keyboard) : Event → Prop
  | .keymap format mapped compiled _ =>
    format = true → mapped = true → compiled = true ∨ s.xkbState = none
  | .key pressed sym text _ _ => s.xkbState ≠ none → pressed = true → s.leaving = false →
    match sym with
    | .backSpace => ∀ b ∈ (s.password.take s.passwordLen).getLast?, continues b = false
    | .escape => s.passwordLen ≤ 1
    | .other => 0x20 ≤ text.headD 0 →
      text.length ≤ 7 ∧ s.passwordLen + text.length < 1023 ∧ 0 ∉ text
    | .enter | .media => True
  | .modifiers | .leave => True

/-! ### Objects in use -/

/-- The pointers are to different objects that were not released, and no object was misused. -/
structure Memory.Valid (m : Memory) (keymap state : Option ℕ) : Prop where
  unused : m.misused = false
  released : ∀ id ∈ m.released, id < m.next
  keymap_live : ∀ id ∈ keymap, id < m.next ∧ id ∉ m.released
  state_live : ∀ id ∈ state, id < m.next ∧ id ∉ m.released
  ne : ∀ id ∈ keymap, id ∉ state

section
variable {m : Memory} {keymap state : Option ℕ}

theorem forall_mem_none {P : ℕ → Prop} : ∀ id ∈ (none : Option ℕ), P id := by
  rintro id ⟨⟩

theorem Memory.use_of_notMem {id : ℕ} (h : id ∉ m.released) :
    m.use id = m := by
  rw [Memory.use, decide_eq_false h, Bool.or_false]

/-- The state is used. -/
theorem Memory.Valid.use {id : ℕ} (h : m.Valid keymap (some id)) : m.use id = m :=
  Memory.use_of_notMem (h.state_live id rfl).2

theorem Memory.Valid.unref_keymap (h : m.Valid keymap state) :
    (m.unref keymap).Valid none state := by
  cases keymap with
  | none => exact ⟨h.unused, h.released, forall_mem_none, h.state_live, forall_mem_none⟩
  | some id =>
    rw [Memory.unref, Memory.use_of_notMem (h.keymap_live id rfl).2]
    refine ⟨h.unused, fun i hi => ?_, forall_mem_none,
      fun i hi => ⟨(h.state_live i hi).1, fun hr => ?_⟩, forall_mem_none⟩
    · rcases List.mem_cons.mp hi with rfl | hi
      · exact (h.keymap_live i rfl).1
      · exact h.released i hi
    · rcases List.mem_cons.mp hr with rfl | hr
      · exact h.ne i rfl hi
      · exact (h.state_live i hi).2 hr

theorem Memory.Valid.unref_state (h : m.Valid none state) : (m.unref state).Valid none none := by
  cases state with
  | none => exact h
  | some id =>
    rw [Memory.unref, h.use]
    refine ⟨h.unused, fun i hi => ?_, forall_mem_none, forall_mem_none, forall_mem_none⟩
    rcases List.mem_cons.mp hi with rfl | hi
    · exact (h.state_live i rfl).1
    · exact h.released i hi

/-- A new keymap, and a state that is made from it. -/
theorem Memory.Valid.new (h : m.Valid none none) (made : Bool) :
    (if made then (m.new.use m.next).new else m.new.use m.next).Valid (some m.next)
      (if made then some m.new.next else none) := by
  have hfresh : m.next ∉ m.released := fun hmem => lt_irrefl _ (h.released _ hmem)
  have hnext : m.next + 1 ∉ m.released := fun hmem => by
    have := h.released _ hmem
    omega
  have huse : m.new.use m.next = m.new := Memory.use_of_notMem hfresh
  have hreleased : ∀ {k}, m.next ≤ k → ∀ id ∈ m.released, id < k := fun hk id hid =>
    (h.released id hid).trans_le hk
  rw [huse]
  cases made with
  | false =>
    refine ⟨h.unused, hreleased (Nat.le_succ _), fun id hid => ?_, forall_mem_none,
      fun _ _ => Option.not_mem_none _⟩
    rw [← Option.some_inj.mp hid]
    exact ⟨Nat.lt_succ_self _, hfresh⟩
  | true =>
    refine ⟨h.unused, hreleased (by exact Nat.le_add_right _ 2), fun id hid => ?_, fun id hid => ?_,
      fun id hid hid' => ?_⟩
    · rw [← Option.some_inj.mp hid]
      exact ⟨Nat.lt_add_of_pos_right (by omega : 0 < 2), hfresh⟩
    · rw [← Option.some_inj.mp hid]
      exact ⟨Nat.lt_succ_self _, hnext⟩
    · have hne := (Option.some_inj.mp hid).trans (Option.some_inj.mp hid').symm
      exact absurd hne (by exact (Nat.lt_succ_self _).ne)

end

/-! ### The buffer -/

/-- The buffer holds a text and zeros behind it. -/
def buffer (text : Text) : Text := text ++ List.replicate (1024 - text.length) 0

section
variable {text : Text}

theorem length_buffer (h : text.length ≤ 1024) : (buffer text).length = 1024 := by
  rw [buffer, List.length_append, List.length_replicate]
  omega

/-- The password is the text, since a zero is behind it. -/
theorem takeWhile_buffer (h : 0 ∉ text) :
    ((buffer text).set text.length 0).takeWhile (· ≠ 0) = text := by
  have hne : ∀ b ∈ text, decide (b ≠ 0) = true := fun b hb =>
    decide_eq_true fun h0 => h (h0 ▸ hb)
  rw [buffer, List.set_append_right _ _ (le_refl _), Nat.sub_self]
  cases hrest : List.replicate (1024 - text.length) (0 : UInt8) with
  | nil => rw [List.set_nil, List.append_nil, List.takeWhile_eq_self_iff.mpr hne]
  | cons b rest =>
    rw [List.set_cons_zero, List.takeWhile_append_of_pos hne,
      List.takeWhile_cons_of_neg (by decide), List.append_nil]

/-- A text is copied behind the text. -/
theorem buffer_append (more : Text) (h : text.length + more.length ≤ 1024) :
    (buffer text).take text.length ++ more ++ (buffer text).drop (text.length + more.length) =
      buffer (text ++ more) := by
  rw [buffer, List.take_left, List.drop_append, List.drop_eq_nil_of_le (Nat.le_add_right _ _),
    List.nil_append, List.drop_replicate, buffer, List.length_append]
  congr 2
  omega

/-- The last byte is replaced by a zero. -/
theorem buffer_dropLast (b : UInt8) (h : text.length < 1024) :
    (buffer (text ++ [b])).set text.length 0 = buffer text := by
  rw [buffer, List.append_assoc, List.set_append_right _ _ (le_refl _), Nat.sub_self,
    List.singleton_append, List.set_cons_zero, buffer, List.length_append, List.length_singleton,
    ← List.replicate_succ]
  congr 2
  omega

theorem take_buffer : (buffer text).take text.length = text := List.take_left

end

/-- The last byte is a character when it does not continue one. -/
theorem dropLastChar_concat {text : Text} {b : UInt8} (h : continues b = false) :
    dropLastChar (text ++ [b]) = text := by
  rw [dropLastChar, List.rdropWhile_concat_neg _ _ _ (by simpa using h), List.dropLast_concat]

/-! ### Steps -/

/-- The variables are those of the field. -/
structure Refines (s : Keyboard) (f : Field) : Prop where
  memory : s.memory.Valid s.xkbKeymap s.xkbState
  copied : s.overread = false
  password : s.password = buffer f.typed
  length_eq : s.passwordLen = f.typed.length
  length_lt : f.typed.length < 1023
  nonzero : 0 ∉ f.typed
  asked : s.asked = f.asked
  leaving : s.leaving = f.leaving
  usable : f.usable = s.xkbState.isSome
  wiped : f.wiped = true → f.typed = []

section
variable {s : Keyboard} {f : Field} (h : Refines s f)
include h

theorem Refines.sound : Sound s f where
  memory := h.memory.unused
  copied := h.copied
  size := by rw [h.password, length_buffer (by have := h.length_lt; omega)]
  length := by rw [h.length_eq]; have := h.length_lt; omega
  asked := h.asked
  wiped := by
    intro hwiped b hb
    rw [h.password, h.wiped hwiped, buffer, List.nil_append] at hb
    exact List.eq_of_mem_replicate hb

/-- A keymap replaces the last one. -/
theorem Refines.keymap {format mapped compiled made : Bool}
    (hok : Proper s (.keymap format mapped compiled made)) :
    Refines (step s (.keymap format mapped compiled made))
      (f.step (.keymap format mapped compiled made)) := by
  rw [step, kbKeymap, Field.step]
  by_cases hsent : (!format || !mapped) = true
  · rw [if_pos hsent, if_pos hsent]
    exact h
  rw [if_neg hsent, if_neg hsent]
  have hvalid := h.memory.unref_keymap.unref_state
  cases compiled with
  | true =>
    have hnew := hvalid.new made
    cases made with
    | true => exact { h with memory := hnew, usable := rfl }
    | false => exact { h with memory := hnew, usable := rfl }
  | false =>
    rw [Bool.or_eq_true, not_or, Bool.not_eq_true', Bool.not_eq_true', Bool.not_eq_false,
      Bool.not_eq_false] at hsent
    have hnone : s.xkbState = none := (hok hsent.1 hsent.2).resolve_left Bool.false_ne_true
    refine { h with memory := ?_, usable := ?_ }
    · have hkeymap := h.memory.unref_keymap
      rw [hnone] at hkeymap
      simpa [hnone, Memory.unref] using hkeymap
    · simp [hnone]

/-- A password is submitted. -/
theorem Refines.submit (accepted : Bool) :
    Refines (submitPassword accepted s) (f.press .enter [] accepted) := by
  rw [submitPassword, Field.press]
  by_cases hnil : f.typed = []
  · rw [if_pos hnil, if_pos (by rw [h.length_eq, hnil]; rfl)]
    exact h
  · rw [if_neg hnil, if_neg fun h0 => hnil (List.length_eq_zero_iff.mp (h.length_eq ▸ h0))]
    refine ⟨h.memory, h.copied, rfl, rfl, Nat.zero_lt_succ _, List.not_mem_nil, ?_, ?_, h.usable,
      fun _ => rfl⟩
    · dsimp only
      rw [h.asked, h.password, h.length_eq, takeWhile_buffer h.nonzero]
    · dsimp only
      rw [h.leaving]

/-- The last character is removed. -/
theorem Refines.backSpace
    (hok : ∀ b ∈ (s.password.take s.passwordLen).getLast?, continues b = false) :
    Refines (if s.passwordLen > 0 then
        { s with
          passwordLen := s.passwordLen - 1, password := s.password.set (s.passwordLen - 1) 0 }
      else s) { f with typed := dropLastChar f.typed } := by
  have hlength := h.length_lt
  rw [h.password, h.length_eq, take_buffer] at hok
  rcases List.eq_nil_or_concat' f.typed with hnil | ⟨text, b, hconcat⟩
  · rw [if_neg (by rw [h.length_eq, hnil]; exact lt_irrefl 0)]
    have hdrop : dropLastChar f.typed = f.typed := by
      rw [hnil]
      rfl
    rw [hdrop]
    exact h
  · rw [hconcat, List.getLast?_concat] at hok
    have hnonzero : 0 ∉ text := fun h0 =>
      h.nonzero (by rw [hconcat]; exact List.mem_append_left _ h0)
    have hsize : f.typed.length = text.length + 1 := by
      rw [hconcat, List.length_append, List.length_singleton]
    rw [if_pos (by rw [h.length_eq, hsize]; exact Nat.succ_pos _), hconcat,
      dropLastChar_concat (hok b rfl)]
    refine ⟨h.memory, h.copied, ?_, ?_, ?_, hnonzero, h.asked, h.leaving, h.usable, fun hw => ?_⟩
    · dsimp only
      rw [h.length_eq, hsize, h.password, hconcat, Nat.add_sub_cancel, buffer_dropLast b (by omega)]
    · dsimp only
      rw [h.length_eq, hsize, Nat.add_sub_cancel]
    · dsimp only
      omega
    · have hnil := h.wiped hw
      rw [hconcat] at hnil
      exact absurd hnil (List.append_ne_nil_of_right_ne_nil _ (List.cons_ne_nil _ _))

/-- What was typed is wiped. -/
theorem Refines.escape (hok : s.passwordLen ≤ 1) :
    Refines { s with passwordLen := 0, password := s.password.set 0 0 }
      { f with typed := [], wiped := true } := by
  have hpassword : s.password.set 0 0 = buffer [] := by
    rw [h.length_eq] at hok
    rcases List.eq_nil_or_concat' f.typed with hnil | ⟨text, b, hconcat⟩
    · rw [h.password, hnil]
      decide +kernel
    · rw [hconcat, List.length_append, List.length_singleton] at hok
      have htext : text = [] := List.length_eq_zero_iff.mp (by omega)
      rw [h.password, hconcat, htext]
      have hdrop : (buffer ([] ++ [b])).set 0 0 = buffer [] := buffer_dropLast b (by decide)
      exact hdrop
  exact ⟨h.memory, h.copied, hpassword, rfl, Nat.zero_lt_succ _, List.not_mem_nil, h.asked,
    h.leaving, h.usable, fun _ => rfl⟩

/-- The text of a key is typed. -/
theorem Refines.typeText {text : Text} (behind : Text) (hok : 0x20 ≤ text.headD 0 →
      text.length ≤ 7 ∧ s.passwordLen + text.length < 1023 ∧ 0 ∉ text) :
    Refines (typeText text behind s) (f.press .other text false) := by
  have hhead : text ≠ [] → (utf8Buf text behind).headD 0 = text.headD 0 := by
    cases text with
    | nil => exact fun h => absurd rfl h
    | cons b text => exact fun _ => rfl
  rw [Keys.typeText, Field.press]
  by_cases hprint : 0x20 ≤ text.headD 0
  · obtain ⟨hfit, hroom, hnonzero⟩ := hok hprint
    have hne : text ≠ [] := by
      rintro rfl
      exact absurd hprint (by decide)
    have hpos := List.length_pos_of_ne_nil hne
    have htake : (utf8Buf text behind).take text.length = text := by
      rw [utf8Buf, List.take_of_length_le hfit, List.take_left]
    rw [if_pos hprint, if_pos ⟨hpos, by rw [hhead hne]; exact hprint, hroom⟩, htake]
    rw [h.length_eq] at hroom ⊢
    refine ⟨h.memory, ?_, ?_, ?_, ?_, ?_, h.asked, h.leaving, h.usable, fun hw => ?_⟩
    · dsimp only
      rw [h.copied, decide_eq_false (by omega)]
      rfl
    · dsimp only
      rw [h.password, buffer_append text (by omega)]
    · exact (List.length_append).symm
    · dsimp only
      rw [List.length_append]
      exact hroom
    · dsimp only
      rw [List.mem_append, not_or]
      exact ⟨h.nonzero, hnonzero⟩
    · exact absurd hw Bool.false_ne_true
  · rw [if_neg hprint, if_neg]
    · exact h
    · rintro ⟨hpos, hge, -⟩
      exact hprint (hhead (List.ne_nil_of_length_pos hpos) ▸ hge)

/-- A key is pressed while there is a state. -/
theorem Refines.key {pressed : Bool} {sym : Sym} {text behind : Text} {accepted : Bool}
    (hok : Proper s (.key pressed sym text behind accepted)) :
    Refines (step s (.key pressed sym text behind accepted))
      (f.step (.key pressed sym text behind accepted)) := by
  rw [step, kbKey, Field.step, h.usable, ← h.leaving]
  cases hstate : s.xkbState with
  | none => exact h
  | some id =>
    by_cases hactive : (!pressed || s.leaving) = true
    · have hinactive : (true && pressed && !s.leaving) = false := by
        cases pressed <;> cases hl : s.leaving <;> simp_all
      dsimp only
      rw [if_pos hactive, Option.isSome_some, hinactive]
      exact h
    · obtain ⟨hpressed, hleaving⟩ : pressed = true ∧ s.leaving = false := by
        cases pressed <;> cases hl : s.leaving <;> simp_all
      have hactive' : (true && pressed && !s.leaving) = true := by
        rw [hpressed, hleaving]
        rfl
      have hmemory := h.memory
      rw [hstate] at hmemory
      have huse : { s with memory := s.memory.use id } = s := by
        rw [hmemory.use]
      have hnone : s.xkbState ≠ none := by
        rw [hstate]
        exact Option.some_ne_none _
      have hsym := hok hnone hpressed hleaving
      dsimp only
      rw [if_neg hactive, Option.isSome_some, if_pos hactive']
      cases sym with
      | enter =>
        rw [pressSym, huse]
        exact h.submit accepted
      | backSpace =>
        rw [pressSym, huse]
        exact h.backSpace hsym
      | escape =>
        rw [pressSym, huse]
        exact h.escape hsym
      | media =>
        rw [pressSym, huse]
        exact h
      | other =>
        rw [pressSym, huse, huse]
        exact h.typeText behind hsym

/-- **A proper event does to the field what it does to the buffer.** -/
theorem refines_step {e : Event} (hok : Proper s e) : Refines (step s e) (f.step e) := by
  cases e with
  | keymap format mapped compiled made => exact h.keymap hok
  | modifiers =>
    have hsame : kbModifiers s = s := by
      rw [kbModifiers]
      split
      · rfl
      · rename_i id hstate
        have hmemory := h.memory
        rw [hstate] at hmemory
        rw [hmemory.use]
    rw [step, hsame]
    exact h
  | key pressed sym text behind accepted => exact h.key hok
  | leave => exact { h with leaving := rfl }

end

/-! ### Runs -/

theorem refines_init : Refines {} {} where
  memory := ⟨rfl, fun _ h => absurd h List.not_mem_nil, forall_mem_none, forall_mem_none,
    forall_mem_none⟩
  copied := rfl
  password := rfl
  length_eq := rfl
  length_lt := by decide
  nonzero := List.not_mem_nil
  asked := rfl
  leaving := rfl
  usable := rfl
  wiped := fun _ => rfl

/-- What one event preserves, a run preserves. -/
theorem refines_run {s : Keyboard} {f : Field} (h : Refines s f) {events : List Event}
    (hok : Guarded step Proper s events) :
    Refines (run step s events) (run Field.step f events) := by
  induction events generalizing s f with
  | nil => exact h
  | cons e events ih => exact ih (refines_step h hok.1) hok.2

/-- **Every run of proper events is sound**: in every state that it reaches, no released object was
used, nothing was copied that is not of a text, the password has room, the passwords that were given
are those that were typed, and nothing is left of a password after an escape or a submission. -/
theorem sound_of_proper {events : List Event} (hok : Guarded step Proper {} events) :
    ∀ reached, reached <+: events → Sound (run step {} reached) (run Field.step {} reached) := by
  rintro reached ⟨rest, rfl⟩
  exact (refines_run refines_init ((guarded_append _ _ _).mp hok).1).sound

/-- A letter, an umlaut, which the password is submitted with, and a letter that is wiped. -/
def goodEvents : List Event :=
  [.keymap true true true true, .key true .other [104] [] false,
    .key true .other [0xc3, 0xbc] [] false, .key true .enter [13] [] false,
    .key true .other [97] [] false, .key true .escape [27] [] false]

theorem sound_of_proper_goodEvents :
    (run step {} goodEvents).asked = [[104, 0xc3, 0xbc]] ∧
      ∀ b ∈ (run step {} goodEvents).password, b = 0 := by
  have hok : Guarded step Proper {} goodEvents := by
    refine ⟨fun _ _ => Or.inl rfl, fun _ _ _ _ => ?_, fun _ _ _ _ => ?_, fun _ _ _ => trivial,
      fun _ _ _ _ => ?_, fun _ _ _ => ?_, trivial⟩
    · exact ⟨by decide, by decide, by decide⟩
    · exact ⟨by decide, by decide, by decide⟩
    · exact ⟨by decide, by decide +kernel, by decide⟩
    · exact (by decide +kernel : (run step {} (goodEvents.take 5)).passwordLen ≤ 1)
  have hsound := sound_of_proper hok goodEvents (List.prefix_refl _)
  exact ⟨hsound.asked.trans (by decide), hsound.wiped (by decide)⟩

/-- A keymap with a state, one that cannot be compiled, and a key. -/
def badKeymap : List Event :=
  [.keymap true true true true, .keymap true true false false, .key true .other [97] [] false]

/-- The key uses the state that was released. -/
theorem not_sound_keymap :
    ¬ Sound (run step {} badKeymap) (run Field.step {} badKeymap) := by
  intro h
  exact absurd h.memory (by decide +kernel)

end Keys

end Lock

end SingularityShell
