import SingularityShell.Ime.Model

/-!
# No stuck key

A key that was forwarded is released when the grab is given up. The list of forwarded keys knows
every key that is down on the forward keyboard, as long as keys are in the list's range, and nothing
is forwarded late.

## Main definitions

* `Ime.NoStuckKey` — without a grab and without waiting keys, no key is down
* `Ime.Tracked` — what the list of forwarded keys knows
* `Ime.Kept` — no step forwards a press late

## Main results

* `Ime.Tracked.step` — every step keeps it that way
* `Ime.noStuckKey_of_kept` — when no press is forwarded late, no key is stuck
-/

namespace SingularityShell

namespace Ime

/-! ### Keys that are down -/

/-- A key is down after what was sent. -/
def down (sent : List Sent) (key : ℕ) : Bool :=
  sent.foldl (fun d x => if x.event.key = key then x.event.pressed else d) false

theorem down_append (sent : List Sent) (x : Sent) (key : ℕ) :
    down (sent ++ [x]) key = if x.event.key = key then x.event.pressed else down sent key := by
  rw [down, List.foldl_append, List.foldl_cons, List.foldl_nil, down]

/-- Every press is followed by a release of the same key. -/
def AllReleased (sent : List Sent) : Prop :=
  ∀ before x after, sent = before ++ x :: after → x.event.pressed = true →
    ∃ y ∈ after, y.event = ⟨x.event.key, false⟩

/-- When no key is down, every press was followed by a release. -/
theorem allReleased_of_down {sent : List Sent} (h : ∀ key, down sent key = false) :
    AllReleased sent := by
  rintro before x after rfl hx
  by_contra hnone
  have hstays : ∀ (after : List Sent), (∀ y ∈ after, y.event ≠ ⟨x.event.key, false⟩) →
      ∀ before, down before x.event.key = true → down (before ++ after) x.event.key = true := by
    intro after
    induction after with
    | nil =>
      intro _ before hdown
      rwa [List.append_nil]
    | cons y after ih =>
      intro hafter before hdown
      rw [← List.singleton_append, ← List.append_assoc]
      refine ih (fun z hz => hafter z (List.mem_cons_of_mem _ hz)) _ ?_
      rw [down_append]
      split_ifs with hkey
      · cases hp : y.event.pressed with
        | true => rfl
        | false =>
          refine absurd ?_ (hafter y List.mem_cons_self)
          rw [← hkey, ← hp]
      · exact hdown
  have hup := hstays after (fun y hy he => hnone ⟨y, hy, he⟩) (before ++ [x])
    (by rw [down_append, if_pos rfl, hx])
  rw [List.append_assoc, List.singleton_append, h] at hup
  exact Bool.false_ne_true hup

/-! ### What the list of forwarded keys knows -/

/-- The keys that wait for an answer, in their order. -/
def State.waiting (s : State) : List PendingKey := s.processing.toList ++ s.keyQueue

/-- Every key that is down is in the list of forwarded keys. -/
structure Known (s : State) : Prop where
  down : ∀ key, down s.sent key = true → s.forwarded key = true
  bound : ∀ key, s.forwarded key = true → key < keyCount
  unset : s.forwardKeymapSet = false → s.sent = []

/-- A step has changed nothing but what was sent and forwarded. -/
def Moved (s s' : State) : Prop := s' = { s with sent := s'.sent, forwarded := s'.forwarded }

theorem Moved.refl (s : State) : Moved s s := rfl

theorem Moved.trans {s s' s'' : State} (h : Moved s s') (h' : Moved s' s'') : Moved s s'' := by
  rw [Moved] at h h' ⊢
  rw [h', h]

section Moved

variable {s s' : State} (h : Moved s s')
include h

theorem Moved.keymap : s'.forwardKeymapSet = s.forwardKeymapSet := by
  rw [Moved] at h
  rw [h]

theorem Moved.grab : s'.keyboardGrab = s.keyboardGrab := by
  rw [Moved] at h
  rw [h]

theorem Moved.queue : s'.keyQueue = s.keyQueue := by
  rw [Moved] at h
  rw [h]

theorem Moved.processing : s'.processing = s.processing := by
  rw [Moved] at h
  rw [h]

theorem Moved.context : s'.engineContext = s.engineContext := by
  rw [Moved] at h
  rw [h]

theorem Moved.depth : s'.keyDepth = s.keyDepth := by
  rw [Moved] at h
  rw [h]

theorem Moved.delivered : s'.delivered = s.delivered := by
  rw [Moved] at h
  rw [h]

end Moved

theorem moved_sendForward (origin : Option ℕ) (e : KeyEvent) (s : State) :
    Moved s (sendForward origin e s) := by
  rw [sendForward]
  split_ifs <;> rfl

theorem moved_setForwarded (e : KeyEvent) (s : State) : Moved s (setForwarded e s) := by
  rw [setForwarded]
  split_ifs <;> rfl

theorem moved_forwardKey (origin : Option ℕ) (e : KeyEvent) (s : State) :
    Moved s (forwardKey origin e s) :=
  (moved_sendForward origin e s).trans (moved_setForwarded e _)

theorem moved_tap (key : ℕ) (s : State) : Moved s (tap key s) :=
  (moved_forwardKey none _ s).trans (moved_forwardKey none _ _)

theorem moved_settle (item : PendingKey) (handled : Bool) (s : State) :
    Moved s (settle item handled s) := by
  rw [settle]
  split_ifs
  · exact .refl s
  · exact moved_forwardKey _ _ s
  · exact moved_forwardKey _ _ s
  · exact .refl s

/-- An event on the forward keyboard that the list of forwarded keys takes note of. -/
theorem Known.forwardKey {s : State} (h : Known s) (origin : Option ℕ) {e : KeyEvent}
    (he : e.key < keyCount) : Known (forwardKey origin e s) := by
  have hforwarded : (Ime.forwardKey origin e s).forwarded =
      Function.update s.forwarded e.key e.pressed := by
    rw [Ime.forwardKey, setForwarded, if_pos he, sendForward]
    split_ifs <;> rfl
  have hsent : (Ime.forwardKey origin e s).sent =
      if s.forwardKeymapSet then s.sent ++ [⟨origin, e⟩] else s.sent := by
    rw [Ime.forwardKey, setForwarded, if_pos he, sendForward]
    split_ifs <;> rfl
  have hset : (Ime.forwardKey origin e s).forwardKeymapSet = s.forwardKeymapSet :=
    (moved_forwardKey origin e s).keymap
  refine ⟨fun key hdown => ?_, fun key hf => ?_, fun hunset => ?_⟩
  · rw [hsent] at hdown
    rw [hforwarded]
    split_ifs at hdown with hk
    · rw [down_append] at hdown
      split_ifs at hdown with hkey
      · rw [← hkey, Function.update_self]
        exact hdown
      · rw [Function.update_of_ne (Ne.symm hkey)]
        exact h.down key hdown
    · rw [h.unset (Bool.eq_false_iff.mpr hk)] at hdown
      cases hdown
  · rw [hforwarded] at hf
    by_cases hkey : key = e.key
    · rwa [hkey]
    · rw [Function.update_of_ne hkey] at hf
      exact h.bound key hf
  · rw [hset] at hunset
    rw [hsent, if_neg (Bool.eq_false_iff.mp hunset)]
    exact h.unset hunset

/-- A key that the shell types is not down after it, whether or not it is in the list's range. -/
theorem Known.tap {s : State} (h : Known s) (key : ℕ) : Known (tap key s) := by
  by_cases hkey : key < keyCount
  · exact (h.forwardKey none (e := ⟨key, true⟩) hkey).forwardKey none (e := ⟨key, false⟩) hkey
  · rw [Ime.tap, Ime.forwardKey, Ime.forwardKey, setForwarded, setForwarded, if_neg hkey,
      if_neg hkey, sendForward, sendForward]
    by_cases hset : s.forwardKeymapSet = true
    · rw [if_pos hset, if_pos hset]
      refine ⟨fun k hdown => ?_, h.bound, fun hunset => absurd hset (Bool.eq_false_iff.mp hunset)⟩
      rw [down_append, down_append] at hdown
      dsimp only at hdown
      split_ifs at hdown
      exact h.down k hdown
    · rw [if_neg hset, if_neg hset]
      exact h

theorem moved_releaseForwardedKey (s : State) (key : ℕ) : Moved s (releaseForwardedKey s key) := by
  rw [releaseForwardedKey]
  split_ifs
  · exact moved_forwardKey none ⟨key, false⟩ s
  · exact .refl s

theorem moved_releaseForwardedKeys (s : State) : Moved s (releaseForwardedKeys s) := by
  rw [releaseForwardedKeys]
  generalize List.range keyCount = keys
  induction keys generalizing s with
  | nil => exact .refl s
  | cons key keys ih => exact (moved_releaseForwardedKey s key).trans (ih _)

/-- Every key in the list of forwarded keys is released. -/
theorem releaseForwardedKeys_spec {s : State} (h : Known s) :
    Known (releaseForwardedKeys s) ∧ ∀ key, (releaseForwardedKeys s).forwarded key = false := by
  have hfold : ∀ keys : List ℕ, (∀ k ∈ keys, k < keyCount) → ∀ s, Known s →
      Known (keys.foldl releaseForwardedKey s) ∧
        ∀ k, (keys.foldl releaseForwardedKey s).forwarded k = true →
          k ∉ keys ∧ s.forwarded k = true := by
    intro keys
    induction keys with
    | nil => exact fun _ s h => ⟨h, fun k hk => ⟨List.not_mem_nil, hk⟩⟩
    | cons key keys ih =>
      intro hkeys s h
      have hkey := hkeys key List.mem_cons_self
      have hstep : Known (releaseForwardedKey s key) ∧
          (releaseForwardedKey s key).forwarded = Function.update s.forwarded key false := by
        rw [releaseForwardedKey]
        split_ifs with hf
        · refine ⟨h.forwardKey none (e := ⟨key, false⟩) hkey, ?_⟩
          rw [setForwarded, if_pos hkey, sendForward]
          split_ifs <;> rfl
        · refine ⟨h, (Function.update_eq_self_iff.mpr ?_).symm⟩
          exact (Bool.eq_false_iff.mpr hf).symm
      obtain ⟨hknown, hforwarded⟩ := hstep
      obtain ⟨hknown', hforwarded'⟩ := ih (fun k hk => hkeys k (List.mem_cons_of_mem _ hk)) _ hknown
      refine ⟨hknown', fun k hk => ?_⟩
      obtain ⟨hnot, hk⟩ := hforwarded' k hk
      rw [hforwarded] at hk
      by_cases hsame : k = key
      · rw [hsame, Function.update_self] at hk
        cases hk
      · rw [Function.update_of_ne hsame] at hk
        exact ⟨fun hmem => (List.mem_cons.mp hmem).elim hsame hnot, hk⟩
  rw [releaseForwardedKeys]
  obtain ⟨hknown, hforwarded⟩ := hfold (List.range keyCount) (fun k hk => List.mem_range.mp hk) s h
  refine ⟨hknown, fun k => Bool.eq_false_iff.mpr fun hk => ?_⟩
  obtain ⟨hnot, hk⟩ := hforwarded k hk
  exact hnot (List.mem_range.mpr (h.bound k hk))

theorem Known.settle {s : State} (h : Known s) {item : PendingKey}
    (hkey : item.event.key < keyCount)
    (handled : Bool) : Known (settle item handled s) := by
  rw [Ime.settle]
  split_ifs
  · exact h
  · exact h.forwardKey _ hkey
  · exact h.forwardKey _ hkey
  · exact h

/-! ### Keys that wait -/

/-- A press in front of the queue is not late: a grab is held, or its release waits, too. -/
def Timely (s : State) (item : PendingKey) (queue : List PendingKey) : Prop :=
  item.event.pressed = true →
    s.keyboardGrab ≠ none ∨ ⟨item.event.key, false⟩ ∈ queue.map PendingKey.event

def AllTimely (s : State) : List PendingKey → Prop
  | [] => True
  | item :: queue => Timely s item queue ∧ AllTimely s queue

theorem AllTimely.moved {s s' : State} {queue : List PendingKey} (h : AllTimely s queue)
    (hmoved : Moved s s') : AllTimely s' queue := by
  induction queue with
  | nil => trivial
  | cons item queue ih =>
    refine ⟨fun hp => ?_, ih h.2⟩
    rw [hmoved.grab]
    exact h.1 hp

/-- Without a grab, every forwarded key has a release among the keys that wait. -/
def Expected (s : State) (waiting : List PendingKey) : Prop :=
  s.keyboardGrab = none → ∀ key, s.forwarded key = true →
    ⟨key, false⟩ ∈ waiting.map PendingKey.event

/-- The key in front is settled. -/
theorem Expected.settle {s : State} {item : PendingKey} {queue : List PendingKey} {handled : Bool}
    (h : Expected s (item :: queue)) (hkey : item.event.key < keyCount)
    (htimely : handled = false → Timely s item queue) : Expected (settle item handled s) queue := by
  intro hgrab key hf
  rw [(moved_settle item handled s).grab] at hgrab
  have hforwarded (e : KeyEvent) (he : e.key < keyCount) (origin : Option ℕ) :
      (forwardKey origin e s).forwarded = Function.update s.forwarded e.key e.pressed := by
    rw [forwardKey, setForwarded, if_pos he, sendForward]
    split_ifs <;> rfl
  have hrest (hne : item.event ≠ ⟨key, false⟩) (hs : s.forwarded key = true) :
      ⟨key, false⟩ ∈ queue.map PendingKey.event := by
    rcases List.mem_cons.mp (h hgrab key hs) with he | he
    · exact absurd he.symm hne
    · exact he
  rw [Ime.settle] at hf
  split_ifs at hf with hp hh hfor
  · exact hrest (fun he => by rw [he] at hp; cases hp) hf
  · rw [hforwarded _ hkey] at hf
    by_cases hsame : key = item.event.key
    · rw [hsame]
      exact (htimely (Bool.eq_false_iff.mpr hh) hp).resolve_left (not_not.mpr hgrab)
    · rw [Function.update_of_ne hsame] at hf
      exact hrest (fun he => hsame (by rw [he])) hf
  · rw [hforwarded _ hkey] at hf
    by_cases hsame : key = item.event.key
    · rw [hsame, Function.update_self] at hf
      exact absurd hf hp
    · rw [Function.update_of_ne hsame] at hf
      exact hrest (fun he => hsame (by rw [he])) hf
  · refine hrest (fun he => hfor ?_) hf
    exact Bool.and_eq_true_iff.mpr ⟨decide_eq_true hkey, by rw [he]; exact hf⟩

/-- The list of forwarded keys, the keys that wait and the grab belong together. -/
structure Tracked (s : State) : Prop where
  known : Known s
  keys : ∀ item ∈ s.waiting, item.event.key < keyCount
  expected : Expected s s.waiting

/-- The loop of `drain_keys`. -/
theorem tracked_drain {queue : List PendingKey} {s : State} (hknown : Known s)
    (hkeys : ∀ item ∈ queue, item.event.key < keyCount) (hexpected : Expected s queue)
    (htimely : s.engineContext = false → AllTimely s queue) : Tracked (drain queue s) := by
  induction queue generalizing s with
  | nil => exact ⟨⟨hknown.down, hknown.bound, hknown.unset⟩, hkeys, hexpected⟩
  | cons item queue ih =>
    rw [drain]
    split_ifs with hcontext
    · exact ⟨⟨hknown.down, hknown.bound, hknown.unset⟩, hkeys, hexpected⟩
    · have hkey := hkeys item List.mem_cons_self
      obtain ⟨hitem, hqueue⟩ := htimely (Bool.eq_false_iff.mpr hcontext)
      exact ih (hknown.settle hkey false) (fun i hi => hkeys i (List.mem_cons_of_mem _ hi))
        (hexpected.settle hkey fun _ => hitem) fun _ => hqueue.moved (moved_settle item false s)

/-- The loop changes the queue, what was sent and what is forwarded. -/
theorem drain_frame (queue : List PendingKey) (s : State) :
    ∃ processing keyQueue sent forwarded,
      drain queue s = { s with processing, keyQueue, sent, forwarded } := by
  induction queue generalizing s with
  | nil => exact ⟨_, _, _, _, rfl⟩
  | cons item queue ih =>
    rw [drain]
    split_ifs
    · exact ⟨_, _, _, _, rfl⟩
    · obtain ⟨processing, keyQueue, sent, forwarded, h⟩ := ih (settle item false s)
      refine ⟨processing, keyQueue, sent, forwarded, ?_⟩
      rw [h, moved_settle item false s]

/-! ### Steps -/

theorem Tracked.updateGrab {s : State} (h : Tracked s) : Tracked (updateGrab s) := by
  obtain ⟨hknown, hforwarded⟩ := releaseForwardedKeys_spec h.known
  have hmoved := moved_releaseForwardedKeys s
  rw [Ime.updateGrab]
  generalize releaseForwardedKeys s = s' at hknown hforwarded hmoved
  dsimp only
  split_ifs
  · exact h
  · exact ⟨⟨h.known.down, h.known.bound, h.known.unset⟩, h.keys, fun hgrab => nomatch hgrab⟩
  · refine ⟨⟨hknown.down, hknown.bound, hknown.unset⟩, ?_, fun _ key hf => ?_⟩
    · have hkeys := h.keys
      rw [State.waiting, ← hmoved.processing, ← hmoved.queue] at hkeys
      exact hkeys
    · exact absurd hf (Bool.eq_false_iff.mp (hforwarded key))
  · exact h

theorem updateGrab_depth (s : State) : (updateGrab s).keyDepth = s.keyDepth := by
  have hmoved := moved_releaseForwardedKeys s
  rw [updateGrab]
  generalize releaseForwardedKeys s = s' at hmoved
  dsimp only
  split_ifs
  · rfl
  · rfl
  · exact hmoved.depth
  · rfl

theorem updateGrab_of_depth {s : State} (h : s.keyDepth ≠ 0) : updateGrab s = s := if_pos h

theorem releaseForwardedKeys_of_none {s : State} (h : ∀ key, s.forwarded key = false) :
    releaseForwardedKeys s = s := by
  rw [releaseForwardedKeys]
  generalize List.range keyCount = keys
  induction keys with
  | nil => rfl
  | cons key keys ih => rw [List.foldl_cons, releaseForwardedKey, if_neg (by rw [h]; decide), ih]

/-- The grab is given up while no key is forwarded. -/
theorem updateGrab_drop {s : State} (hdepth : s.keyDepth = 0)
    (hgrab : (s.wantGrab && s.currentActive && s.inputMethod) = false)
    (hheld : s.keyboardGrab ≠ none)
    (hforwarded : ∀ key, s.forwarded key = false) :
    updateGrab s = { s with keyboardGrab := none } := by
  rw [updateGrab, if_neg (not_not.mpr hdepth)]
  dsimp only
  rw [hgrab, if_neg (fun h => Bool.false_ne_true h.1), if_pos ⟨Bool.false_ne_true, hheld⟩,
    releaseForwardedKeys_of_none hforwarded]

/-- Typing a key forwards no other key. -/
theorem tap_forwarded {s : State} {key k : ℕ} (h : (tap key s).forwarded k = true) :
    s.forwarded k = true := by
  by_cases hkey : key < keyCount
  · have hforwarded : (tap key s).forwarded =
        Function.update (Function.update s.forwarded key true) key false := by
      rw [tap, forwardKey, forwardKey, setForwarded, if_pos hkey, sendForward, setForwarded,
        if_pos hkey, sendForward]
      split_ifs <;> rfl
    rw [hforwarded, Function.update_idem] at h
    by_cases hsame : k = key
    · rw [hsame, Function.update_self] at h
      cases h
    · rwa [Function.update_of_ne hsame] at h
  · rw [tap, forwardKey, forwardKey, setForwarded, if_neg hkey, sendForward, setForwarded,
      if_neg hkey, sendForward] at h
    split_ifs at h <;> exact h

theorem Tracked.call {s : State} (h : Tracked s) (c : Call) : Tracked (call s c) := by
  cases c with
  | setGrab grab =>
    have h' : Tracked { s with wantGrab := grab } :=
      ⟨⟨h.known.down, h.known.bound, h.known.unset⟩, h.keys, h.expected⟩
    exact h'.updateGrab
  | tap key =>
    have hmoved := moved_tap key s
    have hwaiting : (tap key s).waiting = s.waiting := by
      rw [State.waiting, hmoved.processing, hmoved.queue, State.waiting]
    refine ⟨h.known.tap key, ?_, fun hgrab k hf => ?_⟩
    · show ∀ item ∈ (tap key s).waiting, _
      rw [hwaiting]
      exact h.keys
    · show _ ∈ (tap key s).waiting.map _
      rw [hwaiting]
      exact h.expected (hmoved.grab.symm.trans hgrab) k (tap_forwarded hf)

theorem call_depth (s : State) (c : Call) : (call s c).keyDepth = s.keyDepth := by
  cases c with
  | setGrab grab => exact updateGrab_depth _
  | tap key => exact (moved_tap key s).depth

/-- While a key is handled, the shell does not change the grab. -/
theorem call_grab {s : State} (hdepth : s.keyDepth ≠ 0) (c : Call) :
    (call s c).keyboardGrab = s.keyboardGrab := by
  cases c with
  | setGrab grab =>
    have h : updateGrab { s with wantGrab := grab } = { s with wantGrab := grab } :=
      updateGrab_of_depth hdepth
    rw [call, setGrab, h]
  | tap key => exact (moved_tap key s).grab

theorem calls_spec {s : State} (h : Tracked s) (hdepth : s.keyDepth ≠ 0) (calls : List Call) :
    Tracked (calls.foldl call s) ∧ (calls.foldl call s).keyDepth = s.keyDepth ∧
      (calls.foldl call s).keyboardGrab = s.keyboardGrab := by
  induction calls generalizing s with
  | nil => exact ⟨h, rfl, rfl⟩
  | cons c calls ih =>
    obtain ⟨htracked, hdepth', hgrab⟩ := ih (h.call c) (by rwa [call_depth])
    exact ⟨htracked, hdepth'.trans (call_depth s c), hgrab.trans (call_grab hdepth c)⟩

/-- While a grab is held, no release has to wait for anything. -/
theorem expected_of_grab {s : State} (h : s.keyboardGrab ≠ none) (queue : List PendingKey) :
    Expected s queue := fun hnone => absurd hnone h

/-- A key starts to wait while a grab is held. -/
theorem enqueue_spec {s : State} (h : Tracked s) (hgrab : s.keyboardGrab ≠ none) {e : KeyEvent}
    (hkey : e.key < keyCount) (hqueue : (s.engineContext || s.draining) = true) :
    Tracked (enqueue e s) ∧ (enqueue e s).keyDepth = s.keyDepth ∧
      (enqueue e s).keyboardGrab = s.keyboardGrab := by
  have hitem : ∀ item ∈ [(⟨s.delivered.length - 1, e⟩ : PendingKey)], item.event.key < keyCount :=
    fun item hitem => by rwa [List.mem_singleton.mp hitem]
  rw [enqueue]
  split_ifs with hdraining
  · refine ⟨⟨⟨h.known.down, h.known.bound, h.known.unset⟩, ?_, expected_of_grab hgrab _⟩, rfl, rfl⟩
    rw [State.waiting, ← List.append_assoc]
    exact List.forall_mem_append.mpr ⟨h.keys, hitem⟩
  · obtain ⟨processing, keyQueue, sent, forwarded, hframe⟩ :=
      drain_frame (s.keyQueue ++ [⟨s.delivered.length - 1, e⟩]) s
    refine ⟨?_, by rw [hframe], by rw [hframe]⟩
    have hcontext : s.engineContext = true := by
      rw [Bool.eq_false_iff.mpr hdraining, Bool.or_false] at hqueue
      exact hqueue
    refine tracked_drain h.known (List.forall_mem_append.mpr ⟨fun i hi => ?_, hitem⟩)
      (expected_of_grab hgrab _) fun hfalse => ?_
    · exact h.keys i (List.mem_append_right _ hi)
    · rw [hcontext] at hfalse
      cases hfalse

/-- The callback of a key, while a grab is held. -/
theorem onKey_spec {s : State} (h : Tracked s) (hdepth : s.keyDepth ≠ 0)
    (hgrab : s.keyboardGrab ≠ none) {e : KeyEvent} (hkey : e.key < keyCount) (answer : Answer) :
    Tracked (onKey e answer s).2 ∧ (onKey e answer s).2.keyDepth = s.keyDepth ∧
      (onKey e answer s).2.keyboardGrab = s.keyboardGrab := by
  have hcalls := calls_spec h hdepth answer.calls
  rw [onKey]
  by_cases hcaptured : answer.captured = true
  · rw [if_pos hcaptured]
    dsimp only
    split_ifs
    · exact hcalls
    · exact ⟨h, rfl, rfl⟩
  rw [if_neg hcaptured]
  split_ifs with hqueue hpressed
  · exact enqueue_spec h hgrab hkey hqueue
  · exact hcalls
  · exact ⟨h, rfl, rfl⟩

theorem moved_afterKey (e : KeyEvent) (consumed : Bool) (s : State) :
    Moved s (afterKey e consumed s) := by
  have hforward (origin : Option ℕ) : Moved s (setForwarded e (sendForward origin e s)) :=
    moved_forwardKey origin e s
  rw [afterKey]
  split_ifs
  · exact .refl s
  · exact moved_sendForward _ e s
  · exact .refl s
  · exact hforward _
  · exact hforward _
  · exact .refl s

/-- What is sent after the callback, while a grab is held. -/
theorem Tracked.afterKey {s : State} (h : Tracked s) (hgrab : s.keyboardGrab ≠ none) {e : KeyEvent}
    (hkey : e.key < keyCount) (consumed : Bool) : Tracked (afterKey e consumed s) := by
  have hmoved := moved_afterKey e consumed s
  have hknown : Known (Ime.afterKey e consumed s) := by
    have hforward (origin : Option ℕ) : Known (setForwarded e (sendForward origin e s)) :=
      h.known.forwardKey origin hkey
    rw [Ime.afterKey, if_neg (Nat.not_le.mpr hkey)]
    split_ifs
    · exact h.known
    · exact hforward _
    · exact hforward _
    · exact h.known
  refine ⟨hknown, ?_, expected_of_grab (by rwa [hmoved.grab]) _⟩
  rw [State.waiting, hmoved.processing, hmoved.queue]
  exact h.keys

theorem Tracked.grabKey {s : State} (h : Tracked s) (hdepth : s.keyDepth = 0) {grab : ℕ}
    {e : KeyEvent} (hkey : s.keyboardGrab = some grab → e.key < keyCount) (answer : Answer) :
    Tracked (grabKey grab e answer s) ∧ (grabKey grab e answer s).keyDepth = 0 := by
  rw [Ime.grabKey]
  split_ifs with hgrab
  · exact ⟨h, hdepth⟩
  have hgrab := not_not.mp hgrab
  have hkey := hkey hgrab
  dsimp only
  obtain ⟨s', hs'⟩ : ∃ s', s' = { s with
    keyDepth := s.keyDepth + 1, delivered := s.delivered ++ [e] } := ⟨_, rfl⟩
  have hdepth' : s'.keyDepth = 1 := by rw [hs', hdepth]
  have htracked : Tracked s' := by
    rw [hs']
    exact ⟨⟨h.known.down, h.known.bound, h.known.unset⟩, h.keys, h.expected⟩
  have hgrab' : s'.keyboardGrab ≠ none := by
    rw [hs']
    dsimp only
    rw [hgrab]
    exact Option.some_ne_none _
  rw [← hs']
  obtain ⟨honKey, hdepthKey, hgrabKey⟩ := onKey_spec htracked (by omega) hgrab' hkey answer
  have hafter := honKey.afterKey (hgrabKey ▸ hgrab') hkey (onKey e answer s').1
  have hdepthAfter := (moved_afterKey e (onKey e answer s').1 (onKey e answer s').2).depth
  refine ⟨Tracked.updateGrab ⟨⟨hafter.known.down, hafter.known.bound, hafter.known.unset⟩,
    hafter.keys, hafter.expected⟩, ?_⟩
  rw [updateGrab_depth]
  dsimp only
  omega

/-! ### Runs -/

/-- The keyboard has the keys of the list of forwarded keys, and no press is forwarded late. -/
def Kept (s : State) : Event → Prop
  | .key grab e _ => s.keyboardGrab = some grab → e.key < keyCount
  | .reply handled =>
    match s.processing with
    | none => True
    | some item => (handled = false → Timely s item s.keyQueue) ∧
      (s.engineContext = false → AllTimely s s.keyQueue)
  | _ => True

theorem Tracked.reply {s : State} (h : Tracked s) {handled : Bool}
    (hkept : Kept s (.reply handled)) : Tracked (reply handled s) ∧
      (reply handled s).keyDepth = s.keyDepth := by
  rw [Ime.reply]
  rw [Kept] at hkept
  cases hitem : s.processing with
  | none => exact ⟨h, rfl⟩
  | some item =>
    rw [hitem] at hkept
    have hwaiting : s.waiting = item :: s.keyQueue := by rw [State.waiting, hitem]; rfl
    have hkeys := h.keys
    have hexpected := h.expected
    rw [hwaiting] at hkeys hexpected
    have hkey := hkeys item List.mem_cons_self
    have hmoved := moved_settle item handled s
    have hqueue := hmoved.queue
    dsimp only
    obtain ⟨processing, keyQueue, sent, forwarded, hframe⟩ :=
      drain_frame (settle item handled s).keyQueue (settle item handled s)
    refine ⟨?_, by rw [hframe]; exact hmoved.depth⟩
    refine tracked_drain (h.known.settle hkey handled) ?_ ?_ fun hcontext => ?_
    · rw [hqueue]
      exact fun i hi => hkeys i (List.mem_cons_of_mem _ hi)
    · rw [hqueue]
      exact hexpected.settle hkey hkept.1
    · rw [hmoved.context] at hcontext
      rw [hqueue]
      exact (hkept.2 hcontext).moved hmoved

/-- **The step lemma.** -/
theorem tracked_step {s : State} (h : Tracked s ∧ s.keyDepth = 0) {e : Event} (hkept : Kept s e) :
    Tracked (step s e) ∧ (step s e).keyDepth = 0 := by
  obtain ⟨htracked, hdepth⟩ := h
  have hsame : ∀ s' : State, s'.sent = s.sent → s'.forwarded = s.forwarded →
      s'.forwardKeymapSet = s.forwardKeymapSet → s'.waiting = s.waiting →
      s'.keyboardGrab = s.keyboardGrab → Tracked s' := by
    intro s' hsent hforwarded hset hwaiting hgrab
    refine ⟨⟨?_, ?_, ?_⟩, ?_, ?_⟩
    · rw [hsent, hforwarded]
      exact htracked.known.down
    · rw [hforwarded]
      exact htracked.known.bound
    · rw [hsent, hset]
      exact htracked.known.unset
    · rw [hwaiting]
      exact htracked.keys
    · rw [Expected, hwaiting, hgrab, hforwarded]
      exact htracked.expected
  cases e with
  | activate => exact ⟨hsame _ rfl rfl rfl rfl rfl, hdepth⟩
  | deactivate => exact ⟨hsame _ rfl rfl rfl rfl rfl, hdepth⟩
  | done =>
    have hdone : Tracked { s with currentActive := s.pendingActive } := hsame _ rfl rfl rfl rfl rfl
    exact ⟨hdone.updateGrab, (updateGrab_depth _).trans hdepth⟩
  | unavailable => exact ⟨hsame _ rfl rfl rfl rfl rfl, hdepth⟩
  | keymap =>
    exact ⟨⟨⟨htracked.known.down, htracked.known.bound, fun h => nomatch h⟩, htracked.keys,
      htracked.expected⟩, hdepth⟩
  | key grab e answer => exact htracked.grabKey hdepth hkept answer
  | reply handled =>
    obtain ⟨h, hdepth'⟩ := htracked.reply hkept
    exact ⟨h, hdepth'.trans hdepth⟩
  | engineContext available => exact ⟨hsame _ rfl rfl rfl rfl rfl, hdepth⟩
  | call c => exact ⟨htracked.call c, (call_depth s c).trans hdepth⟩

/-- Without a grab, and when nothing waits, no key is down on the forward keyboard. -/
def NoStuckKey (s : State) : Prop :=
  s.keyboardGrab = none → s.keyQueue = [] → s.draining = false →
    AllReleased s.sent ∧ ∀ key, s.forwarded key = false

/-- **No stuck key**, when every key is in the range of the list of forwarded keys and no press is
forwarded without a grab unless its release waits behind it. -/
theorem noStuckKey_of_kept {events : List Event} (h : Transition.Guarded step Kept {} events) :
    NoStuckKey (run {} events) := by
  have hinit : Tracked {} := by
    refine ⟨⟨fun key hdown => ?_, fun key hf => ?_, fun _ => rfl⟩, fun item hitem => ?_,
      fun _ key hf => ?_⟩
    · cases hdown
    · cases hf
    · cases hitem
    · cases hf
  obtain ⟨htracked, -⟩ := Transition.Guarded.invariant (P := fun s => Tracked s ∧ s.keyDepth = 0)
    (fun s e hs he => tracked_step hs he) ⟨hinit, rfl⟩ h
  intro hgrab hqueue hdraining
  have hprocessing : (run {} events).processing = none := by
    rw [State.draining] at hdraining
    cases hp : (run {} events).processing with
    | none => rfl
    | some item =>
      rw [hp] at hdraining
      cases hdraining
  have hforwarded : ∀ key, (run {} events).forwarded key = false := by
    intro key
    refine Bool.eq_false_iff.mpr fun hf => ?_
    have hmem := htracked.expected hgrab key hf
    rw [State.waiting, hprocessing, hqueue] at hmem
    cases hmem
  refine ⟨allReleased_of_down fun key => Bool.eq_false_iff.mpr fun hdown => ?_, hforwarded⟩
  exact Bool.eq_false_iff.mp (hforwarded key) (htracked.known.down key hdown)

/-- A key is pressed and declined by the engine in time, and then the text field loses the focus. -/
def declinedInTime : List Event :=
  [.activate, .done, .call (.setGrab true), .keymap, .engineContext true, .key 0 ⟨30, true⟩ {},
    .reply false, .deactivate, .done]

theorem noStuckKey_declinedInTime : NoStuckKey (run {} declinedInTime) :=
  noStuckKey_of_kept ⟨trivial, trivial, trivial, trivial, trivial, fun _ => by decide,
    ⟨fun _ _ => .inl (by decide), fun h => nomatch h⟩, trivial, trivial, trivial⟩

/-- A key is pressed, the text field loses the focus, and then the engine declines the key. -/
def lateAnswer : List Event :=
  [.activate, .done, .call (.setGrab true), .keymap, .engineContext true, .key 0 ⟨30, true⟩ {},
    .deactivate, .done, .engineContext false, .reply false]

theorem not_noStuckKey : ¬∀ events, NoStuckKey (run {} events) := by
  intro h
  have hsplit : lateAnswer = lateAnswer.take 7 ++ lateAnswer.drop 7 := rfl
  obtain ⟨s, hs⟩ : ∃ s, s = run {} (lateAnswer.take 7) := ⟨_, rfl⟩
  have hrun : run {} lateAnswer =
      run s [.done, .engineContext false, .reply false] := by
    rw [hsplit, hs]
    exact Transition.run_append _ _ _
  have hdrop : step s .done =
      { s with currentActive := false, keyboardGrab := none } := by
    rw [hs]
    exact updateGrab_drop rfl rfl (fun h => nomatch h) fun _ => rfl
  have hfinal : run {} lateAnswer = run { s with currentActive := false, keyboardGrab := none }
      [.engineContext false, .reply false] := by
    rw [hrun, ← hdrop]
    rfl
  have hfree := h lateAnswer
  rw [hfinal, hs] at hfree
  have hforwarded := (hfree rfl rfl rfl).2 30
  exact absurd hforwarded (by decide)

end Ime

end SingularityShell
