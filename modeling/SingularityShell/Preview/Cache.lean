import Mathlib.Data.List.Nodup
import Mathlib.Data.List.Perm.Basic
import Mathlib.Data.List.Range
import SingularityShell.Lib.Ascii
import SingularityShell.Lib.Machine
import SingularityShell.Preview.Requests

/-!
# Previews that share a capture

The previews of the shell ask for pictures of windows. Requests for the same window and size wait
for one capture together, and are answered when its callback is called. When the overview is closed,
the requests that wait are dropped, and captures that are under way are not cancelled.

The captures are those of `Preview.State`, among which there may be others.

## Main definitions

* `PreviewCache.State` — what waits, and what became of each request
* `PreviewCache.request`, `PreviewCache.clear` — the two methods
* `PreviewCache.step` — a call of one of them, or an event of the captures

## Main results

* `PreviewCache.answered_once` — each request is answered once or dropped, or waits for a capture
-/

namespace SingularityShell

namespace PreviewCache

open Ascii Machine

/-! ### The code -/

/-- `"%lu:%d:%d"` -/
def requestKey (handle : ℕ) (maxW maxH : ℤ) : Text :=
  decimal handle ++ 58 :: (signed maxW ++ 58 :: signed maxH)

/-- The width, the height and the stride of a texture. -/
structure Texture where
  width : ℤ
  height : ℤ
  stride : ℤ
  deriving DecidableEq

/-- What a request is answered with: the capture that the answer comes from, and the picture. -/
structure Answer where
  capture : Option ℕ
  texture : Option Texture
  deriving DecidableEq

/-- What a capture was started for: the key that its callback has, and the window. -/
structure Started where
  key : Text
  handle : ℕ
  deriving DecidableEq

structure State where
  captures : Preview.State := {}
  /-- What each capture was started for, if it was started here. -/
  started : List (Option Started) := []
  pending : List Text := []
  /-- The requests under each key of `waiters`, in the order in which they came. -/
  waiters : List (Text × ℕ) := []
  /-- The windows of all requests. A request is known by its number. -/
  asked : List ℕ := []
  answers : List (ℕ × Answer) := []
  dropped : List ℕ := []

/-- The result of a callback: its arguments are an `int` each. -/
def texture : Preview.Call → Option Texture
  | .callback width height stride data =>
    let w := wrap32 width.toNat
    let h := wrap32 height.toNat
    let s := wrap32 stride.toNat
    if data = false ∨ w ≤ 0 ∨ h ≤ 0 ∨ s ≤ 0 then none else some ⟨w, h, s⟩
  | .destroy => none

/-- The callback that `request` gives to a capture. -/
def complete (s : State) (told : ℕ × Preview.Call) : State :=
  match s.started[told.1]? with
  | some (some capture) =>
    { s with
      pending := s.pending.filter (· ≠ capture.key)
      waiters := s.waiters.filter fun waiter => waiter.1 ≠ capture.key
      answers := s.answers ++ (s.waiters.filter fun waiter => waiter.1 = capture.key).map
        fun waiter => (waiter.2, ⟨some told.1, texture told.2⟩) }
  | _ => s

/-- The call of the callback of a request. -/
def callbackOf (r : Preview.PreviewRequest) : Option Preview.Call :=
  r.calls.find? (· ≠ .destroy)

/-- The captures whose callback was called in a step. -/
def told (before after : Preview.State) : List (ℕ × Preview.Call) :=
  (List.range after.requests.length).filterMap fun i =>
    if ((before.requests[i]?).bind callbackOf).isSome then none
    else ((after.requests[i]?).bind callbackOf).map fun call => (i, call)

/-- An event of the captures. A new one is started for what is given. -/
def advance (e : Preview.Event) (new : Option Started) (s : State) : State :=
  let captures := Preview.step s.captures e
  let started := s.started ++
    List.replicate (captures.requests.length - s.captures.requests.length) new
  (told s.captures captures).foldl complete { s with captures, started }

/-- `request`. Its capture is `ready` when the compositor and the window are there, and has a
`frame` when the compositor makes one. -/
def request (handle : ℕ) (maxW maxH : ℤ) (ready frame : Bool) (s : State) : State :=
  let id := s.asked.length
  let s := { s with asked := s.asked ++ [handle] }
  if handle = 0 then { s with answers := s.answers ++ [(id, ⟨none, none⟩)] }
  else
    let key := requestKey handle maxW maxH
    let s := { s with waiters := s.waiters ++ [(key, id)] }
    if key ∈ s.pending then s
    else
      advance (.capture false ready frame true) (some ⟨key, handle⟩)
        { s with pending := s.pending ++ [key] }

/-- `clear` -/
def clear (s : State) : State :=
  advance .trim none { s with
    pending := []
    waiters := []
    dropped := s.dropped ++ s.waiters.map Prod.snd }

inductive Event where
  | request (handle : ℕ) (maxW maxH : ℤ) (ready frame : Bool)
  | clear
  /-- An event of the compositor, or a capture for the rest of the shell. -/
  | captures (e : Preview.Event)

def step (s : State) : Event → State
  | .request handle maxW maxH ready frame => request handle maxW maxH ready frame s
  | .clear => clear s
  | .captures e => advance e none s

def Regular (s : State) : Event → Prop
  | .captures e => Preview.Regular s.captures e
  | _ => True

/-! ### What is meant -/

/-- The callback of a capture has not been called. -/
def UnderWay (s : State) (i : ℕ) : Prop :=
  ∃ r, s.captures.requests[i]? = some r ∧ callbackOf r = none

/-- Each request was answered once, was dropped once, or waits for a capture that is under way, and
the picture that it was given is one of its window. -/
structure Kept (s : State) : Prop where
  accounted : (s.answers.map Prod.fst ++ s.dropped ++ s.waiters.map Prod.snd).Perm
    (List.range s.asked.length)
  awaited : ∀ key id, (key, id) ∈ s.waiters →
    ∃ i capture, s.started[i]? = some (some capture) ∧ capture.key = key ∧ UnderWay s i
  window : ∀ id i picture, (id, ⟨some i, picture⟩) ∈ s.answers →
    ∃ capture, s.started[i]? = some (some capture) ∧ s.asked[id]? = some capture.handle

/-! ### Keys -/

theorem colon_not_mem_decimal (n : ℕ) : 58 ∉ decimal n := fun hmem =>
  absurd (isDigit_of_mem_decimal hmem) (by decide)

/-- Requests with the same key are for the same window. -/
theorem handle_eq_of_requestKey {handle handle' : ℕ} {w w' h h' : ℤ}
    (heq : requestKey handle w h = requestKey handle' w' h') : handle = handle' :=
  decimal_injective
    (separate_inj (colon_not_mem_decimal handle) (colon_not_mem_decimal handle') heq).1

/-! ### The captures -/

/-- A request that cannot be cancelled, and was not. -/
def Own (r : Preview.PreviewRequest) : Prop := r.external = false ∧ r.ended ≠ some .cancelled

theorem callDestroy_own {r : Preview.PreviewRequest} : Own r.callDestroy ↔ Own r := by
  rw [Preview.PreviewRequest.callDestroy]
  split_ifs <;> rfl

/-- The requests are kept, and those that cannot be cancelled are not. -/
structure Grown (p p' : Preview.State) : Prop where
  length : p.requests.length ≤ p'.requests.length
  own : ∀ {i : ℕ} {r' : Preview.PreviewRequest}, i < p.requests.length →
    p'.requests[i]? = some r' → ∃ r, p.requests[i]? = some r ∧ (Own r → Own r')

theorem Grown.of_eq {p p' : Preview.State} (h : p'.requests = p.requests) : Grown p p' where
  length := by rw [h]
  own _ hr := ⟨_, h ▸ hr, id⟩

theorem Grown.put {p p' : Preview.State} (h : p'.requests = p.requests) {id : ℕ}
    {r r' : Preview.PreviewRequest} (hr : p.requests[id]? = some r) (hown : Own r → Own r') :
    Grown p (Preview.put id r' p') where
  length := by rw [Preview.put, List.length_set, h]
  own := by
    intro i q hi hq
    rw [Preview.put, h, List.getElem?_set] at hq
    split_ifs at hq with heq hlt
    · exact ⟨r, heq ▸ hr, Option.some.inj hq ▸ hown⟩
    · exact ⟨q, hq, fun h => h⟩

theorem Grown.congr {p p' p'' : Preview.State} (h : Grown p p')
    (heq : p''.requests = p'.requests) : Grown p p'' where
  length := heq ▸ h.length
  own hi hr := h.own hi (heq ▸ hr)

theorem requests_freeBuffer (r : Preview.PreviewRequest) (p : Preview.State) :
    (Preview.previewRequestFreeBuffer r p).2.requests = p.requests := by
  rw [Preview.previewRequestFreeBuffer]
  split <;> rfl

theorem grown_terminal {p : Preview.State} {id : ℕ} {r r' : Preview.PreviewRequest}
    (hr : p.requests[id]? = some r) (hexternal : r'.external = r.external) :
    Grown p (Preview.terminal id r' p) := by
  rw [Preview.terminal]
  dsimp only
  rw [Preview.freeBuffer_fst]
  refine .put (requests_freeBuffer r' p) hr fun hown => ?_
  have hended : Own (Preview.PreviewRequest.callDestroy { r' with
      pb := none, buffer := none, data := false
      frameExists := false, frame := false, ended := some .terminal }) :=
    callDestroy_own.2 ⟨hexternal.trans hown.1, (Option.some_injective _).ne (by decide)⟩
  split_ifs
  · exact hended
  · exact hended

/-- Only a request that can be cancelled is. -/
theorem grown_cancelCapture {p : Preview.State} {id : ℕ} {r : Preview.PreviewRequest}
    (hr : p.requests[id]? = some r) (hexternal : r.external = true) :
    Grown p (Preview.cancelCapture id r p) := by
  have hnot : ∀ r', Own r → Own r' := fun _ hown =>
    Bool.noConfusion (hexternal.symm.trans hown.1)
  rw [Preview.cancelCapture]
  split_ifs
  · exact .congr (.put rfl hr (hnot { r with released := true })) rfl
  · exact .put rfl hr (hnot _)
  · exact .put (requests_freeBuffer _ p) hr (hnot _)

theorem grown_frameBuffer {p : Preview.State} {id : ℕ} {r : Preview.PreviewRequest}
    (hr : p.requests[id]? = some r) (g : Preview.Geometry) (slotAlloc ownAlloc : Bool) :
    Grown p (Preview.frameBuffer id g slotAlloc ownAlloc r p) := by
  rw [Preview.frameBuffer]
  rcases Preview.previewBufferAcquire_spec g slotAlloc p with ⟨i, p', hacquire, -, hchanged⟩ |
    ⟨p', hacquire, hsame⟩
  · rw [hacquire]
    exact .put hchanged.requests hr fun h => h
  · rw [hacquire]
    dsimp only
    split_ifs
    · refine .congr (.put hsame.requests hr ?_) rfl
      exact fun h => h
    · refine .put hsame.requests hr fun hown => ⟨?_, (Option.some_injective _).ne (by decide)⟩
      have hcall : Own (Preview.PreviewRequest.call 0 0 0 false { r with geometry := g }) := hown
      exact (callDestroy_own.2 hcall).1

/-- A capture that is started adds a request. -/
theorem requests_capture (ready frame : Bool) (p : Preview.State) :
    ∃ r, (Preview.capture false ready frame true p).requests = p.requests ++ [r] ∧ Own r := by
  rw [Preview.capture]
  by_cases hready : (ready && frame) = true
  · rw [if_pos hready, if_pos rfl]
    refine ⟨{ frame := true, frameExists := true, allocated := true, external := false }, rfl, ?_⟩
    exact ⟨rfl, (Option.some_ne_none _).symm⟩
  · rw [if_neg hready]
    let refused : Preview.PreviewRequest := { external := false, ended := some .refused }
    refine ⟨(refused.call 0 0 0 false).callDestroy, rfl, callDestroy_own.2 ?_⟩
    exact ⟨rfl, (Option.some_injective _).ne (by decide)⟩

theorem grown_capture (external ready frame calloc : Bool) (p : Preview.State) :
    Grown p (Preview.capture external ready frame calloc p) := by
  have happend : ∀ r : Preview.PreviewRequest,
      Grown p { p with requests := p.requests ++ [r] } := fun r =>
    ⟨by simp, fun hi hq => ⟨_, (List.getElem?_append_left hi).symm.trans hq, id⟩⟩
  rw [Preview.capture]
  split_ifs
  · exact happend _
  · exact .of_eq rfl
  · exact happend _

/-- **The step lemma of the captures.** -/
theorem grown_step (p : Preview.State) (e : Preview.Event) : Grown p (Preview.step p e) := by
  have honFrame : ∀ {id : ℕ} {handle : Preview.PreviewRequest → Preview.State → Preview.State},
      (∀ r, p.requests[id]? = some r → Grown p (handle r p)) →
        Grown p (Preview.onFrame id handle p) := by
    intro id handle h
    rw [Preview.onFrame]
    split
    · next r hr =>
      split_ifs
      · exact h r hr
      · exact .of_eq rfl
    · exact .of_eq rfl
  rw [Preview.step.eq_def]
  split_ifs
  · exact .of_eq rfl
  cases e with
  | capture external ready frame calloc => exact grown_capture external ready frame calloc p
  | buffer id g slotAlloc ownAlloc =>
    exact honFrame fun r hr => grown_frameBuffer hr g slotAlloc ownAlloc
  | ready id =>
    refine honFrame fun r hr => grown_terminal hr ?_
    split_ifs <;> rfl
  | failed id =>
    refine honFrame fun r hr => grown_terminal hr ?_
    split_ifs <;> rfl
  | cancel id =>
    dsimp only
    rw [Preview.onToken]
    split
    · next r hr =>
      split_ifs with htoken
      · rw [Bool.and_eq_true, Bool.and_eq_true] at htoken
        exact grown_cancelCapture hr htoken.1.1
      · exact .of_eq rfl
    · exact .of_eq rfl
  | trim => exact .of_eq rfl

theorem mem_told_iff {p p' : Preview.State} {i : ℕ} :
    i ∈ (told p p').map Prod.fst ↔ i < p'.requests.length ∧
      (p.requests[i]?).bind callbackOf = none ∧ ((p'.requests[i]?).bind callbackOf).isSome := by
  rw [told, List.mem_map]
  constructor
  · rintro ⟨⟨j, call⟩, hmem, rfl⟩
    obtain ⟨k, hk, hcall⟩ := List.mem_filterMap.1 hmem
    split_ifs at hcall with hbefore
    obtain ⟨c, hc, heq⟩ := Option.map_eq_some_iff.1 hcall
    obtain ⟨rfl, -⟩ := Prod.mk.inj heq
    exact ⟨List.mem_range.1 hk, by simpa using hbefore, by rw [hc]; rfl⟩
  · rintro ⟨hlt, hbefore, hafter⟩
    obtain ⟨call, hcall⟩ := Option.isSome_iff_exists.1 hafter
    refine ⟨(i, call), List.mem_filterMap.2 ⟨i, List.mem_range.2 hlt, ?_⟩, rfl⟩
    rw [hbefore, hcall]
    rfl

/-- A request that ended called its callback. -/
theorem callbackOf_of_ended {r : Preview.PreviewRequest} (h : r.Fine) (hown : Own r)
    (hended : r.ended ≠ none) : callbackOf r ≠ none := by
  have hanswered : r.Answered := by
    rw [Preview.PreviewRequest.Fine] at h
    split at h
    · next hnone => exact absurd hnone hended
    · exact h.2.2.2.1
    · exact h.2.2.2.1
    · exact h.2.2.2.1
    · next hcancelled => exact absurd hcancelled hown.2
  obtain ⟨width, height, stride, data, hcalls⟩ := hanswered
  rw [callbackOf, hcalls]
  exact Option.some_ne_none (Preview.Call.callback width height stride data)

/-! ### The invariant -/

/-- The step from the captures to what waits for them: the key `fresh` is that of a capture which is
about to be started, and the callbacks of the captures in `todo` are about to be called. -/
structure Inv (s : State) (fresh : Option Text) (todo : List ℕ) : Prop where
  captures : Preview.Kept s.captures
  length : s.started.length = s.captures.requests.length
  own : ∀ (i : ℕ) capture r, s.started[i]? = some (some capture) →
    s.captures.requests[i]? = some r → Own r
  startedKey : ∀ (i : ℕ) capture, s.started[i]? = some (some capture) →
    ∃ w h, capture.key = requestKey capture.handle w h
  waits : ∀ key id, (key, id) ∈ s.waiters →
    key ∈ s.pending ∧ ∃ handle w h, s.asked[id]? = some handle ∧ key = requestKey handle w h
  pending : ∀ key ∈ s.pending, fresh = some key ∨
    ∃ i capture, s.started[i]? = some (some capture) ∧ capture.key = key ∧
      (UnderWay s i ∨ i ∈ todo)
  accounted : (s.answers.map Prod.fst ++ s.dropped ++ s.waiters.map Prod.snd).Perm
    (List.range s.asked.length)
  window : ∀ id i picture, (id, ⟨some i, picture⟩) ∈ s.answers →
    ∃ capture, s.started[i]? = some (some capture) ∧ s.asked[id]? = some capture.handle

theorem Inv.kept {s : State} (h : Inv s none []) : Kept s where
  accounted := h.accounted
  awaited key id hmem := by
    have hpending := h.pending key (h.waits key id hmem).1
    rcases hpending with hfresh | ⟨i, capture, hi, hkey, hunder | htodo⟩
    · exact absurd hfresh nofun
    · exact ⟨i, capture, hi, hkey, hunder⟩
    · exact absurd htodo List.not_mem_nil
  window := h.window

/-- The requests of the key that a callback has are answered, and the others are kept. -/
theorem accounted_complete {waiters : List (Text × ℕ)} {answers : List (ℕ × Answer)}
    {dropped : List ℕ} (key : Text) (answer : Answer) :
    ((answers ++ (waiters.filter fun waiter => waiter.1 = key).map
        fun waiter => (waiter.2, answer)).map Prod.fst ++ dropped ++
      (waiters.filter fun waiter => waiter.1 ≠ key).map Prod.snd).Perm
    (answers.map Prod.fst ++ dropped ++ waiters.map Prod.snd) := by
  have hsplit : ((waiters.filter fun waiter => waiter.1 = key).map Prod.snd ++
      (waiters.filter fun waiter => waiter.1 ≠ key).map Prod.snd).Perm (waiters.map Prod.snd) := by
    rw [← List.map_append]
    refine List.Perm.map Prod.snd ?_
    simpa using List.filter_append_perm (fun waiter : Text × ℕ => decide (waiter.1 = key)) waiters
  rw [List.map_append, List.map_map, List.append_assoc, List.append_assoc, List.append_assoc]
  refine List.Perm.append_left _ ?_
  refine (List.perm_append_comm_assoc _ _ _).trans (List.Perm.append_left _ ?_)
  exact hsplit

/-- **The step lemma of a callback.** -/
theorem Inv.completed {s : State} {i : ℕ} {todo : List ℕ} (h : Inv s none (i :: todo))
    (call : Preview.Call) : Inv (complete s (i, call)) none todo := by
  rw [complete]
  split
  · next capture hstarted =>
    dsimp only at hstarted
    refine { h with waits := ?_, pending := ?_, accounted := ?_, window := ?_ }
    · intro key id hmem
      obtain ⟨hmem, hne⟩ := List.mem_filter.1 hmem
      obtain ⟨hpending, hasked⟩ := h.waits key id hmem
      exact ⟨List.mem_filter.2 ⟨hpending, hne⟩, hasked⟩
    · intro key hmem
      obtain ⟨hmem, hne⟩ := List.mem_filter.1 hmem
      refine Or.inr ?_
      rcases h.pending key hmem with hfresh | ⟨j, capture', hj, hkey, hunder⟩
      · exact absurd hfresh nofun
      · refine ⟨j, capture', hj, hkey, hunder.imp_right fun htodo => ?_⟩
        rcases List.mem_cons.1 htodo with rfl | htodo
        · obtain rfl := Option.some.inj (Option.some.inj (hj.symm.trans hstarted))
          exact absurd hkey.symm (of_decide_eq_true hne)
        · exact htodo
    · exact (accounted_complete capture.key _).trans h.accounted
    · intro id j picture hmem
      rcases List.mem_append.1 hmem with hold | hnew
      · exact h.window id j picture hold
      · obtain ⟨⟨key, id'⟩, hwaiter, heq⟩ := List.mem_map.1 hnew
        obtain ⟨rfl, hanswer⟩ := Prod.mk.inj heq
        obtain rfl : i = j := Option.some.inj (Answer.mk.inj hanswer).1
        obtain ⟨hmem, hkey⟩ := List.mem_filter.1 hwaiter
        obtain rfl : key = capture.key := of_decide_eq_true hkey
        obtain ⟨-, handle, w, height, hasked, hrequest⟩ := h.waits _ _ hmem
        obtain ⟨w', height', hcapture⟩ := h.startedKey _ _ hstarted
        refine ⟨capture, hstarted, hasked.trans (congrArg some ?_)⟩
        exact handle_eq_of_requestKey (hrequest.symm.trans hcapture)
  · next hnot =>
    refine { h with pending := ?_ }
    intro key hmem
    refine Or.inr ?_
    rcases h.pending key hmem with hfresh | ⟨j, capture, hj, hkey, hunder⟩
    · exact absurd hfresh nofun
    · refine ⟨j, capture, hj, hkey, hunder.imp_right fun htodo => ?_⟩
      rcases List.mem_cons.1 htodo with rfl | htodo
      · exact absurd hj (hnot capture)
      · exact htodo

theorem Inv.foldl_complete {todo : List (ℕ × Preview.Call)} {s : State}
    (h : Inv s none (todo.map Prod.fst)) : Inv (todo.foldl complete s) none [] := by
  induction todo generalizing s with
  | nil => exact h
  | cons told todo ih => exact ih (h.completed told.2)

/-- **The step lemma of the captures, for what waits for them.** Captures may be started for `new`,
and one is when its key is that of a request. -/
theorem Inv.advanced {s : State} {fresh : Option Text} (h : Inv s fresh []) {e : Preview.Event}
    (hok : Preview.Regular s.captures e) {new : Option Started}
    (hnew : ∀ capture, new = some capture →
      (∃ w h, capture.key = requestKey capture.handle w h) ∧
      ∃ r, (Preview.step s.captures e).requests = s.captures.requests ++ [r] ∧ Own r)
    (hfresh : ∀ key, fresh = some key → ∃ capture, new = some capture ∧ capture.key = key) :
    Inv (advance e new s) none [] := by
  have hgrown := grown_step s.captures e
  have hnth : ∀ {i : ℕ} {capture}, (s.started ++ List.replicate
        ((Preview.step s.captures e).requests.length - s.captures.requests.length) new)[i]? =
      some (some capture) → s.started[i]? = some (some capture) ∨
        new = some capture ∧ i = s.captures.requests.length := by
    intro i capture hi
    rcases Nat.lt_or_ge i s.started.length with hlt | hge
    · exact Or.inl ((List.getElem?_append_left hlt).symm.trans hi)
    · rw [List.getElem?_append_right hge] at hi
      obtain ⟨hlt, hcapture⟩ := List.getElem?_eq_some_iff.1 hi
      rw [List.getElem_replicate] at hcapture
      obtain ⟨-, r, hr, -⟩ := hnew capture hcapture
      rw [List.length_replicate, hr, List.length_append, List.length_singleton] at hlt
      rw [← h.length]
      exact Or.inr ⟨hcapture, by omega⟩
  have hlt : ∀ {i : ℕ} {capture}, s.started[i]? = some (some capture) →
      i < s.captures.requests.length := fun hi =>
    h.length ▸ (List.getElem?_eq_some_iff.1 hi).1
  have hleft : ∀ {i : ℕ} {capture}, s.started[i]? = some (some capture) → (s.started ++
      List.replicate ((Preview.step s.captures e).requests.length - s.captures.requests.length)
        new)[i]? = some (some capture) := fun {i} _ hi =>
    (List.getElem?_append_left (h.length ▸ hlt hi)).trans hi
  -- A callback that was not called before is called now, or has still to be called.
  have htold : ∀ {i : ℕ} {r}, (Preview.step s.captures e).requests[i]? = some r →
      (s.captures.requests[i]?).bind callbackOf = none →
      (∃ r, (Preview.step s.captures e).requests[i]? = some r ∧ callbackOf r = none) ∨
        i ∈ (told s.captures (Preview.step s.captures e)).map Prod.fst := by
    intro i r hr hbefore
    rcases hcall : callbackOf r with _ | call
    · exact Or.inl ⟨r, hr, hcall⟩
    · refine Or.inr (mem_told_iff.2 ⟨(List.getElem?_eq_some_iff.1 hr).1, hbefore, ?_⟩)
      rw [hr]
      exact Option.isSome_iff_exists.2 ⟨call, hcall⟩
  rw [advance]
  refine Inv.foldl_complete ?_
  refine { captures := Preview.kept_step h.captures hok, length := ?_, own := ?_, startedKey := ?_,
           waits := h.waits, pending := ?_, accounted := h.accounted, window := ?_ }
  · rw [List.length_append, List.length_replicate, h.length]
    exact Nat.add_sub_cancel' hgrown.length
  · intro i capture r hi hr
    rcases hnth hi with hold | ⟨hcapture, rfl⟩
    · obtain ⟨r', hr', hown⟩ := hgrown.own (hlt hold) hr
      exact hown (h.own i capture r' hold hr')
    · obtain ⟨-, r', hrequests, hown⟩ := hnew capture hcapture
      dsimp only at hr
      rw [hrequests, List.getElem?_concat_length] at hr
      exact Option.some.inj hr ▸ hown
  · intro i capture hi
    rcases hnth hi with hold | ⟨hcapture, -⟩
    · exact h.startedKey i capture hold
    · exact (hnew capture hcapture).1
  · intro key hmem
    refine Or.inr ?_
    rcases h.pending key hmem with hkey | ⟨i, capture, hi, hkey, ⟨r, hr, hcall⟩ | htodo⟩
    · obtain ⟨capture, hcapture, rfl⟩ := hfresh key hkey
      obtain ⟨-, r, hrequests, -⟩ := hnew capture hcapture
      refine ⟨s.captures.requests.length, capture, ?_, rfl, ?_⟩
      · dsimp only
        rw [List.getElem?_append_right h.length.le, h.length, hcapture, hrequests]
        simp
      · refine htold (r := r) ?_ ?_
        · rw [hrequests, List.getElem?_concat_length]
        · rw [List.getElem?_eq_none (Nat.le_refl _)]
          rfl
    · refine ⟨i, capture, hleft hi, hkey, ?_⟩
      have hlen : i < (Preview.step s.captures e).requests.length :=
        Nat.lt_of_lt_of_le (hlt hi) hgrown.length
      refine htold (List.getElem?_eq_getElem hlen) ?_
      rw [hr]
      exact hcall
    · exact absurd htodo List.not_mem_nil
  · intro id i picture hmem
    obtain ⟨capture, hi, hasked⟩ := h.window id i picture hmem
    exact ⟨capture, hleft hi, hasked⟩

theorem perm_snoc_range {n : ℕ} {ids : List ℕ} (h : ids.Perm (List.range n)) :
    (ids ++ [n]).Perm (List.range (n + 1)) := by
  rw [List.range_succ]
  exact h.append_right [n]

theorem getElem?_asked {asked : List ℕ} {handle handle' id : ℕ} (h : asked[id]? = some handle) :
    (asked ++ [handle'])[id]? = some handle :=
  (List.getElem?_append_left (List.getElem?_eq_some_iff.1 h).1).trans h

/-- A request without a window is answered at once. -/
theorem Inv.answered {s : State} (h : Inv s none []) (handle : ℕ) :
    Inv { s with
      asked := s.asked ++ [handle]
      answers := s.answers ++ [(s.asked.length, ⟨none, none⟩)] } none [] := by
  refine { h with waits := ?_, accounted := ?_, window := ?_ }
  · intro key id hmem
    obtain ⟨hpending, handle', w, height, hasked, hkey⟩ := h.waits key id hmem
    exact ⟨hpending, handle', w, height, getElem?_asked hasked, hkey⟩
  · rw [List.length_append, List.length_singleton]
    refine List.Perm.trans ?_ (perm_snoc_range h.accounted)
    rw [List.map_append, List.append_assoc, List.append_assoc, List.append_assoc, List.append_assoc]
    refine List.Perm.append_left _ ?_
    rw [← List.append_assoc s.dropped]
    exact List.perm_append_comm
  · intro id i picture hmem
    rcases List.mem_append.1 hmem with hold | hnew
    · obtain ⟨capture, hi, hasked⟩ := h.window id i picture hold
      exact ⟨capture, hi, getElem?_asked hasked⟩
    · have heq := List.mem_singleton.1 hnew
      exact absurd (Answer.mk.inj (Prod.mk.inj heq).2).1 nofun

/-- A request waits for its key, which is pending, or for which a capture is about to be started. -/
theorem Inv.waited {s : State} (h : Inv s none []) (handle : ℕ) (maxW maxH : ℤ)
    {pending : List Text} (fresh : Option Text) (hsub : s.pending ⊆ pending)
    (hkey : requestKey handle maxW maxH ∈ pending)
    (hpending : ∀ key ∈ pending, key ∈ s.pending ∨ fresh = some key) :
    Inv { s with
      pending
      asked := s.asked ++ [handle]
      waiters := s.waiters ++ [(requestKey handle maxW maxH, s.asked.length)] } fresh [] := by
  refine { h with waits := ?_, pending := ?_, accounted := ?_, window := ?_ }
  · intro key id hmem
    rcases List.mem_append.1 hmem with hold | hnew
    · obtain ⟨hkey, handle', w, height, hasked, heq⟩ := h.waits key id hold
      exact ⟨hsub hkey, handle', w, height, getElem?_asked hasked, heq⟩
    · obtain ⟨rfl, rfl⟩ := Prod.mk.inj (List.mem_singleton.1 hnew)
      exact ⟨hkey, handle, maxW, maxH, List.getElem?_concat_length, rfl⟩
  · intro key hmem
    rcases hpending key hmem with hold | hfresh
    · exact Or.inr ((h.pending key hold).resolve_left nofun)
    · exact Or.inl hfresh
  · rw [List.length_append, List.length_singleton, List.map_append, ← List.append_assoc]
    exact perm_snoc_range h.accounted
  · intro id i picture hmem
    obtain ⟨capture, hi, hasked⟩ := h.window id i picture hmem
    exact ⟨capture, hi, getElem?_asked hasked⟩

theorem Inv.requested {s : State} (h : Inv s none []) (handle : ℕ) (maxW maxH : ℤ)
    (ready frame : Bool) : Inv (request handle maxW maxH ready frame s) none [] := by
  rw [request]
  dsimp only
  split_ifs with hnull hpending
  · exact h.answered handle
  · exact h.waited handle maxW maxH none (List.Subset.refl _) hpending fun key hmem => Or.inl hmem
  · have hwaited := h.waited handle maxW maxH (some (requestKey handle maxW maxH))
      (List.subset_append_left _ [requestKey handle maxW maxH])
      (List.mem_append_right _ (List.mem_singleton.2 rfl)) fun key hmem =>
        (List.mem_append.1 hmem).imp_right fun hnew => by rw [List.mem_singleton.1 hnew]
    refine hwaited.advanced (e := .capture false ready frame true) (fun _ _ => rfl) ?_ ?_
    · rintro capture hcapture
      obtain rfl := Option.some.inj hcapture
      refine ⟨⟨maxW, maxH, rfl⟩, ?_⟩
      rw [Preview.step, if_neg (by rw [h.captures.intact]; decide)]
      exact requests_capture ready frame s.captures
    · rintro key hkey
      exact ⟨_, rfl, Option.some.inj hkey⟩

theorem Inv.cleared {s : State} (h : Inv s none []) : Inv (clear s) none [] := by
  rw [clear]
  refine Inv.advanced (e := .trim) (?_ : Inv _ none []) trivial nofun nofun
  refine { h with waits := nofun, pending := nofun, accounted := ?_ }
  rw [List.map_nil, List.append_nil, ← List.append_assoc]
  exact h.accounted

theorem Inv.step {s : State} (h : Inv s none []) {e : Event} (hok : Regular s e) :
    Inv (PreviewCache.step s e) none [] := by
  cases e with
  | request handle maxW maxH ready frame => exact h.requested handle maxW maxH ready frame
  | clear => exact h.cleared
  | captures e => exact h.advanced hok nofun nofun

theorem inv_init : Inv {} none [] := by
  have hnone : ∀ (i : ℕ) (capture : Started),
      ([] : List (Option Started))[i]? ≠ some (some capture) := fun _ _ h =>
    Option.some_ne_none _ (h.symm.trans List.getElem?_nil)
  refine ⟨Preview.kept_init, rfl, ?_, ?_, ?_, ?_, List.Perm.refl [], ?_⟩
  · exact fun i capture _ hi => absurd hi (hnone i capture)
  · exact fun i capture hi => absurd hi (hnone i capture)
  · exact fun key id hmem => absurd hmem List.not_mem_nil
  · exact fun key hmem => absurd hmem List.not_mem_nil
  · exact fun id i picture hmem => absurd hmem List.not_mem_nil

/-- A request that waits, waits for a capture that has not ended. -/
theorem Inv.not_ended {s : State} (h : Inv s none []) {key : Text} {id : ℕ}
    (hmem : (key, id) ∈ s.waiters) :
    ∃ (i : ℕ) (capture : Started) (r : Preview.PreviewRequest),
      s.started[i]? = some (some capture) ∧ s.captures.requests[i]? = some r ∧ r.ended = none := by
  obtain ⟨i, capture, hi, -, r, hr, hcall⟩ := h.kept.awaited key id hmem
  refine ⟨i, capture, r, hi, hr, ?_⟩
  by_contra hended
  have hfine := h.captures.fine r (List.mem_of_getElem? hr)
  exact callbackOf_of_ended hfine (h.own i capture r hi hr) hended hcall

/-- **Each request is answered once.** In every run whose capture events are regular, each request
was answered once, or dropped once, or waits for a capture that is under way. When no capture is, no
request waits. -/
theorem answered_once {events : List Event} (h : Transition.Guarded step Regular {} events) :
    Kept (Transition.run step {} events) ∧
      ((∀ (i : ℕ) (capture : Started) (r : Preview.PreviewRequest),
          (Transition.run step {} events).started[i]? = some (some capture) →
          (Transition.run step {} events).captures.requests[i]? = some r → r.ended ≠ none) →
        (Transition.run step {} events).waiters = []) := by
  have hinv : Inv (Transition.run step {} events) none [] :=
    h.invariant (P := fun s => Inv s none []) (fun _ _ h hok => h.step hok) inv_init
  refine ⟨hinv.kept, fun hended => List.eq_nil_iff_forall_not_mem.2 fun waiter hmem => ?_⟩
  obtain ⟨i, capture, r, hi, hr, hnone⟩ := hinv.not_ended hmem
  exact hended i capture r hi hr hnone

/-- Two requests wait for one capture and are dropped, and a third is answered by it, before the
capture that it started fails. -/
def shared : List Event :=
  [.request 7 200 100 true true, .request 7 200 100 true true,
    .captures (.buffer 0 ⟨0, 2, 1, 8⟩ true true), .clear, .request 7 200 100 true true,
    .captures (.ready 0), .captures (.failed 1)]

theorem answered_once_shared :
    (Transition.run step {} shared).answers = [(2, ⟨some 0, some ⟨2, 1, 8⟩⟩)] ∧
      Kept (Transition.run step {} shared) := by
  refine ⟨by decide +kernel, (answered_once ?_).1⟩
  refine ⟨trivial, trivial, ?_, trivial, trivial, trivial, trivial, trivial⟩
  intro r hr _
  exact Option.some.inj hr ▸ rfl

end PreviewCache

end SingularityShell
