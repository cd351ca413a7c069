import SingularityShell.Lib.Exclusive
import SingularityShell.Preview.Model

/-!
# Each preview request ends once

A request that can be cancelled is freed by the holder of its token, except that the handler of the
buffer event frees it by itself when no buffer can be made. A second buffer event of a frame takes a
second slot of the pool, and the first is never given back.

## Main definitions

* `Preview.Sound` — what holds of the requests and of the pool
* `Preview.Regular` — an event that finds the request as its handler expects it

## Main results

* `Preview.previewBufferAcquire_spec` — what the pool gives is not in use
* `Preview.kept_step` — the step lemma
* `Preview.sound_of_regular` — in a run of such events, each request ends once and the pool is
  exclusive -/

namespace SingularityShell

namespace Preview

/-! ### The property -/

/-- The destroy function is called once, after the callback, which is called unless the request was
cancelled. -/
def PreviewRequest.Told (r : PreviewRequest) : Prop :=
  match r.ended with
  | none => r.calls = []
  | some .cancelled => r.calls = [.destroy]
  | some _ => ∃ width height stride data,
      r.calls = [.callback width height stride data, .destroy]

/-- Neither an event nor the holder of the token needs the memory of the request. -/
def PreviewRequest.Unneeded (r : PreviewRequest) : Prop :=
  r.allocated = true ∧ r.ended ≠ none ∧
    (r.external = true → r.released = true ∨ r.ended = some .gaveUp)

/-- The live request has the slot of the pool. -/
def State.Attached (s : State) (id i : ℕ) : Prop :=
  ∃ r, s.requests[id]? = some r ∧ r.ended = none ∧ r.pb = some i

/-- The slot is in use. -/
def State.Used (s : State) (i : ℕ) : Prop := ∃ pb, s.pool[i]? = some pb ∧ pb.inUse = true

/-- Freed memory is not used, each request is told once and freed once, and the slots in use are
those that exactly one live request has, for the buffer that it captures into. -/
structure Sound (s : State) : Prop where
  intact : s.broken = false
  told : ∀ r ∈ s.requests, r.Told
  freed : ∀ r ∈ s.requests, r.frees ≤ 1 ∧ (r.frees = 1 ↔ r.Unneeded)
  used : ∀ i, s.Used i ↔ ∃ id, s.Attached id i
  unique : ∀ id id' i, s.Attached id i → s.Attached id' i → id = id'
  buffer : ∀ r ∈ s.requests, ∀ i, r.ended = none → r.pb = some i →
    ∃ pb, s.pool[i]? = some pb ∧ pb.buffer.isSome = true ∧ r.buffer = pb.buffer

/-- There is memory for a new request, a frame that has a slot of the pool announces no other
buffer, and a token is not given back after the handler of the buffer event gave up. -/
def Regular (s : State) : Event → Prop
  | .capture _ ready frame calloc => ready = true → frame = true → calloc = true
  | .buffer id _ _ _ => ∀ r, s.requests[id]? = some r → r.frameExists = true → r.pb = none
  | .cancel id => ∀ r, s.requests[id]? = some r → r.released = false → r.ended ≠ some .gaveUp
  | _ => True

/-! ### The invariant -/

/-- The functions of a request that was not cancelled were called. -/
def PreviewRequest.Answered (r : PreviewRequest) : Prop :=
  ∃ width height stride data, r.calls = [.callback width height stride data, .destroy]

/-- What is known of a request, by how it ended. -/
def PreviewRequest.Fine (r : PreviewRequest) : Prop :=
  match r.ended with
  | none => r.frame = true ∧ r.allocated = true ∧ r.destroy = true ∧ r.cancelled = false ∧
      r.done = false ∧ r.calls = [] ∧ r.frees = 0 ∧ r.released = false
  | some .refused =>
    r.frameExists = false ∧ r.pb = none ∧ r.allocated = false ∧ r.Answered ∧ r.frees = 0
  | some .terminal => r.frameExists = false ∧ r.pb = none ∧ r.allocated = true ∧ r.Answered ∧
      r.done = r.external ∧ r.frees = if r.external then r.released.toNat else 1
  | some .gaveUp =>
    r.frameExists = false ∧ r.pb = none ∧ r.allocated = true ∧ r.Answered ∧ r.frees = 1
  | some .cancelled => r.frameExists = false ∧ r.pb = none ∧ r.allocated = true ∧
    r.calls = [.destroy] ∧
      r.released = true ∧ r.frees = 1

/-- The slot that a request has. -/
def State.slot (s : State) (id : ℕ) : Option ℕ := (s.requests[id]?).bind (·.pb)

structure Kept (s : State) : Prop where
  intact : s.broken = false
  fine : ∀ r ∈ s.requests, r.Fine
  exclusive : Exclusive s.Used s.slot
  buffer : ∀ r ∈ s.requests, ∀ i, r.pb = some i →
    ∃ pb, s.pool[i]? = some pb ∧ pb.buffer.isSome = true ∧ r.buffer = pb.buffer

theorem PreviewRequest.Fine.told {r : PreviewRequest} (h : r.Fine) : r.Told := by
  rw [Fine] at h
  rw [Told]
  split at h
  · next hnone => rw [hnone]; exact h.2.2.2.2.2.1
  · next hrefused => rw [hrefused]; exact h.2.2.2.1
  · next hterminal => rw [hterminal]; exact h.2.2.2.1
  · next hgaveUp => rw [hgaveUp]; exact h.2.2.2.1
  · next hcancelled => rw [hcancelled]; exact h.2.2.2.1

theorem PreviewRequest.Fine.freed {r : PreviewRequest} (h : r.Fine) :
    r.frees ≤ 1 ∧ (r.frees = 1 ↔ r.Unneeded) := by
  rw [Fine] at h
  rw [Unneeded]
  split at h
  · next hnone =>
    obtain ⟨-, -, -, -, -, -, hfrees, -⟩ := h
    rw [hfrees, hnone]
    exact ⟨Nat.zero_le 1, iff_of_false Nat.zero_ne_one fun h => h.2.1 rfl⟩
  · next hrefused =>
    obtain ⟨-, -, halloc, -, hfrees⟩ := h
    rw [hfrees, halloc]
    exact ⟨Nat.zero_le 1, iff_of_false Nat.zero_ne_one fun h => Bool.false_ne_true h.1⟩
  · next hterminal =>
    obtain ⟨-, -, halloc, -, -, hfrees⟩ := h
    rw [hfrees, halloc, hterminal]
    cases r.external <;> cases r.released <;> simp
  · next hgaveUp =>
    obtain ⟨-, -, halloc, -, hfrees⟩ := h
    rw [hfrees, halloc, hgaveUp]
    exact ⟨Nat.le_refl 1, iff_of_true rfl ⟨rfl, nofun, fun _ => Or.inr rfl⟩⟩
  · next hcancelled =>
    obtain ⟨-, -, halloc, -, hreleased, hfrees⟩ := h
    rw [hfrees, halloc, hcancelled, hreleased]
    exact ⟨Nat.le_refl 1, iff_of_true rfl ⟨rfl, nofun, fun _ => Or.inl rfl⟩⟩

/-- A request that ended has no slot. -/
theorem PreviewRequest.Fine.ended_of_pb {r : PreviewRequest} (h : r.Fine) {i : ℕ}
    (hpb : r.pb = some i) :
    r.ended = none := by
  rw [Fine] at h
  split at h
  · next hnone => exact hnone
  · exact absurd (hpb.symm.trans h.2.1) (Option.some_ne_none i)
  · exact absurd (hpb.symm.trans h.2.1) (Option.some_ne_none i)
  · exact absurd (hpb.symm.trans h.2.1) (Option.some_ne_none i)
  · exact absurd (hpb.symm.trans h.2.1) (Option.some_ne_none i)

theorem PreviewRequest.Fine.ended_of_frameExists {r : PreviewRequest} (h : r.Fine)
    (hframe : r.frameExists = true) : r.ended = none := by
  rw [Fine] at h
  split at h
  · next hnone => exact hnone
  · exact absurd (hframe.symm.trans h.1) Bool.noConfusion
  · exact absurd (hframe.symm.trans h.1) Bool.noConfusion
  · exact absurd (hframe.symm.trans h.1) Bool.noConfusion
  · exact absurd (hframe.symm.trans h.1) Bool.noConfusion

theorem Kept.sound {s : State} (h : Kept s) : Sound s := by
  have hattached (id i : ℕ) : s.Attached id i ↔ s.slot id = some i := by
    rw [State.Attached, State.slot, Option.bind_eq_some_iff]
    refine exists_congr fun r => ⟨fun ⟨hr, _, hpb⟩ => ⟨hr, hpb⟩, fun ⟨hr, hpb⟩ => ⟨hr, ?_, hpb⟩⟩
    exact (h.fine r (List.mem_of_getElem? hr)).ended_of_pb hpb
  refine ⟨h.intact, fun r hr => (h.fine r hr).told, fun r hr => (h.fine r hr).freed, fun i => ?_,
    fun id id' i hid hid' => ?_, fun r hr i _ hpb => h.buffer r hr i hpb⟩
  · rw [h.exclusive.used_iff]
    exact exists_congr fun id => (hattached id i).symm
  · exact h.exclusive.unique id id' i ((hattached id i).mp hid) ((hattached id' i).mp hid')

/-! ### The pool -/

/-- A pool in which the slots are as before, but for one that is now in use or is no longer. -/
structure Changed (s s' : State) (i : ℕ) (inUse : Bool) : Prop where
  requests : s'.requests = s.requests
  broken : s'.broken = s.broken
  other : ∀ j, j ≠ i → s'.pool[j]? = s.pool[j]?
  here : ∃ pb, s'.pool[i]? = some pb ∧ pb.inUse = inUse ∧ (inUse = true → pb.buffer.isSome = true)

theorem Changed.used_attach {s s' : State} {i : ℕ} (h : Changed s s' i true) (j : ℕ) :
    s'.Used j ↔ j = i ∨ s.Used j := by
  rw [State.Used, State.Used]
  by_cases hj : j = i
  · obtain ⟨pb, hpb, hinUse, -⟩ := h.here
    exact iff_of_true ⟨pb, hj ▸ hpb, hinUse⟩ (Or.inl hj)
  · rw [h.other j hj]
    exact (or_iff_right hj).symm

theorem Changed.used_detach {s s' : State} {i : ℕ} (h : Changed s s' i false) (j : ℕ) :
    s'.Used j ↔ j ≠ i ∧ s.Used j := by
  rw [State.Used, State.Used]
  by_cases hj : j = i
  · obtain ⟨pb, hpb, hinUse, -⟩ := h.here
    refine iff_of_false ?_ fun h => h.1 hj
    rintro ⟨pb', hpb', hinUse'⟩
    rw [hj, hpb] at hpb'
    rw [← Option.some.inj hpb', hinUse] at hinUse'
    cases hinUse'
  · rw [h.other j hj]
    exact (and_iff_right hj).symm

/-- A pool in which only slots that are not in use differ. -/
structure Same (s s' : State) : Prop where
  requests : s'.requests = s.requests
  broken : s'.broken = s.broken
  pool : ∀ (j : ℕ) (pb : PreviewBuffer),
    pb.inUse = true → (s'.pool[j]? = some pb ↔ s.pool[j]? = some pb)

theorem Same.used {s s' : State} (h : Same s s') (j : ℕ) : s'.Used j ↔ s.Used j :=
  exists_congr fun pb => and_congr_left fun hpb => h.pool j pb hpb

/-- **What the pool gives is not in use**, and it is in use afterwards; else nothing in use changes.
-/
theorem previewBufferAcquire_spec (g : Geometry) (alloc : Bool) (s : State) :
    (∃ i s', previewBufferAcquire g alloc s = (some i, s') ∧ ¬s.Used i ∧ Changed s s' i true) ∨
    ∃ s', previewBufferAcquire g alloc s = (none, s') ∧ Same s s' := by
  have hfree {i : ℕ} {pb : PreviewBuffer} (hpb : s.pool[i]? = some pb) (hinUse : pb.inUse = false) :
      ¬s.Used i := by
    rintro ⟨pb', hpb', hinUse'⟩
    rw [hpb] at hpb'
    rw [← Option.some.inj hpb', hinUse] at hinUse'
    cases hinUse'
  rw [previewBufferAcquire]
  split
  · next i hfound =>
    obtain ⟨hi, hp, -⟩ := List.findIdx?_eq_some_iff_getElem.mp hfound
    rw [Bool.and_eq_true, Bool.and_eq_true, Bool.not_eq_true'] at hp
    have hpb : s.pool[i]? = some s.pool[i] := List.getElem?_eq_getElem hi
    refine Or.inl ⟨i, _, rfl, hfree hpb hp.1.1, rfl, rfl, fun j hj => ?_, ?_⟩
    · exact List.getElem?_modify_ne _ _ (Ne.symm hj)
    · refine ⟨{ s.pool[i] with inUse := true }, ?_, rfl, fun _ => hp.1.2⟩
      exact (List.getElem?_modify_eq _ _ _).trans (congrArg _ hpb)
  · split
    · exact Or.inr ⟨s, rfl, rfl, rfl, fun _ _ _ => Iff.rfl⟩
    · next i hfound =>
      obtain ⟨hi, hp, -⟩ := List.findIdx?_eq_some_iff_getElem.mp hfound
      rw [Bool.not_eq_true'] at hp
      have hpb : s.pool[i]? = some s.pool[i] := List.getElem?_eq_getElem hi
      cases alloc with
      | true =>
        refine Or.inl ⟨i, _, rfl, hfree hpb hp, rfl, rfl, fun j hj => ?_, ?_⟩
        · exact List.getElem?_set_ne (Ne.symm hj)
        · exact ⟨_, List.getElem?_set_self hi, rfl, fun _ => rfl⟩
      | false =>
        refine Or.inr ⟨_, rfl, rfl, rfl, fun j pb hinUse => ?_⟩
        by_cases hj : i = j
        · subst hj
          refine iff_of_false (fun h => ?_) fun h => hfree hpb hp ⟨pb, h, hinUse⟩
          have hhere := (List.getElem?_modify_eq ({ · with buffer := none }) i s.pool).symm.trans h
          rw [hpb] at hhere
          rw [← Option.some.inj hhere] at hinUse
          exact absurd (hinUse.symm.trans hp) Bool.noConfusion
        · exact (congrArg (· = some pb) (List.getElem?_modify_ne _ s.pool hj)).to_iff

theorem previewPoolTrim_same (s : State) : Same s (previewPoolTrim s) := by
  refine ⟨rfl, rfl, fun j pb hinUse => ?_⟩
  show (s.pool.map trimmed)[j]? = some pb ↔ _
  rw [List.getElem?_map, Option.map_eq_some_iff]
  constructor
  · rintro ⟨pb', hpb', rfl⟩
    rw [trimmed] at hinUse ⊢
    split_ifs at hinUse ⊢ with hkept
    · exact hpb'
    · exact absurd (Or.inl hinUse) hkept
  · intro hpb
    refine ⟨pb, hpb, ?_⟩
    rw [trimmed, if_pos (Or.inl hinUse)]

/-! ### Requests -/

theorem slot_put {s : State} {id : ℕ} {old : PreviewRequest} (hold : s.requests[id]? = some old)
    (r : PreviewRequest) : (put id r s).slot = Function.update s.slot id r.pb := by
  obtain ⟨hid, -⟩ := List.getElem?_eq_some_iff.mp hold
  funext id'
  by_cases hid' : id' = id
  · rw [hid', Function.update_self, State.slot]
    show ((s.requests.set id r)[id]?).bind (·.pb) = r.pb
    rw [List.getElem?_set_self hid]
    rfl
  · rw [Function.update_of_ne hid', State.slot, State.slot]
    show ((s.requests.set id r)[id']?).bind (·.pb) = _
    rw [List.getElem?_set_ne (Ne.symm hid')]

theorem slot_eq {s : State} {id : ℕ} {r : PreviewRequest} (hr : s.requests[id]? = some r) :
    s.slot id = r.pb := by
  rw [State.slot, hr]
  rfl

theorem slot_congr {s s' : State} (h : s'.requests = s.requests) : s'.slot = s.slot := by
  funext id
  rw [State.slot, State.slot, h]

/-- What holds of the requests that are not replaced holds of all that are not the new one. -/
theorem mem_put {s : State} {id : ℕ} {r r' : PreviewRequest} (h : r' ∈ (put id r s).requests) :
    r' ∈ s.requests ∨ r' = r := List.mem_or_eq_of_mem_set h

/-- In a pool in which only slots that are not in use differ, a request that keeps its slot is
replaced. -/
theorem Kept.put_same {s s' : State} (h : Kept s) (hsame : Same s s') {id : ℕ}
    {r r' : PreviewRequest}
    (hr : s.requests[id]? = some r) (hpb : r'.pb = r.pb) (hnone : r.pb = none) (hfine : r'.Fine) :
    Kept (put id r' s') := by
  have hr' : s'.requests[id]? = some r := hsame.requests ▸ hr
  refine ⟨hsame.broken.trans h.intact, fun q hq => ?_, ?_, fun q hq i hi => ?_⟩
  · rcases mem_put hq with hold | rfl
    · exact h.fine q (hsame.requests ▸ hold)
    · exact hfine
  · refine h.exclusive.congr hsame.used ?_
    rw [slot_put hr', hpb, ← slot_eq hr', Function.update_eq_self, slot_congr hsame.requests]
  · rcases mem_put hq with hold | rfl
    · obtain ⟨id', hid'⟩ := List.mem_iff_getElem?.mp (hsame.requests ▸ hold)
      obtain ⟨pb, hslot, hsome, hbuffer⟩ := h.buffer q (hsame.requests ▸ hold) i hi
      have hused : s.Used i := (h.exclusive.used_iff i).mpr ⟨id', (slot_eq hid').trans hi⟩
      obtain ⟨pb', hpb', hinUse⟩ := hused
      obtain rfl : pb' = pb := Option.some.inj (hpb'.symm.trans hslot)
      exact ⟨pb', (hsame.pool i pb' hinUse).mpr hslot, hsome, hbuffer⟩
    · rw [hpb, hnone] at hi
      cases hi

/-- The slot of another request is not touched. -/
theorem Kept.buffer_of_changed {s s' : State} (h : Kept s) {i : ℕ} {inUse : Bool}
    (hchanged : Changed s s' i inUse) {q : PreviewRequest} (hq : q ∈ s.requests) {j : ℕ}
    (hj : q.pb = some j) (hne : j ≠ i) :
    ∃ pb, s'.pool[j]? = some pb ∧ pb.buffer.isSome = true ∧ q.buffer = pb.buffer := by
  rw [hchanged.other j hne]
  exact h.buffer q hq j hj

/-- A request takes the slot that the pool gives. -/
theorem Kept.put_attach {s s' : State} (h : Kept s) {i : ℕ} (hfree : ¬s.Used i)
    (hchanged : Changed s s' i true) {id : ℕ} {r r' : PreviewRequest}
    (hr : s.requests[id]? = some r)
    (hnone : r.pb = none) (hpb : r'.pb = some i)
    (hbuffer : r'.buffer = (s'.pool[i]?).bind (·.buffer))
    (hfine : r'.Fine) : Kept (put id r' s') := by
  have hr' : s'.requests[id]? = some r := hchanged.requests ▸ hr
  refine ⟨hchanged.broken.trans h.intact, fun q hq => ?_, ?_, fun q hq j hj => ?_⟩
  · rcases mem_put hq with hold | rfl
    · exact h.fine q (hchanged.requests ▸ hold)
    · exact hfine
  · rw [slot_put hr', hpb, slot_congr hchanged.requests]
    exact h.exclusive.attach ((slot_eq hr).trans hnone) hfree hchanged.used_attach
  · rcases mem_put hq with hold | rfl
    · have hold' : q ∈ s.requests := hchanged.requests ▸ hold
      obtain ⟨id', hid'⟩ := List.mem_iff_getElem?.mp hold'
      refine h.buffer_of_changed hchanged hold' hj ?_
      rintro rfl
      exact hfree ((h.exclusive.used_iff j).mpr ⟨id', (slot_eq hid').trans hj⟩)
    · obtain rfl : i = j := Option.some.inj (hpb.symm.trans hj)
      obtain ⟨pb, hhere, -, hsome⟩ := hchanged.here
      refine ⟨pb, hhere, hsome rfl, ?_⟩
      rw [hbuffer, hhere]
      rfl

/-- A request gives its slot back. -/
theorem Kept.put_detach {s s' : State} (h : Kept s) {i : ℕ} (hchanged : Changed s s' i false)
    {id : ℕ} {r r' : PreviewRequest} (hr : s.requests[id]? = some r) (hi : r.pb = some i)
    (hpb : r'.pb = none)
    (hfine : r'.Fine) : Kept (put id r' s') := by
  have hr' : s'.requests[id]? = some r := hchanged.requests ▸ hr
  have hslot : (put id r' s').slot = Function.update s.slot id none := by
    rw [slot_put hr', hpb, slot_congr hchanged.requests]
  have hexclusive : Exclusive (put id r' s').Used (put id r' s').slot :=
    hslot ▸ h.exclusive.detach ((slot_eq hr).trans hi) hchanged.used_detach
  refine ⟨hchanged.broken.trans h.intact, fun q hq => ?_, hexclusive, fun q hq j hj => ?_⟩
  · rcases mem_put hq with hold | rfl
    · exact h.fine q (hchanged.requests ▸ hold)
    · exact hfine
  · obtain ⟨id', hid'⟩ := List.mem_iff_getElem?.mp hq
    have hused : (put id r' s').Used j :=
      (hexclusive.used_iff j).mpr ⟨id', (slot_eq hid').trans hj⟩
    rcases mem_put hq with hold | rfl
    · exact h.buffer_of_changed hchanged (hchanged.requests ▸ hold) hj
        ((hchanged.used_detach j).mp hused).1
    · rw [hpb] at hj
      cases hj

/-- A request gives its buffer back, whichever it is. -/
theorem Kept.put_freeBuffer {s : State} (h : Kept s) {id : ℕ} {r r' : PreviewRequest}
    (hr : s.requests[id]? = some r) (hpb : r'.pb = none) (hfine : r'.Fine) {r₀ : PreviewRequest}
    (hr₀ : r₀.pb = r.pb) : Kept (put id r' (previewRequestFreeBuffer r₀ s).2) := by
  rw [previewRequestFreeBuffer, hr₀]
  cases hslot : r.pb with
  | none =>
    have hsame : Same s s := ⟨rfl, rfl, fun _ _ _ => Iff.rfl⟩
    exact h.put_same hsame hr (hpb.trans hslot.symm) hslot hfine
  | some i =>
    obtain ⟨pb, hpool, -⟩ := h.buffer r (List.mem_of_getElem? hr) i hslot
    have hchanged : Changed s (previewBufferRelease i s) i false := by
      refine ⟨rfl, rfl, fun j hj => ?_, { pb with inUse := false }, ?_, rfl, nofun⟩
      · exact List.getElem?_modify_ne _ _ (Ne.symm hj)
      · exact (List.getElem?_modify_eq _ _ _).trans (congrArg _ hpool)
    exact h.put_detach hchanged hr hslot hpb hfine

/-! ### The events -/

theorem freeBuffer_fst (r : PreviewRequest) (s : State) :
    (previewRequestFreeBuffer r s).1 = { r with pb := none, buffer := none, data := false } := by
  rw [previewRequestFreeBuffer]
  split
  · rfl
  · next hnone => rw [hnone]

/-- A request that is not in the list yet, and has no slot. -/
theorem Kept.append {s : State} (h : Kept s) {r : PreviewRequest} (hpb : r.pb = none)
    (hfine : r.Fine) :
    Kept { s with requests := s.requests ++ [r] } := by
  refine ⟨h.intact, fun q hq => ?_, ?_, fun q hq i hi => ?_⟩
  · rcases List.mem_append.mp hq with hold | hnew
    · exact h.fine q hold
    · exact List.mem_singleton.mp hnew ▸ hfine
  · refine h.exclusive.congr (fun _ => Iff.rfl) ?_
    funext id
    show ((s.requests ++ [r])[id]?).bind (·.pb) = (s.requests[id]?).bind (·.pb)
    rcases Nat.lt_trichotomy id s.requests.length with hlt | heq | hgt
    · rw [List.getElem?_append_left hlt]
    · rw [heq, List.getElem?_concat_length, List.getElem?_eq_none (Nat.le_refl _)]
      exact hpb
    · rw [List.getElem?_eq_none (by rw [List.length_append, List.length_singleton]; omega),
        List.getElem?_eq_none (Nat.le_of_lt hgt)]
  · rcases List.mem_append.mp hq with hold | hnew
    · exact h.buffer q hold i hi
    · rw [List.mem_singleton.mp hnew, hpb] at hi
      cases hi

theorem kept_capture {s : State} (h : Kept s) {external ready frame calloc : Bool}
    (hok : ready = true → frame = true → calloc = true) :
    Kept (capture external ready frame calloc s) := by
  rw [capture]
  split_ifs with hcaptured hmemory
  · exact h.append rfl ⟨rfl, rfl, rfl, rfl, rfl, rfl, rfl, rfl⟩
  · rw [Bool.and_eq_true] at hcaptured
    exact absurd (hok hcaptured.1 hcaptured.2) hmemory
  · exact h.append rfl ⟨rfl, rfl, rfl, ⟨0, 0, 0, false, rfl⟩, rfl⟩

/-- A request whose frame exists is as it was made, but for its buffer. -/
theorem Kept.live {s : State} (h : Kept s) {id : ℕ} {r : PreviewRequest}
    (hr : s.requests[id]? = some r) (hframe : r.frameExists = true) :
    r.ended = none ∧ r.frame = true ∧ r.allocated = true ∧ r.destroy = true ∧ r.cancelled = false ∧
      r.done = false ∧ r.calls = [] ∧ r.frees = 0 ∧ r.released = false := by
  have hfine := h.fine r (List.mem_of_getElem? hr)
  have hended := hfine.ended_of_frameExists hframe
  rw [PreviewRequest.Fine, hended] at hfine
  exact ⟨hended, hfine⟩

/-- Both functions of a request are called. -/
theorem answered (width height stride : UInt32) (data : Bool) {r : PreviewRequest}
    (hdestroy : r.destroy = true) (hcalls : r.calls = []) :
    (r.call width height stride data).callDestroy =
      { r with calls := [.callback width height stride data, .destroy], destroy := false } := by
  rw [PreviewRequest.callDestroy, if_pos (by exact hdestroy), PreviewRequest.call, hcalls]
  rfl

theorem kept_frameBuffer {s : State} (h : Kept s) {id : ℕ} {r : PreviewRequest}
    (hr : s.requests[id]? = some r) (hframe : r.frameExists = true) (hnone : r.pb = none)
    (g : Geometry) (slotAlloc ownAlloc : Bool) :
    Kept (frameBuffer id g slotAlloc ownAlloc r s) := by
  obtain ⟨hended, hfine⟩ := h.live hr hframe
  rw [frameBuffer]
  rcases previewBufferAcquire_spec g slotAlloc s with ⟨i, s', hacquire, hfree, hchanged⟩ |
    ⟨s', hacquire, hsame⟩
  · rw [hacquire]
    refine h.put_attach hfree hchanged hr hnone rfl rfl ?_
    rw [PreviewRequest.Fine, show _ = none from hended]
    exact hfine
  · rw [hacquire]
    dsimp only
    split_ifs
    · have hput :
          Kept (put id { r with geometry := g, buffer := some s'.buffers, data := true } s') := by
        refine h.put_same hsame hr rfl hnone ?_
        rw [PreviewRequest.Fine, show _ = none from hended]
        exact hfine
      exact ⟨hput.intact, hput.fine, hput.exclusive, hput.buffer⟩
    · obtain ⟨-, halloc, hdestroy, -, -, hcalls, hfrees, -⟩ := hfine
      rw [giveUp]
      dsimp only
      rw [answered 0 0 0 false (r := { r with geometry := g }) hdestroy hcalls]
      refine h.put_same hsame hr rfl hnone ⟨rfl, hnone, halloc, ⟨0, 0, 0, false, rfl⟩, ?_⟩
      rw [PreviewRequest.free]
      exact congrArg (· + 1) hfrees

/-- A terminal event: both functions are called, and the request is freed unless it has a token. -/
theorem kept_terminal {s : State} (h : Kept s) {id : ℕ} {r : PreviewRequest}
    (hr : s.requests[id]? = some r) (hframe : r.frameExists = true)
    (width height stride : UInt32) (data : Bool) :
    Kept (terminal id (if r.cancelled then r else r.call width height stride data) s) := by
  obtain ⟨-, -, halloc, hdestroy, hcancelled, hdone, hcalls, hfrees, hreleased⟩ := h.live hr hframe
  rw [if_neg (by rw [hcancelled]; decide), terminal]
  dsimp only
  rw [freeBuffer_fst]
  have hcall : PreviewRequest.callDestroy { r.call width height stride data with
      pb := none, buffer := none, data := false
      frameExists := false, frame := false, ended := some .terminal } =
    { r with
      pb := none, buffer := none, data := false
      frameExists := false, frame := false, ended := some .terminal
      calls := [.callback width height stride data, .destroy], destroy := false } := by
    rw [PreviewRequest.callDestroy, if_pos (by exact hdestroy), PreviewRequest.call, hcalls]
    rfl
  rw [hcall]
  refine h.put_freeBuffer hr ?_ ?_ rfl
  · split_ifs <;> rfl
  · split_ifs with hexternal
    · refine ⟨rfl, rfl, halloc, ⟨width, height, stride, data, rfl⟩, (by exact hexternal.symm), ?_⟩
      show r.frees = if r.external then r.released.toNat else 1
      rw [if_pos hexternal, hfrees, hreleased]
      rfl
    · refine ⟨rfl, rfl, halloc, ⟨width, height, stride, data, rfl⟩, ?_, ?_⟩
      · show r.done = r.external
        rw [hdone, Bool.eq_false_iff.mpr hexternal]
      · show r.frees + 1 = if r.external then r.released.toNat else 1
        rw [if_neg hexternal, hfrees]

theorem kept_cancelCapture {s : State} (h : Kept s) {id : ℕ} {r : PreviewRequest}
    (hr : s.requests[id]? = some r) (hexternal : r.external = true) (halloc : r.allocated = true)
    (hreleased : r.released = false) (hok : r.ended ≠ some .gaveUp) :
    Kept (cancelCapture id r s) := by
  have hfine := h.fine r (List.mem_of_getElem? hr)
  have hsame : Same s s := ⟨rfl, rfl, fun _ _ _ => Iff.rfl⟩
  rw [cancelCapture]
  dsimp only
  rw [PreviewRequest.Fine] at hfine
  split at hfine
  · next hended =>
    obtain ⟨hframe, -, hdestroy, -, hdone, hcalls, hfrees, -⟩ := hfine
    rw [if_neg (not_not.mpr hfrees), if_neg (by rw [hdone]; decide), freeBuffer_fst, hframe]
    refine h.put_freeBuffer hr ?_ ?_ rfl
    · rw [PreviewRequest.callDestroy]
      split_ifs <;> rfl
    · rw [PreviewRequest.callDestroy, if_pos (by exact hdestroy)]
      refine ⟨?_, rfl, halloc, ?_, rfl, ?_⟩
      · exact Bool.and_false _
      · exact congrArg (· ++ [Call.destroy]) hcalls
      · exact congrArg (· + 1) hfrees
  · next hended => exact absurd (halloc.symm.trans hfine.2.2.1) Bool.noConfusion
  · next hended =>
    obtain ⟨hframe, hpb, -, hanswered, hdone, hfrees⟩ := hfine
    have hunfreed : r.frees = 0 := by
      rw [hfrees, if_pos hexternal, hreleased]
      rfl
    rw [if_neg (not_not.mpr hunfreed), if_pos (hdone.trans hexternal)]
    refine h.put_same hsame hr rfl hpb ?_
    rw [PreviewRequest.Fine, show _ = some End.terminal from hended]
    refine ⟨hframe, hpb, halloc, hanswered, hdone, ?_⟩
    show r.frees + 1 = if r.external then 1 else 1
    rw [hunfreed, if_pos hexternal]
  · next hended => exact absurd hended hok
  · next hended => exact absurd (hreleased.symm.trans hfine.2.2.2.2.1) Bool.noConfusion

/-- **The step lemma.** -/
theorem kept_step {s : State} (h : Kept s) {e : Event} (hok : Regular s e) : Kept (step s e) := by
  have hintact : ¬s.broken = true := by
    rw [h.intact]
    decide
  rw [step.eq_def, if_neg hintact]
  cases e with
  | capture external ready frame calloc => exact kept_capture h hok
  | buffer id g slotAlloc ownAlloc =>
    dsimp only
    rw [onFrame]
    split
    · next r hr =>
      split_ifs with hframe
      · exact kept_frameBuffer h hr hframe (hok r hr hframe) g slotAlloc ownAlloc
      · exact h
    · exact h
  | ready id =>
    dsimp only
    rw [onFrame]
    split
    · next r hr =>
      split_ifs with hframe
      · exact kept_terminal h hr hframe _ _ _ _
      · exact h
    · exact h
  | failed id =>
    dsimp only
    rw [onFrame]
    split
    · next r hr =>
      split_ifs with hframe
      · exact kept_terminal h hr hframe _ _ _ _
      · exact h
    · exact h
  | cancel id =>
    dsimp only
    rw [onToken]
    split
    · next r hr =>
      split_ifs with htoken
      · rw [Bool.and_eq_true, Bool.and_eq_true, Bool.not_eq_true'] at htoken
        obtain ⟨⟨hexternal, halloc⟩, hreleased⟩ := htoken
        exact kept_cancelCapture h hr hexternal halloc hreleased (hok r hr hreleased)
      · exact h
    · exact h
  | trim =>
    have hsame := previewPoolTrim_same s
    refine ⟨h.intact, h.fine, h.exclusive.congr hsame.used rfl, fun r hr i hi => ?_⟩
    obtain ⟨id, hid⟩ := List.mem_iff_getElem?.mp hr
    obtain ⟨pb, hpb, hinUse⟩ := (h.exclusive.used_iff i).mpr ⟨id, (slot_eq hid).trans hi⟩
    obtain ⟨pb', hpb', hbuffer⟩ := h.buffer r hr i hi
    obtain rfl : pb = pb' := Option.some.inj (hpb.symm.trans hpb')
    exact ⟨pb, (hsame.pool i pb hinUse).mpr hpb, hbuffer⟩

/-! ### Runs -/

theorem kept_init : Kept {} := by
  refine ⟨rfl, fun r hr => absurd hr List.not_mem_nil,
    ⟨fun i => iff_of_false ?_ ?_, fun a b i ha => ?_⟩, fun r hr => absurd hr List.not_mem_nil⟩
  · rintro ⟨pb, hpb, hinUse⟩
    have hmem : pb ∈ List.replicate previewPoolMax ({} : PreviewBuffer) := List.mem_of_getElem? hpb
    rw [List.eq_of_mem_replicate hmem] at hinUse
    cases hinUse
  · rintro ⟨a, ha⟩
    cases ha
  · cases ha

/-- **Each preview request ends once**, in every run in which there is memory for the requests, no
frame that has a slot of the pool announces another buffer, and no token is given back after its
request was freed. -/
theorem sound_of_regular {events : List Event} (h : Transition.Guarded step Regular {} events) :
    Sound (run events) :=
  (h.invariant (P := Kept) (fun _ _ hs he => kept_step hs he) kept_init).sound

/-- A capture that can be cancelled, which ends before its token is given back. -/
def completed : List Event :=
  [.capture true true true true, .buffer 0 ⟨0, 64, 64, 256⟩ true true, .ready 0, .cancel 0]

theorem sound_completed : Sound (run completed) := by
  refine sound_of_regular ⟨fun _ _ => rfl, fun r hr _ => ?_, trivial, fun r hr _ => ?_, trivial⟩
  · rw [← Option.some.inj hr]
  · have hended : (run (completed.take 3)).requests[0]?.map (·.ended) = some (some .terminal) := by
      decide +kernel
    have hr' : (run (completed.take 3)).requests[0]? = some r := hr
    rw [hr'] at hended
    rw [show r.ended = some End.terminal from Option.some.inj hended]
    decide

/-- No buffer can be made for a capture, and then it is cancelled. -/
def exhausted : List Event :=
  [.capture true true true true, .buffer 0 ⟨0, 64, 64, 256⟩ false false, .cancel 0]

theorem not_sound : ¬∀ events, Sound (run events) := fun h =>
  absurd (h exhausted).intact (by decide)

end Preview

end SingularityShell
