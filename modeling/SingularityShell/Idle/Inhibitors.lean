import Mathlib.Data.List.Nodup
import Mathlib.Data.List.Perm.Basic
import SingularityShell.Idle.Model
import SingularityShell.Lib.Lists
import SingularityShell.Lib.Transition

/-!
# The inhibitors and the senders that are watched

An application holds idle actions back with a call over the bus, until it releases the cookie that
the call returned or leaves the bus. The bus is asked to watch each sender that has an inhibitor.

## Main definitions

* `Idle.Service` — the inhibitors, and the names that the bus watches
* `Idle.Live` — an inhibitor that was added and has not ended since

## Main results

* `Idle.live_append` — the inhibitors that one event adds and ends
* `Idle.inhibitors_sound` — the registry holds the inhibitors that live, and watches their senders
-/

namespace SingularityShell

namespace Idle

open Ascii

/-! ### The service -/

/-- The name of a sender, which is not empty. -/
abbrev BusName := { name : Text // name ≠ [] }

structure Service where
  inhibitors : IdleInhibitors := {}
  /-- `watches`: the id of the watch of each sender. -/
  watches : List (Text × ℕ) := []
  /-- The names that the bus watches. -/
  busWatches : List (Text × ℕ) := []
  nextWatch : ℕ := 1

namespace Service

/-- `watch_sender`, with the connection to the bus. -/
def watchSender (sender : Text) (s : Service) : Service :=
  if sender = [] ∨ s.watches.any (·.1 = sender) then s
  else
    { s with
      watches := s.watches ++ [(sender, s.nextWatch)]
      busWatches := s.busWatches ++ [(sender, s.nextWatch)]
      nextWatch := s.nextWatch + 1 }

/-- `watches.unset`, and `Bus.unwatch_name` for the watch that was there. -/
def unsetWatch (sender : Text) (s : Service) : Service :=
  match s.watches.find? (·.1 = sender) with
  | some watch =>
    { s with
      watches := s.watches.filter (·.1 ≠ sender)
      busWatches := s.busWatches.filter (·.2 ≠ watch.2) }
  | none => s

/-- `drop_watch_if_unused` -/
def dropWatchIfUnused (sender : Text) (s : Service) : Service :=
  if s.inhibitors.list.any (·.sender = sender) then s else unsetWatch sender s

/-- `add`, which returns the cookie. -/
def add (sender : Text) (flags : UInt32) (s : Service) : UInt32 × Service :=
  (s.inhibitors.nextCookie,
    watchSender sender { s with inhibitors := s.inhibitors.add sender flags })

/-- `remove` -/
def remove (cookie : UInt32) (sender : Text) (s : Service) : Service :=
  match s.inhibitors.remove cookie sender with
  | some inhibitors => dropWatchIfUnused sender { s with inhibitors }
  | none => s

/-- `release_sender` -/
def releaseSender (sender : Text) (s : Service) : Service :=
  let s := unsetWatch sender s
  { s with inhibitors := (s.inhibitors.releaseSender sender).getD s.inhibitors }

end Service

/-! ### Calls -/

/-- A call over the bus, or the end of a sender's connection. -/
inductive Call where
  /-- `ScreenSaverService.inhibit` -/
  | screenSaverInhibit (sender : BusName)
  /-- `InhibitorService.inhibit` -/
  | inhibit (sender : BusName) (flags : UInt32)
  | unInhibit (cookie : UInt32) (sender : BusName)
  | left (sender : BusName)

/-- The sender and the flags of an inhibitor that a call adds. -/
def Call.added : Call → Option (BusName × UInt32)
  | .screenSaverInhibit sender => some (sender, idleFlag ||| suspendFlag)
  | .inhibit sender flags => some (sender, flags)
  | _ => none

/-- A call is handled. The bus tells that a sender left when it watches the name. -/
def Service.step (s : Service) : Call → Service
  | .screenSaverInhibit sender => (s.add sender.1 (idleFlag ||| suspendFlag)).2
  | .inhibit sender flags => (s.add sender.1 flags).2
  | .unInhibit cookie sender => s.remove cookie sender.1
  | .left sender => if s.busWatches.any (·.1 = sender.1) then s.releaseSender sender.1 else s

/-- The service after the calls. -/
def serve (calls : List Call) : Service := Transition.run Service.step {} calls

/-- A call that ends an inhibitor. -/
def Call.Ends (call : Call) (i : IdleInhibitor) : Prop :=
  match call with
  | .unInhibit cookie sender => cookie = i.cookie ∧ sender.1 = i.sender
  | .left sender => sender.1 = i.sender
  | _ => False

/-- An inhibitor was added, with the cookie that its call returned, and no later call ended it. -/
def Live (calls : List Call) (i : IdleInhibitor) : Prop :=
  ∃ before call after sender, calls = before ++ call :: after ∧
    call.added = some (sender, i.flags) ∧ sender.1 = i.sender ∧
    i.cookie = ((serve before).add sender.1 i.flags).1 ∧ ∀ later ∈ after, ¬later.Ends i

/-- The number of inhibitors that the calls add. -/
def additions (calls : List Call) : ℕ := calls.countP (·.added.isSome)

/-- The registry holds the inhibitors that live, a release that is not of a live inhibitor and its
sender changes nothing, the cookies differ, and the bus watches each sender that has an inhibitor
once. -/
structure Sound (calls : List Call) (s : Service) : Prop where
  inhibits : ∀ flags, s.inhibitors.inhibits flags false = true ↔
    ∃ i, Live calls i ∧ i.flags &&& flags ≠ 0
  release : ∀ cookie (sender : BusName),
    (∀ i, Live calls i → ¬(i.cookie = cookie ∧ i.sender = sender.1)) →
      s.step (.unInhibit cookie sender) = s
  cookies : (s.inhibitors.list.map (·.cookie)).Nodup
  watches : ∀ sender, sender ∈ s.watches.map Prod.fst ↔ ∃ i, Live calls i ∧ i.sender = sender
  once : (s.watches.map Prod.fst).Nodup ∧ (s.watches.map Prod.snd).Nodup ∧
    s.busWatches = s.watches

/-! ### One call -/

theorem serve_append (calls : List Call) (call : Call) :
    serve (calls ++ [call]) = (serve calls).step call :=
  Transition.run_append _ calls [call]

/-- **The inhibitors that live after one more call.** -/
theorem live_append {calls : List Call} {call : Call} {i : IdleInhibitor} :
    Live (calls ++ [call]) i ↔ Live calls i ∧ ¬call.Ends i ∨
      ∃ sender, call.added = some (sender, i.flags) ∧ sender.1 = i.sender ∧
        i.cookie = ((serve calls).add sender.1 i.flags).1 := by
  constructor
  · rintro ⟨before, first, after, sender, hcalls, hadded, hsender, hcookie, hlater⟩
    rcases Lists.concat_eq_append_cons hcalls with ⟨rfl, rfl, rfl⟩ | ⟨after, rfl, rfl⟩
    · exact Or.inr ⟨sender, hadded, hsender, hcookie⟩
    · refine Or.inl ⟨⟨before, first, after, sender, rfl, hadded, hsender, hcookie,
        fun later hmem => hlater later (List.mem_append_left _ hmem)⟩, ?_⟩
      exact hlater _ (List.mem_append_right _ (List.mem_singleton_self _))
  · rintro (⟨⟨before, first, after, sender, rfl, hadded, hsender, hcookie, hlater⟩, hends⟩ |
      ⟨sender, hadded, hsender, hcookie⟩)
    · refine ⟨before, first, after ++ [call], sender, ?_, hadded, hsender, hcookie,
        fun later hmem => ?_⟩
      · rw [List.append_assoc, List.cons_append]
      · rcases List.mem_append.mp hmem with hold | hnew
        · exact hlater later hold
        · rw [List.mem_singleton.mp hnew]
          exact hends
    · exact ⟨calls, call, [], sender, rfl, hadded, hsender, hcookie, List.forall_mem_nil _⟩

/-- What the calls keep of the two tables. -/
structure Tables (s : Service) : Prop where
  cookies : (s.inhibitors.list.map (·.cookie)).Nodup
  senders : (s.watches.map Prod.fst).Nodup
  ids : (s.watches.map Prod.snd).Nodup
  fresh : ∀ watch ∈ s.watches, watch.2 < s.nextWatch
  bus : s.busWatches = s.watches
  watched : ∀ sender, sender ∈ s.watches.map Prod.fst ↔
    ∃ i ∈ s.inhibitors.list, i.sender = sender

variable {s : Service}

theorem any_sender {α : Type*} {l : List α} {f : α → Text} {sender : Text} :
    l.any (fun a => f a = sender) = true ↔ ∃ a ∈ l, f a = sender := by
  rw [List.any_eq_true]
  exact exists_congr fun a => and_congr_right fun _ => decide_eq_true_iff

theorem unsetWatch_inhibitors (sender : Text) (s : Service) (inhibitors : IdleInhibitors) :
    Service.unsetWatch sender { s with inhibitors } =
      { Service.unsetWatch sender s with inhibitors } := by
  rw [Service.unsetWatch, Service.unsetWatch]
  cases s.watches.find? (·.1 = sender) <;> rfl

/-- The watches after the watch of a sender is dropped. -/
theorem Tables.unsetWatch (h : Tables s) {inhibitors : IdleInhibitors} (sender : Text)
    (hcookies : (inhibitors.list.map (·.cookie)).Nodup)
    (hrest : ∀ other, (∃ i ∈ inhibitors.list, i.sender = other) ↔
      (∃ i ∈ s.inhibitors.list, i.sender = other) ∧ other ≠ sender) :
    Tables { Service.unsetWatch sender s with inhibitors } := by
  have hmem : ∀ other, other ∈ (s.watches.filter (·.1 ≠ sender)).map Prod.fst ↔
      other ∈ s.watches.map Prod.fst ∧ other ≠ sender := fun other => by
    constructor
    · intro hin
      obtain ⟨watch, hwatch, rfl⟩ := List.mem_map.mp hin
      obtain ⟨hwatch, hne⟩ := List.mem_filter.mp hwatch
      exact ⟨List.mem_map_of_mem hwatch, of_decide_eq_true hne⟩
    · rintro ⟨hin, hne⟩
      obtain ⟨watch, hwatch, rfl⟩ := List.mem_map.mp hin
      exact List.mem_map_of_mem (List.mem_filter.mpr ⟨hwatch, decide_eq_true hne⟩)
  rw [Service.unsetWatch]
  cases hfind : s.watches.find? (·.1 = sender) with
  | none =>
    have hnot : sender ∉ s.watches.map Prod.fst := fun hin => by
      obtain ⟨watch, hwatch, he⟩ := List.mem_map.mp hin
      exact List.find?_eq_none.mp hfind watch hwatch (decide_eq_true he)
    refine ⟨hcookies, h.senders, h.ids, h.fresh, h.bus, fun other => ?_⟩
    refine (h.watched other).trans (Iff.trans ?_ (hrest other).symm)
    refine (and_iff_left_of_imp fun hin he => ?_).symm
    rw [he] at hin
    exact hnot ((h.watched sender).mpr hin)
  | some watch =>
    obtain ⟨hwatch, he⟩ := Lists.of_find? hfind
    refine ⟨hcookies, h.senders.sublist (List.filter_sublist.map _),
      h.ids.sublist (List.filter_sublist.map _),
      fun other hin => h.fresh other (List.mem_of_mem_filter hin), ?_, fun other => ?_⟩
    · show s.busWatches.filter (·.2 ≠ watch.2) = s.watches.filter (·.1 ≠ sender)
      rw [h.bus]
      refine List.filter_congr fun other hother => decide_eq_decide.mpr (not_congr ?_)
      constructor
      · intro hid
        rw [List.inj_on_of_nodup_map h.ids hother hwatch hid]
        exact he
      · intro hname
        rw [List.inj_on_of_nodup_map h.senders hother hwatch (hname.trans he.symm)]
    · exact (hmem other).trans ((and_congr_left' (h.watched other)).trans (hrest other).symm)

theorem Tables.add (h : Tables s) {sender : Text} (hne : sender ≠ []) (flags : UInt32)
    (hfresh : s.inhibitors.nextCookie ∉ s.inhibitors.list.map (·.cookie)) :
    Tables (s.add sender flags).2 := by
  have hcookies : ((s.inhibitors.add sender flags).list.map (·.cookie)).Nodup := by
    rw [IdleInhibitors.add, List.map_append]
    exact h.cookies.append (List.nodup_singleton _) (List.disjoint_singleton.mpr hfresh)
  have hsenders : ∀ other, (∃ i ∈ (s.inhibitors.add sender flags).list, i.sender = other) ↔
      (∃ i ∈ s.inhibitors.list, i.sender = other) ∨ other = sender := fun other => by
    constructor
    · rintro ⟨i, hi, rfl⟩
      rcases List.mem_append.mp hi with hold | hnew
      · exact Or.inl ⟨i, hold, rfl⟩
      · exact Or.inr (by rw [List.mem_singleton.mp hnew])
    · rintro (⟨i, hi, rfl⟩ | rfl)
      · exact ⟨i, List.mem_append_left _ hi, rfl⟩
      · exact ⟨_, List.mem_append_right _ (List.mem_singleton_self _), rfl⟩
  rw [Service.add, Service.watchSender]
  by_cases hwatched : ∃ watch ∈ s.watches, watch.1 = sender
  · rw [if_pos (Or.inr (any_sender.mpr hwatched))]
    refine ⟨hcookies, h.senders, h.ids, h.fresh, h.bus, fun other => ?_⟩
    refine (h.watched other).trans (Iff.trans ?_ (hsenders other).symm)
    refine (or_iff_left_of_imp fun he => (h.watched other).mp ?_).symm
    rw [he]
    exact List.mem_map.mpr hwatched
  · rw [if_neg (not_or.mpr ⟨hne, fun hany => hwatched (any_sender.mp hany)⟩)]
    have hsender : sender ∉ s.watches.map Prod.fst := fun hin => hwatched (List.mem_map.mp hin)
    have hid : s.nextWatch ∉ s.watches.map Prod.snd := fun hin => by
      obtain ⟨watch, hwatch, he⟩ := List.mem_map.mp hin
      exact Nat.lt_irrefl _ (he ▸ h.fresh watch hwatch)
    refine ⟨hcookies, ?_, ?_, ?_, ?_, fun other => ?_⟩
    · show ((s.watches ++ [(sender, s.nextWatch)]).map Prod.fst).Nodup
      rw [List.map_append]
      exact h.senders.append (List.nodup_singleton _) (List.disjoint_singleton.mpr hsender)
    · show ((s.watches ++ [(sender, s.nextWatch)]).map Prod.snd).Nodup
      rw [List.map_append]
      exact h.ids.append (List.nodup_singleton _) (List.disjoint_singleton.mpr hid)
    · intro watch hmem
      rcases List.mem_append.mp hmem with hold | hnew
      · exact Nat.lt_succ_of_lt (h.fresh watch hold)
      · rw [List.mem_singleton.mp hnew]
        exact Nat.lt_succ_self _
    · exact congrArg (· ++ [(sender, s.nextWatch)]) h.bus
    · show other ∈ (s.watches ++ [(sender, s.nextWatch)]).map Prod.fst ↔ _
      rw [List.map_append, List.mem_append, h.watched, hsenders]
      exact or_congr_right List.mem_singleton

/-- What a release does: nothing, or one inhibitor of the sender is gone. -/
theorem remove_cases (h : Tables s) (cookie : UInt32) (sender : Text) :
    s.remove cookie sender = s ∧
      (∀ i ∈ s.inhibitors.list, ¬(i.cookie = cookie ∧ i.sender = sender)) ∨
    ∃ i ∈ s.inhibitors.list, i.cookie = cookie ∧ i.sender = sender ∧
      s.remove cookie sender = Service.dropWatchIfUnused sender
        { s with inhibitors := { s.inhibitors with list := s.inhibitors.list.erase i } } := by
  rw [Service.remove, IdleInhibitors.remove]
  cases hfind : s.inhibitors.list.find? (·.cookie = cookie) with
  | none =>
    refine Or.inl ⟨rfl, fun i hi hboth => ?_⟩
    exact List.find?_eq_none.mp hfind i hi (decide_eq_true hboth.1)
  | some i =>
    obtain ⟨hi, hcookie⟩ := Lists.of_find? hfind
    dsimp only
    by_cases hsender : i.sender = sender
    · rw [if_neg (not_not.mpr hsender)]
      exact Or.inr ⟨i, hi, hcookie, hsender, rfl⟩
    · rw [if_pos hsender]
      refine Or.inl ⟨rfl, fun j hj hboth => hsender ?_⟩
      rw [← List.inj_on_of_nodup_map h.cookies hj hi (hboth.1.trans hcookie.symm)]
      exact hboth.2

theorem Tables.dropWatchIfUnused (h : Tables s) {i : IdleInhibitor}
    (hi : i ∈ s.inhibitors.list) :
    Tables (Service.dropWatchIfUnused i.sender
      { s with inhibitors := { s.inhibitors with list := s.inhibitors.list.erase i } }) := by
  have hcookies : ((s.inhibitors.list.erase i).map (·.cookie)).Nodup :=
    h.cookies.sublist (List.erase_sublist.map _)
  have hlist : s.inhibitors.list.Nodup := h.cookies.of_map _
  rw [Service.dropWatchIfUnused]
  by_cases hused : ∃ j ∈ s.inhibitors.list.erase i, j.sender = i.sender
  · rw [if_pos (any_sender.mpr hused)]
    refine ⟨hcookies, h.senders, h.ids, h.fresh, h.bus, fun other => (h.watched other).trans ?_⟩
    constructor
    · rintro ⟨j, hj, rfl⟩
      by_cases he : j = i
      · rw [he]
        exact hused
      · exact ⟨j, hlist.mem_erase_iff.mpr ⟨he, hj⟩, rfl⟩
    · rintro ⟨j, hj, rfl⟩
      exact ⟨j, List.mem_of_mem_erase hj, rfl⟩
  · rw [if_neg fun hany => hused (any_sender.mp hany)]
    rw [unsetWatch_inhibitors]
    refine h.unsetWatch i.sender hcookies fun other => ?_
    constructor
    · rintro ⟨j, hj, rfl⟩
      exact ⟨⟨j, List.mem_of_mem_erase hj, rfl⟩, fun he => hused ⟨j, hj, he⟩⟩
    · rintro ⟨⟨j, hj, rfl⟩, hne⟩
      refine ⟨j, hlist.mem_erase_iff.mpr ⟨?_, hj⟩, rfl⟩
      rintro rfl
      exact hne rfl

theorem mem_releaseSender {r : IdleInhibitors} {sender : Text} {i : IdleInhibitor} :
    i ∈ ((r.releaseSender sender).getD r).list ↔ i ∈ r.list ∧ i.sender ≠ sender := by
  rw [IdleInhibitors.releaseSender]
  split_ifs with hany
  · rw [Option.getD_some, List.mem_filter, decide_eq_true_iff]
  · refine (and_iff_left_of_imp fun hi he => hany ?_).symm
    exact any_sender.mpr ⟨i, hi, he⟩

theorem nodup_releaseSender {r : IdleInhibitors} (h : (r.list.map (·.cookie)).Nodup)
    (sender : Text) : (((r.releaseSender sender).getD r).list.map (·.cookie)).Nodup := by
  rw [IdleInhibitors.releaseSender]
  split_ifs
  · exact h.sublist (List.filter_sublist.map _)
  · exact h

theorem Tables.releaseSender (h : Tables s) (sender : Text) : Tables (s.releaseSender sender) := by
  have hinhibitors : (Service.unsetWatch sender s).inhibitors = s.inhibitors := by
    rw [Service.unsetWatch]
    cases s.watches.find? (·.1 = sender) <;> rfl
  rw [Service.releaseSender, hinhibitors]
  refine h.unsetWatch sender (nodup_releaseSender h.cookies sender) fun other => ?_
  constructor
  · rintro ⟨i, hi, rfl⟩
    obtain ⟨hold, hne⟩ := mem_releaseSender.mp hi
    exact ⟨⟨i, hold, rfl⟩, hne⟩
  · rintro ⟨⟨i, hi, rfl⟩, hne⟩
    exact ⟨i, mem_releaseSender.mpr ⟨hi, hne⟩, rfl⟩

/-! ### Runs -/

/-- What the calls keep, besides the tables: the registry holds the inhibitors that live, and no
cookie comes back. -/
structure Kept (calls : List Call) (s : Service) : Prop where
  tables : Tables s
  live : ∀ i, i ∈ s.inhibitors.list ↔ Live calls i
  next : s.inhibitors.nextCookie.toNat = additions calls + 1
  used : ∀ i ∈ s.inhibitors.list, i.cookie.toNat ≤ additions calls

theorem Kept.fresh {calls : List Call} (h : Kept calls s) :
    s.inhibitors.nextCookie ∉ s.inhibitors.list.map (·.cookie) := fun hmem => by
  obtain ⟨i, hi, he⟩ := List.mem_map.mp hmem
  have hused := h.used i hi
  rw [he, h.next] at hused
  exact Nat.lt_irrefl _ hused

theorem step_of_added {call : Call} {sender : BusName} {flags : UInt32}
    (h : call.added = some (sender, flags)) : s.step call = (s.add sender.1 flags).2 := by
  cases call with
  | screenSaverInhibit other =>
    obtain ⟨rfl, rfl⟩ := Prod.mk.inj (Option.some.inj h)
    rfl
  | inhibit other otherFlags =>
    obtain ⟨rfl, rfl⟩ := Prod.mk.inj (Option.some.inj h)
    rfl
  | unInhibit cookie other => cases h
  | left other => cases h

theorem add_inhibitors (sender : Text) (flags : UInt32) :
    (s.add sender flags).2.inhibitors = s.inhibitors.add sender flags := by
  rw [Service.add, Service.watchSender]
  split_ifs <;> rfl

theorem additions_append (calls : List Call) (call : Call) :
    additions (calls ++ [call]) = additions calls + if call.added.isSome then 1 else 0 := by
  rw [additions, List.countP_append, List.countP_singleton]
  rfl

/-- One call more that adds an inhibitor. -/
theorem Kept.added {calls : List Call} {call : Call} {sender : BusName} {flags : UInt32}
    (h : Kept calls s) (hs : s = serve calls) (hadded : call.added = some (sender, flags))
    (hbound : additions calls + 1 < 2 ^ 32 - 1) : Kept (calls ++ [call]) (s.step call) := by
  have hcount : additions (calls ++ [call]) = additions calls + 1 := by
    rw [additions_append, hadded]
    rfl
  have hends : ∀ i, ¬call.Ends i := fun i => by
    cases call with
    | screenSaverInhibit other => exact id
    | inhibit other otherFlags => exact id
    | unInhibit cookie other => cases hadded
    | left other => cases hadded
  rw [step_of_added hadded]
  refine ⟨h.tables.add sender.2 flags h.fresh, fun i => ?_, ?_, fun i hi => ?_⟩
  · rw [add_inhibitors, IdleInhibitors.add, live_append, ← h.live, and_iff_left (hends i),
      List.mem_append, List.mem_singleton]
    refine or_congr_right ?_
    rw [← hs]
    constructor
    · rintro rfl
      exact ⟨sender, hadded, rfl, rfl⟩
    · rintro ⟨other, hother, hsender, hcookie⟩
      obtain ⟨rfl, rfl⟩ := Prod.mk.inj (Option.some.inj (hadded.symm.trans hother))
      obtain ⟨cookie, flags, name⟩ := i
      obtain rfl : sender.1 = name := hsender
      obtain rfl : cookie = s.inhibitors.nextCookie := hcookie
      rfl
  · rw [add_inhibitors, IdleInhibitors.add, hcount]
    show (s.inhibitors.nextCookie + 1).toNat = _
    rw [UInt32.toNat_add, h.next]
    exact Nat.mod_eq_of_lt (by show additions calls + 1 + 1 < 2 ^ 32; omega)
  · rw [hcount]
    rw [add_inhibitors] at hi
    rcases List.mem_append.mp hi with hold | hnew
    · exact Nat.le_succ_of_le (h.used i hold)
    · rw [List.mem_singleton.mp hnew]
      exact h.next.le

/-- One call more that ends some inhibitors. -/
theorem Kept.ended {calls : List Call} {call : Call} (h : Kept calls s) (hadded : call.added = none)
    (htables : Tables (s.step call))
    (hlist : ∀ i, i ∈ (s.step call).inhibitors.list ↔ i ∈ s.inhibitors.list ∧ ¬call.Ends i)
    (hnext : (s.step call).inhibitors.nextCookie = s.inhibitors.nextCookie) :
    Kept (calls ++ [call]) (s.step call) := by
  have hcount : additions (calls ++ [call]) = additions calls := by
    rw [additions_append, hadded]
    rfl
  refine ⟨htables, fun i => ?_, ?_, fun i hi => ?_⟩
  · rw [hlist, live_append, h.live, hadded]
    refine (or_iff_left ?_).symm
    rintro ⟨sender, hnone, -⟩
    cases hnone
  · rw [hnext, hcount, h.next]
  · rw [hcount]
    exact h.used i ((hlist i).mp hi).1

theorem Kept.unInhibit {calls : List Call} (h : Kept calls s) (cookie : UInt32)
    (sender : BusName) :
    Kept (calls ++ [.unInhibit cookie sender]) (s.step (.unInhibit cookie sender)) := by
  have hlist := h.tables.cookies.of_map
  rcases remove_cases h.tables cookie sender.1 with ⟨hsame, hnone⟩ |
    ⟨i, hi, hcookie, hsender, hdrop⟩
  · refine h.ended rfl ?_ (fun i => ?_) ?_
    · rw [Service.step, hsame]
      exact h.tables
    · rw [Service.step, hsame]
      refine (and_iff_left_of_imp fun hi hends => ?_).symm
      exact hnone i hi ⟨hends.1.symm, hends.2.symm⟩
    · rw [Service.step, hsame]
  · have hinhibitors : (s.remove cookie sender.1).inhibitors =
        { s.inhibitors with list := s.inhibitors.list.erase i } := by
      rw [hdrop, Service.dropWatchIfUnused, unsetWatch_inhibitors]
      split_ifs <;> rfl
    refine h.ended rfl ?_ (fun j => ?_) ?_
    · rw [Service.step, hdrop, ← hsender]
      exact h.tables.dropWatchIfUnused hi
    · rw [Service.step, hinhibitors, hlist.mem_erase_iff, and_comm]
      refine and_congr_right fun hj => not_congr ?_
      constructor
      · rintro rfl
        exact ⟨hcookie.symm, hsender.symm⟩
      · rintro ⟨he, -⟩
        exact List.inj_on_of_nodup_map h.tables.cookies hj hi (he.symm.trans hcookie.symm)
    · rw [Service.step, hinhibitors]

theorem Kept.left {calls : List Call} (h : Kept calls s) (sender : BusName) :
    Kept (calls ++ [.left sender]) (s.step (.left sender)) := by
  have hwatched : s.busWatches.any (·.1 = sender.1) = true ↔
      ∃ i ∈ s.inhibitors.list, i.sender = sender.1 := by
    rw [h.tables.bus, any_sender, ← h.tables.watched, List.mem_map]
  by_cases hany : s.busWatches.any (·.1 = sender.1) = true
  · have hstep : s.step (.left sender) = s.releaseSender sender.1 := if_pos hany
    have hinhibitors : (Service.unsetWatch sender.1 s).inhibitors = s.inhibitors := by
      rw [Service.unsetWatch]
      cases s.watches.find? (·.1 = sender.1) <;> rfl
    refine h.ended rfl ?_ (fun i => ?_) ?_
    · rw [hstep]
      exact h.tables.releaseSender sender.1
    · rw [hstep, Service.releaseSender]
      dsimp only
      rw [hinhibitors, mem_releaseSender]
      exact and_congr_right fun _ => not_congr eq_comm
    · rw [hstep, Service.releaseSender]
      dsimp only
      rw [hinhibitors, IdleInhibitors.releaseSender]
      split_ifs <;> rfl
  · have hstep : s.step (.left sender) = s := if_neg hany
    refine h.ended rfl ?_ (fun i => ?_) ?_
    · rw [hstep]
      exact h.tables
    · rw [hstep]
      refine (and_iff_left_of_imp fun hi hends => hany ?_).symm
      exact hwatched.mpr ⟨i, hi, hends.symm⟩
    · rw [hstep]

theorem kept_serve {calls : List Call} (h : additions calls < 2 ^ 32 - 1) :
    Kept calls (serve calls) := by
  induction calls using List.reverseRecOn with
  | nil =>
    refine ⟨⟨List.nodup_nil, List.nodup_nil, List.nodup_nil, List.forall_mem_nil _, rfl,
      fun sender => ⟨fun hmem => absurd hmem List.not_mem_nil, ?_⟩⟩, fun i => ⟨fun hmem =>
        absurd hmem List.not_mem_nil, ?_⟩, rfl, List.forall_mem_nil _⟩
    · rintro ⟨i, hi, -⟩
      cases hi
    · rintro ⟨before, call, after, sender, hnil, -⟩
      exact absurd hnil.symm (List.append_ne_nil_of_right_ne_nil _ (List.cons_ne_nil _ _))
  | append_singleton calls call ih =>
    have hle : additions calls ≤ additions (calls ++ [call]) := by
      rw [additions_append]
      exact Nat.le_add_right _ _
    have hkept := ih (Nat.lt_of_le_of_lt hle h)
    rw [serve_append]
    cases call with
    | screenSaverInhibit sender =>
      rw [additions_append] at h
      exact hkept.added rfl rfl h
    | inhibit sender flags =>
      rw [additions_append] at h
      exact hkept.added rfl rfl h
    | unInhibit cookie sender => exact hkept.unInhibit cookie sender
    | left sender => exact hkept.left sender

/-- **The inhibitors and the watches are those of the calls**, as long as the cookies last. -/
theorem inhibitors_sound {calls : List Call} (h : additions calls < 2 ^ 32 - 1) :
    Sound calls (serve calls) := by
  have hkept := kept_serve h
  refine ⟨fun flags => ?_, fun cookie sender hnone => ?_, hkept.tables.cookies, fun sender => ?_,
    hkept.tables.senders, hkept.tables.ids, hkept.tables.bus⟩
  · rw [IdleInhibitors.inhibits, Bool.false_and, Bool.false_and, Bool.false_or, List.any_eq_true]
    refine exists_congr fun i => ?_
    rw [hkept.live, decide_eq_true_iff]
  · rcases remove_cases hkept.tables cookie sender.1 with ⟨hsame, -⟩ | ⟨i, hi, hcookie, hsender, -⟩
    · exact hsame
    · exact absurd ⟨hcookie, hsender⟩ (hnone i ((hkept.live i).mp hi))
  · rw [hkept.tables.watched]
    exact exists_congr fun i => and_congr_left' (hkept.live i)

/-- Two inhibitors of one sender, of which it releases one before it leaves. -/
theorem inhibitors_sound_two :
    Sound [.screenSaverInhibit ⟨[58], by decide⟩, .inhibit ⟨[58], by decide⟩ 8,
        .unInhibit 1 ⟨[58], by decide⟩, .left ⟨[58], by decide⟩]
      (serve [.screenSaverInhibit ⟨[58], by decide⟩, .inhibit ⟨[58], by decide⟩ 8,
        .unInhibit 1 ⟨[58], by decide⟩, .left ⟨[58], by decide⟩]) :=
  inhibitors_sound (by decide)

end Idle

end SingularityShell
