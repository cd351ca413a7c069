import SingularityShell.Lib.Transition
import SingularityShell.Notifications.History

/-!
# Identifiers in the history

Notifications in the history have different identifiers, and the one that was stored last comes
first. Whether a new notification gets a new identifier depends on what clients have named before.

## Main definitions

* `Notifications.Respected` — what a call does to the history
* `Notifications.Named` — a client names no identifier that was not handed out

## Main results

* `Notifications.history_respected` — the history is respected while clients name what they were
  given
* `Notifications.not_respected` — a notification with an identifier of the client is replaced later
-/

namespace SingularityShell

namespace Notifications

open Ascii Transition Utf8 NotificationManager

variable (lib : Json.Library)

/-- **What a call does to the history.** Its identifiers are different and in the order in which the
notifications were stored, the last one in front. A stored notification is the first, and there are
no more than the limit. A new notification has an identifier that no other one has. -/
structure Respected (m : NotificationManager) (c : Call) : Prop where
  nodup : (ids (m.step lib c).history).Nodup
  newest : (ids (m.step lib c).history).Sublist (m.step lib c).stored
  limit : ∀ r replacesId ns now, c = .notify r replacesId ns now → r.decision.store = true →
    (m.step lib c).history.length ≤ historyLimit ns ∧
      (m.step lib c).history.head? = some (Request.entry r (m.notify r replacesId ns now).1 now)
  fresh : ∀ r ns now, c = .notify r 0 ns now → (m.notify r 0 ns now).1 ∉ ids m.history

/-- A notification that is stored names no identifier, or one that was handed out. -/
def Named (m : NotificationManager) : Call → Prop
  | .notify r replacesId _ _ =>
    replacesId ≠ 0 → r.decision.store = true → replacesId < m.nextId
  | _ => True

/-- The call is a notification. -/
def Call.isNotify : Call → Bool
  | .notify _ _ _ _ => true
  | _ => false

/-- A notification that the file keeps. -/
structure Storable (n : Notification) : Prop where
  appName : IsString n.appName
  summary : IsString n.summary
  body : IsString n.body
  icon : IsString n.icon
  appKey : IsString n.appKey
  desktopEntry : IsString n.desktopEntry
  lockScreen : IsString n.lockScreen
  grouping : IsString n.grouping

/-- What is true of every state: the identifiers are in the order of storing, and strings are
strings. -/
structure Ordered (m : NotificationManager) : Prop where
  order : (ids m.history).Sublist m.stored
  stored : m.stored.Nodup
  storable : ∀ n ∈ m.history, Storable n

section
variable {lib} {m m' : NotificationManager}

/-! ### Parts of a history -/

theorem Ordered.of_sublist (h : Ordered m) {history : List Notification}
    (hs : history.Sublist m.history) : Ordered { m with history } :=
  ⟨(hs.map _).trans h.order, h.stored, fun n hn => h.storable n (hs.mem hn)⟩

theorem pruneLoop_sublist (cutoff : Int64) (limit : ℤ) (items kept : List Notification) :
    ∃ l, pruneLoop cutoff limit items kept = kept ++ l ∧ l.Sublist items := by
  induction items generalizing kept with
  | nil => exact ⟨[], (List.append_nil kept).symm, .slnil⟩
  | cons n items ih =>
    rw [pruneLoop]
    split
    · obtain ⟨l, heq, hl⟩ := ih kept
      exact ⟨l, heq, hl.cons n⟩
    split
    · exact ⟨[], (List.append_nil kept).symm, List.nil_sublist _⟩
    · obtain ⟨l, heq, hl⟩ := ih (kept ++ [n])
      exact ⟨n :: l, by rw [heq, List.append_assoc]; rfl, hl.cons_cons n⟩

theorem prune_sublist (items : List Notification) (days : Int32) (now : Int64) (limit : ℤ) :
    (prune items days now limit).Sublist items := by
  obtain ⟨l, heq, hl⟩ := pruneLoop_sublist
    (if days > 0 then now - days.toInt64 * 86400 * 1000000 else Int64.minValue) limit items []
  rw [prune, heq]
  exact hl

/-- What is left when there were too many. -/
theorem trimLoop_eq {limit : ℤ} (hlimit : 0 ≤ limit) (fuel : ℕ) (history : List Notification)
    (h : history.length ≤ fuel) : trimLoop limit fuel history = history.take limit.toNat := by
  induction fuel generalizing history with
  | zero => rw [trimLoop, List.length_eq_zero_iff.mp (Nat.le_zero.mp h), List.take_nil]
  | succ fuel ih =>
    rw [trimLoop]
    split
    · rw [ih _ (by rw [List.length_dropLast]; omega), List.dropLast_eq_take, List.take_take,
        min_eq_left (by omega)]
    · rw [List.take_of_length_le (by omega)]

theorem historyLimit_pos (ns : Option AppNotificationSettings) : 0 < historyLimit ns := by
  cases ns with
  | none => decide
  | some ns =>
    rw [historyLimit]
    split
    · next hpos => exact Int32.lt_iff_toInt_lt.mp hpos
    · decide

/-! ### The file -/

theorem kept_toJson {n : Notification} (h : Storable n) : Json.Kept n.toJson := by
  have hnames : ∀ name ∈ ["id", "app-name", "app-key", "desktop-entry", "summary", "body", "icon",
      "timestamp", "silenced", "time-sensitive", "lock-screen", "grouping"],
      IsString (ofString name) := by decide +kernel
  have hid : Json.Kept (.int n.id.toNat) := .int ⟨by omega, by have := n.id.toNat_lt; omega⟩
  have htime : Json.Kept (.int n.timestamp.toInt) :=
    .int ⟨n.timestamp.le_toInt, n.timestamp.toInt_lt⟩
  refine Json.kept_object ?_ ?_
  · simpa using hnames
  · simpa using ⟨hid, .string h.appName, .string h.appKey, .string h.desktopEntry,
      .string h.summary, .string h.body, .string h.icon, htime, .bool trivial, .bool trivial,
      .string h.lockScreen, .string h.grouping⟩

theorem ofInt_toNat (id : UInt32) : UInt32.ofInt id.toNat = id := by
  have hlt : (id.toNat : ℤ) % 2 ^ 32 = id.toNat := by
    have := id.toNat_lt
    omega
  rw [UInt32.ofInt, hlt, Int.toNat_natCast, UInt32.ofNat_toNat]

theorem fromJson_toJson (n : Notification) :
    Notification.fromJson lib n.toJson = some { n with restored := true } := by
  simp (disch := decide) only [Notification.toJson, Notification.fromJson, strMember,
    Json.Library.intOr, Json.Library.boolOr, Json.lookup_cons_of_ne, List.lookup_cons_self,
    lib.getInt_int, lib.getBool_bool, ofInt_toNat, Int64.ofInt_toInt, Option.isNone_some,
    Bool.false_eq_true, or_self, if_false]

theorem kept_serialize {items : List Notification} (h : ∀ n ∈ items, Storable n) (nextId : UInt32) :
    Json.Kept (serialize items nextId) := by
  have hnames : ∀ name ∈ ["version", "next-id", "notifications"], IsString (ofString name) := by
    decide +kernel
  have hversion : Json.Kept (.int 1) := .int ⟨by decide, by decide⟩
  have hnext : Json.Kept (.int nextId.toNat) := .int ⟨by omega, by have := nextId.toNat_lt; omega⟩
  have hitems : Json.Kept (.array (items.map (·.toJson))) :=
    .array (List.forall_mem_map.mpr fun n hn => kept_toJson (h n hn))
  refine Json.kept_object ?_ ?_
  · simpa using hnames
  · simpa using ⟨hversion, hnext, hitems⟩

/-- **The file of the history.** It gives back the notifications, as restored ones. -/
theorem deserialize_serialize {items : List Notification} (h : ∀ n ∈ items, Storable n)
    (nextId : UInt32) : deserialize lib (lib.reparse (serialize items nextId)) =
      items.map ({ · with restored := true }) := by
  rw [lib.reparse_of_kept _ (kept_serialize h nextId), serialize]
  simp (disch := decide) only [deserialize, Json.lookup_cons_of_ne, List.lookup_cons_self,
    lib.getElements_array, List.filterMap_map]
  rw [← List.filterMap_eq_map]
  exact List.filterMap_congr fun n _ => fromJson_toJson n

theorem readNextId_serialize {items : List Notification} (h : ∀ n ∈ items, Storable n)
    (nextId : UInt32) : readNextId lib (lib.reparse (serialize items nextId)) = nextId := by
  rw [lib.reparse_of_kept _ (kept_serialize h nextId), serialize]
  simp (disch := decide) only [readNextId, Json.Library.intOr, Json.lookup_cons_of_ne,
    List.lookup_cons_self, lib.getInt_int, ofInt_toNat]

/-! ### The calls keep the order -/

theorem ids_eraseP (history : List Notification) (id : UInt32) :
    ids (history.eraseP (·.id = id)) = (ids history).erase id := by
  rw [List.erase_eq_eraseP', ids, ids, List.eraseP_map]
  refine congrArg (List.map (·.id)) (congrArg (List.eraseP · history) (funext fun n => ?_))
  exact (beq_eq_decide n.id id).symm

theorem trimLoop_entry (ns : Option AppNotificationSettings) (n : Notification)
    (history : List Notification) :
    trimLoop (historyLimit ns) (n :: history).length (n :: history) =
      n :: history.take ((historyLimit ns).toNat - 1) := by
  have hpos := historyLimit_pos ns
  obtain ⟨k, hk⟩ : ∃ k, (historyLimit ns).toNat = k + 1 :=
    ⟨(historyLimit ns).toNat - 1, by omega⟩
  rw [trimLoop_eq hpos.le _ _ le_rfl, hk, List.take_succ_cons, Nat.add_sub_cancel]

theorem takeId_frame (replacesId : UInt32) : (m.takeId replacesId).2.history = m.history ∧
    (m.takeId replacesId).2.stored = m.stored := by
  rw [takeId]
  split
  · exact ⟨rfl, rfl⟩
  · exact ⟨rfl, rfl⟩

/-- The identifier that a notification gets, and the next one. -/
theorem notify_takeId (r : Request) (replacesId : UInt32) (ns : Option AppNotificationSettings)
    (now : Int64) : (m.notify r replacesId ns now).1 = (m.takeId replacesId).1 ∧
      (m.notify r replacesId ns now).2.nextId = (m.takeId replacesId).2.nextId := by
  rw [notify]
  split
  · exact ⟨rfl, rfl⟩
  split
  · exact ⟨rfl, rfl⟩
  · exact ⟨rfl, rfl⟩

/-- What becomes of the history when a notification is stored. -/
theorem notify_stored {r : Request} (hstore : r.decision.store = true) (replacesId : UInt32)
    (ns : Option AppNotificationSettings) (now : Int64) :
    let id := (m.takeId replacesId).1
    let m' := (m.notify r replacesId ns now).2
    m'.history = Request.entry r id now ::
        (m.history.eraseP (·.id = id)).take ((historyLimit ns).toNat - 1) ∧
      m'.stored = id :: m.stored.erase id := by
  dsimp only
  rw [notify, if_neg (by simp [hstore]), if_pos hstore]
  dsimp only
  rw [trimLoop_entry, (takeId_frame replacesId).1, (takeId_frame replacesId).2]
  exact ⟨rfl, rfl⟩

/-- What becomes of it when the notification is not stored. -/
theorem notify_not_stored {r : Request} (hstore : r.decision.store = false) (replacesId : UInt32)
    (ns : Option AppNotificationSettings) (now : Int64) :
    let m' := (m.notify r replacesId ns now).2
    m'.history.Sublist m.history ∧ m'.stored = m.stored := by
  dsimp only
  obtain ⟨hhistory, hstored⟩ := takeId_frame (m := m) replacesId
  rw [notify]
  split
  · exact ⟨hhistory ▸ List.Sublist.refl m.history, hstored⟩
  · rw [if_neg (by simp [hstore])]
    dsimp only
    rw [hhistory]
    exact ⟨List.eraseP_sublist, hstored⟩

theorem storable_entry (r : Request) (id : UInt32) (now : Int64) :
    Storable (Request.entry r id now) :=
  ⟨r.appName.2, r.summary.2, r.body.2, r.icon.2, r.appKey.2, r.desktopEntry.2,
    r.decision.lockScreen.2, r.grouping.2⟩

theorem Ordered.notify (h : Ordered m) (r : Request) (replacesId : UInt32)
    (ns : Option AppNotificationSettings) (now : Int64) :
    Ordered (m.notify r replacesId ns now).2 := by
  cases hstore : r.decision.store with
  | true =>
    obtain ⟨hhistory, hstored⟩ := notify_stored (m := m) hstore replacesId ns now
    refine ⟨?_, ?_, fun n hn => ?_⟩
    · rw [hhistory, hstored]
      refine List.Sublist.cons_cons _ (((List.take_sublist _ _).map _).trans ?_)
      have hsub := h.order.erase (m.takeId replacesId).1
      rwa [← ids_eraseP] at hsub
    · rw [hstored]
      exact List.nodup_cons.mpr ⟨h.stored.not_mem_erase, h.stored.erase _⟩
    · rw [hhistory] at hn
      rcases List.mem_cons.mp hn with rfl | hn
      · exact storable_entry r _ now
      · exact h.storable n (List.eraseP_sublist.mem (List.mem_of_mem_take hn))
  | false =>
    obtain ⟨hhistory, hstored⟩ := notify_not_stored (m := m) hstore replacesId ns now
    exact ⟨hstored ▸ (hhistory.map _).trans h.order, hstored ▸ h.stored,
      fun n hn => h.storable n (hhistory.mem hn)⟩

/-- What `restore_history` takes over. -/
theorem restoreLoop_spec (loaded : List Notification) (m : NotificationManager) :
    (restoreLoop loaded m).history = m.history ++ loaded ∧
      (restoreLoop loaded m).stored = m.stored ∧
        ((∀ n ∈ loaded, n.id < m.nextId) → (restoreLoop loaded m).nextId = m.nextId) := by
  induction loaded generalizing m with
  | nil => exact ⟨(List.append_nil _).symm, rfl, fun _ => rfl⟩
  | cons n loaded ih =>
    rw [restoreLoop]
    obtain ⟨hhistory, hstored, hnext⟩ := ih
      { m with
        history := m.history ++ [n]
        nextId := if n.id ≥ m.nextId then n.id + 1 else m.nextId }
    refine ⟨hhistory.trans (by simp), hstored, fun hlt => ?_⟩
    have hn : ¬n.id ≥ m.nextId := UInt32.not_le.mpr (hlt n (by simp))
    rw [if_neg hn] at hnext ⊢
    exact hnext fun x hx => hlt x (by simp [hx])

/-- What a new manager restores from the file of an old one. -/
theorem restart_spec (lib : Json.Library) (h : Ordered m) (ns : Option AppNotificationSettings)
    (now : Int64) :
    let m' := m.step lib (.restart ns now)
    m'.stored = m.stored ∧ (∃ l : List Notification, l.Sublist m.history ∧
      m'.history = l.map ({ · with restored := true })) ∧
        (m.nextId ≠ 0 → (∀ n ∈ m.history, n.id < m.nextId) → m'.nextId = m.nextId) := by
  have hitems : ∀ n ∈ (if retentionDays ns > 0 then m.history else []), Storable n := by
    split
    · exact h.storable
    · exact fun n hn => (by cases hn)
  have hnext : readNextId lib (lib.reparse (m.saveNow ns)) = m.nextId :=
    readNextId_serialize hitems m.nextId
  have hmax : m.nextId ≠ 0 → (if 1 > m.nextId then 1 else m.nextId) = m.nextId := fun h0 => by
    refine if_neg fun hlt => h0 (UInt32.toNat_inj.mp ?_)
    have : m.nextId.toNat < 1 := UInt32.lt_iff_toNat_lt.mp hlt
    exact Nat.lt_one_iff.mp this
  dsimp only
  rw [step, restoreHistory]
  dsimp only
  rw [hnext]
  split
  · exact ⟨rfl, ⟨[], List.nil_sublist _, rfl⟩, fun h0 _ => hmax h0⟩
  · next hdays =>
    have hpos : retentionDays ns > 0 := Int32.not_le.mp hdays
    have hload : deserialize lib (lib.reparse (m.saveNow ns)) =
        m.history.map ({ · with restored := true }) := by
      rw [saveNow, deserialize_serialize hitems, if_pos hpos]
    obtain ⟨l, hl, hprune⟩ := List.sublist_map_iff.mp (prune_sublist
      (m.history.map ({ · with restored := true })) (retentionDays ns) now (historyLimit ns))
    rw [hload, hprune]
    obtain ⟨hhistory, hstored, hkeep⟩ := restoreLoop_spec (l.map ({ · with restored := true }))
      { nextId := if 1 > m.nextId then 1 else m.nextId, stored := m.stored }
    refine ⟨hstored, ⟨l, hl, hhistory⟩, fun h0 hlt => ?_⟩
    rw [hmax h0] at hkeep ⊢
    exact hkeep (List.forall_mem_map.mpr fun n hn => hlt n (hl.mem hn))

theorem pruneHistory_spec (ns : Option AppNotificationSettings) (now : Int64) :
    ∃ l : List Notification, l.Sublist m.history ∧
      m.pruneHistory ns now = { m with history := l } := by
  have hs := prune_sublist m.history (if retentionDays ns > 0 then retentionDays ns else 0) now
    (historyLimit ns)
  rw [NotificationManager.pruneHistory]
  generalize prune m.history _ now (historyLimit ns) = kept at hs
  split
  · exact ⟨m.history, List.Sublist.refl _, rfl⟩
  · exact ⟨kept, hs, rfl⟩

/-- **One call keeps the order.** -/
theorem Ordered.step (h : Ordered m) (c : Call) : Ordered (m.step lib c) := by
  cases c with
  | notify r replacesId ns now => exact h.notify r replacesId ns now
  | removeFromHistory id => exact h.of_sublist List.eraseP_sublist
  | closeNotification id => exact h.of_sublist List.eraseP_sublist
  | clearHistory => exact h.of_sublist (List.nil_sublist _)
  | pruneHistory ns now =>
    obtain ⟨l, hl, heq⟩ := pruneHistory_spec (m := m) ns now
    rw [NotificationManager.step, heq]
    exact h.of_sublist hl
  | restart ns now =>
    obtain ⟨hstored, ⟨l, hl, hhistory⟩, -⟩ := restart_spec lib h ns now
    refine ⟨?_, hstored ▸ h.stored, fun n hn => ?_⟩
    · rw [hhistory, hstored]
      have hids : ids (l.map ({ · with restored := true })) = ids l := List.map_map
      rw [hids]
      exact (hl.map _).trans h.order
    · rw [hhistory] at hn
      obtain ⟨n, hmem, rfl⟩ := List.mem_map.mp hn
      have hs := h.storable n (hl.mem hmem)
      exact ⟨hs.1, hs.2, hs.3, hs.4, hs.5, hs.6, hs.7, hs.8⟩

/-! ### Identifiers that were handed out -/

/-- The history holds only identifiers that were handed out, at most `k` of them so far. -/
structure Handed (k : ℕ) (m : NotificationManager) : Prop extends Ordered m where
  lt : ∀ n ∈ m.history, n.id < m.nextId
  pos : m.nextId ≠ 0
  le : m.nextId.toNat ≤ k + 1

theorem Handed.of_sublist {k : ℕ} (h : Handed k m) {history : List Notification}
    (hs : history.Sublist m.history) : Handed k { m with history } :=
  { h.toOrdered.of_sublist hs with
    lt := fun n hn => h.lt n (hs.mem hn)
    pos := h.pos
    le := h.le }

/-- A new identifier is none of those in the history, and the counter does not wrap. -/
theorem Handed.takeId {k : ℕ} (h : Handed k m) (hk : k + 2 < 2 ^ 32) (replacesId : UInt32) :
    (m.takeId replacesId).2.nextId ≠ 0 ∧ (m.takeId replacesId).2.nextId.toNat ≤ k + 2 ∧
      m.nextId ≤ (m.takeId replacesId).2.nextId ∧
        (replacesId = 0 → (m.takeId replacesId).1 < (m.takeId replacesId).2.nextId) := by
  have hle := h.le
  rw [NotificationManager.takeId]
  split
  · next h0 =>
    have hnext : (m.nextId + 1).toNat = m.nextId.toNat + 1 := by
      rw [UInt32.toNat_add, UInt32.toNat_one, Nat.mod_eq_of_lt (by omega)]
    refine ⟨fun hz => ?_, ?_, UInt32.le_iff_toNat_le.mpr ?_, fun _ => UInt32.lt_iff_toNat_lt.mpr ?_⟩
    · have := congrArg UInt32.toNat hz
      rw [hnext, UInt32.toNat_zero] at this
      omega
    · dsimp only
      omega
    · dsimp only
      omega
    · dsimp only
      omega
  · next h0 => exact ⟨h.pos, by dsimp only; omega, UInt32.le_refl _, fun he => absurd he h0⟩

theorem Handed.step {k : ℕ} (h : Handed k m) {c : Call}
    (hk : k + (if c.isNotify then 1 else 0) + 1 < 2 ^ 32) (hc : Named m c) :
    Handed (k + if c.isNotify then 1 else 0) (m.step lib c) := by
  cases c with
  | notify r replacesId ns now =>
    obtain ⟨hpos, hle, hmono, hfresh⟩ := h.takeId hk replacesId
    have hnext := (notify_takeId (m := m) r replacesId ns now).2
    refine { h.toOrdered.notify r replacesId ns now with lt := fun n hn => ?_, pos := ?_, le := ?_ }
    · have hold (n : Notification) (hn : n ∈ m.history) :
          n.id < (m.notify r replacesId ns now).2.nextId :=
        UInt32.lt_of_lt_of_le (h.lt n hn) (hnext ▸ hmono)
      cases hstore : r.decision.store with
      | true =>
        have hhistory := (notify_stored (m := m) hstore replacesId ns now).1
        change n ∈ (m.notify r replacesId ns now).2.history at hn
        rw [hhistory] at hn
        rcases List.mem_cons.mp hn with rfl | hn
        · change (m.takeId replacesId).1 < (m.notify r replacesId ns now).2.nextId
          rw [hnext]
          by_cases h0 : replacesId = 0
          · exact hfresh h0
          · rw [NotificationManager.takeId, if_neg h0]
            exact hc h0 hstore
        · exact hold n (List.eraseP_sublist.mem (List.mem_of_mem_take hn))
      | false => exact hold n ((notify_not_stored hstore replacesId ns now).1.mem hn)
    · exact hnext ▸ hpos
    · exact hnext ▸ hle
  | removeFromHistory id => exact h.of_sublist List.eraseP_sublist
  | closeNotification id => exact h.of_sublist List.eraseP_sublist
  | clearHistory => exact h.of_sublist (List.nil_sublist _)
  | pruneHistory ns now =>
    obtain ⟨l, hl, heq⟩ := pruneHistory_spec (m := m) ns now
    rw [NotificationManager.step, heq]
    exact h.of_sublist hl
  | restart ns now =>
    obtain ⟨-, ⟨l, hl, hhistory⟩, hkeep⟩ := restart_spec lib h.toOrdered ns now
    have hnext := hkeep h.pos h.lt
    refine { h.toOrdered.step (.restart ns now) with lt := fun n hn => ?_, pos := ?_, le := ?_ }
    · rw [hhistory] at hn
      obtain ⟨n, hmem, rfl⟩ := List.mem_map.mp hn
      exact hnext ▸ h.lt n (hl.mem hmem)
    · exact hnext ▸ h.pos
    · exact hnext ▸ h.le

theorem Handed.run {k : ℕ} (h : Handed k m) {es : List Call}
    (hk : k + es.countP Call.isNotify + 1 < 2 ^ 32)
    (hg : Guarded (NotificationManager.step lib) Named m es) :
    Handed (k + es.countP Call.isNotify) (run (NotificationManager.step lib) m es) := by
  induction es generalizing k m with
  | nil => exact h
  | cons c es ih =>
    rw [List.countP_cons, add_comm (es.countP _), ← add_assoc] at hk ⊢
    exact ih (h.step (by omega) hg.1) hk hg.2

theorem ordered_new : Ordered {} :=
  ⟨List.nil_sublist _, List.nodup_nil, fun n hn => (by cases hn)⟩

theorem handed_new : Handed 0 {} :=
  { ordered_new with
    lt := fun n hn => (by cases hn)
    pos := by decide
    le := by decide }

theorem respected_of_handed {k : ℕ} (h : Handed k m) (c : Call) : Respected lib m c where
  nodup := (h.toOrdered.step c).stored.sublist (h.toOrdered.step c).order
  newest := (h.toOrdered.step c).order
  limit := by
    rintro r replacesId ns now rfl hstore
    have hhistory := (notify_stored (m := m) hstore replacesId ns now).1
    have hpos := historyLimit_pos ns
    rw [NotificationManager.step, hhistory, (notify_takeId r replacesId ns now).1]
    refine ⟨?_, rfl⟩
    rw [List.length_cons, List.length_take]
    omega
  fresh := by
    rintro r ns now rfl hmem
    obtain ⟨n, hn, hid⟩ := List.mem_map.mp hmem
    rw [(notify_takeId r 0 ns now).1, takeId, if_pos rfl] at hid
    have hlt := h.lt n hn
    rw [hid] at hlt
    exact absurd hlt (UInt32.lt_irrefl _)

end

/-! ### Identifiers that were not handed out -/

/-- A notification of any client. -/
def anyRequest (store : Bool) : Request where
  appName := ⟨[], isString_nil⟩
  summary := ⟨[], isString_nil⟩
  body := ⟨[], isString_nil⟩
  icon := ⟨[], isString_nil⟩
  appKey := ⟨[], isString_nil⟩
  desktopEntry := ⟨[], isString_nil⟩
  grouping := ⟨[], isString_nil⟩
  decision := ⟨store, false, false, false, ⟨[], isString_nil⟩⟩

section
variable {m : NotificationManager}

/-- Notifications that are neither stored nor shown take identifiers and do nothing else. -/
theorem run_notify_silent (n : ℕ) (m : NotificationManager) :
    run (step lib) m (List.replicate n (.notify (anyRequest false) 0 none 0)) =
      { m with nextId := m.nextId + .ofNat n } := by
  induction n generalizing m with
  | zero => simp
  | succ n ih =>
    rw [List.replicate_succ, run_cons, ih]
    have hstep : m.step lib (.notify (anyRequest false) 0 none 0) =
        { m with nextId := m.nextId + 1 } := rfl
    rw [hstep]
    dsimp only
    rw [UInt32.ofNat_add, UInt32.add_assoc, UInt32.add_comm (UInt32.ofNat n)]
    rfl

/-- A stored notification that names an identifier that was not handed out will be replaced by a new
one, unless it goes before the identifier is handed out. -/
theorem exists_not_respected {r : Request} (hstore : r.decision.store = true) {id : UInt32}
    (h0 : id ≠ 0) (hid : m.nextId ≤ id) (ns : Option AppNotificationSettings) (now : Int64) :
    ∃ es, ¬Respected lib (run (step lib) (m.step lib (.notify r id ns now)) es)
      (.notify (anyRequest true) 0 none 0) := by
  refine ⟨List.replicate (id.toNat - m.nextId.toNat) (.notify (anyRequest false) 0 none 0), ?_⟩
  rw [run_notify_silent]
  intro h
  have htake : m.takeId id = (id, m) := if_neg h0
  have hnext : (m.step lib (.notify r id ns now)).nextId = m.nextId :=
    (notify_takeId r id ns now).2.trans (by rw [htake])
  have hmem : id ∈ ids (m.step lib (.notify r id ns now)).history := by
    rw [step, (notify_stored hstore id ns now).1, htake]
    exact List.mem_cons_self
  refine h.fresh (anyRequest true) none 0 rfl ?_
  have hsum : m.nextId + UInt32.ofNat (id.toNat - m.nextId.toNat) = id := by
    have hle := UInt32.le_iff_toNat_le.mp hid
    have hlt := id.toNat_lt
    refine UInt32.toNat_inj.mp ?_
    rw [UInt32.toNat_add, UInt32.toNat_ofNat', Nat.mod_eq_of_lt (by omega),
      Nat.mod_eq_of_lt (by omega)]
    omega
  rw [(notify_takeId _ 0 none 0).1, takeId, if_pos rfl]
  dsimp only
  rw [hnext, hsum]
  exact hmem

end

/-! ### The main results -/

/-- **When the history is respected.** In a run with fewer than `2 ^ 32 - 1` notifications in which
no stored notification names an identifier that was not handed out, every call respects the history.
-/
theorem history_respected (es : List Call) (c : Call)
    (hcount : (es ++ [c]).countP Call.isNotify < 2 ^ 32 - 1)
    (hnamed : Guarded (step lib) Named {} es) : Respected lib (run (step lib) {} es) c := by
  rw [List.countP_append] at hcount
  exact respected_of_handed (handed_new.run (by omega) hnamed) c

theorem history_respected_named :
    Respected Json.plainLibrary
      (run (step Json.plainLibrary) {}
        [.notify (anyRequest true) 0 none 0, .notify (anyRequest true) 1 none 0])
      (.notify (anyRequest true) 0 none 0) :=
  history_respected Json.plainLibrary
    [.notify (anyRequest true) 0 none 0, .notify (anyRequest true) 1 none 0]
    (.notify (anyRequest true) 0 none 0) (by decide +kernel)
    ⟨fun h => absurd rfl h, fun _ _ => by decide +kernel, trivial⟩

/-- A client names the identifier 2, which is handed out to the second new notification later. -/
theorem not_respected :
    ¬Respected Json.plainLibrary
      (run (step Json.plainLibrary) {}
        [.notify (anyRequest true) 2 none 0, .notify (anyRequest true) 0 none 0])
      (.notify (anyRequest true) 0 none 0) := by
  intro h
  have hmem : (run (step Json.plainLibrary) {}
      [.notify (anyRequest true) 2 none 0, .notify (anyRequest true) 0 none 0]).nextId ∈
        ids (run (step Json.plainLibrary) {}
          [.notify (anyRequest true) 2 none 0, .notify (anyRequest true) 0 none 0]).history := by
    decide +kernel
  exact h.fresh (anyRequest true) none 0 rfl hmem

end Notifications

end SingularityShell
