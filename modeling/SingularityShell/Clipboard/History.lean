import SingularityShell.Clipboard.Model
import SingularityShell.Lib.Lists

/-!
# The entries of the clipboard history

What every call leaves behind: entries with different identifiers and contents, the newest first,
the pinned ones all there, and no more unpinned ones than the limit allows.

## Main definitions

* `Clipboard.Wellformed` — the entries are different and in order
* `Clipboard.Keeps` — what one call does for the pinned, the newest and the oldest entries
* `Clipboard.Enforced` — the calls after which the limit, the order and the identifiers hold

## Main results

* `Clipboard.history_contract` — along runs of such calls the history keeps its contract
* `Clipboard.not_history_contract` — a repeated copy leaves a lowered limit exceeded
-/

namespace SingularityShell

namespace Clipboard

open Ascii Transition ClipboardModel

variable (lib : Library)

/-- The entries that are not pinned. -/
def unpinned (entries : List ClipboardEntry) : List ClipboardEntry := entries.filter (!·.pinned)

/-- Entries of a history: no two with the same identifier or content, the newest first. -/
structure Ordered (entries : List ClipboardEntry) : Prop where
  ids : entries.Pairwise (·.id ≠ ·.id)
  digests : entries.Pairwise (·.digest ≠ ·.digest)
  newestFirst : entries.Pairwise (·.timestamp ≥ ·.timestamp)

/-! ### Trimming -/

section
variable {limit : ℤ} {entries : List ClipboardEntry} {e : ClipboardEntry}

theorem trimFrom_sublist (n : ℕ) : (trimFrom limit n entries).Sublist entries := by
  induction entries generalizing n with
  | nil => exact .slnil
  | cons e entries ih =>
    rw [trimFrom]
    split
    · exact (ih n).cons_cons e
    · split
      · exact (ih _).cons e
      · exact (ih _).cons_cons e

theorem mem_trimFrom_of_pinned (n : ℕ) (he : e ∈ entries) (hp : e.pinned = true) :
    e ∈ trimFrom limit n entries := by
  induction entries generalizing n with
  | nil => cases he
  | cons x entries ih =>
    rw [trimFrom]
    rcases List.mem_cons.mp he with rfl | he
    · rw [if_pos hp]
      exact List.mem_cons_self
    · split
      · exact List.mem_cons_of_mem _ (ih n he)
      · split
        · exact ih _ he
        · exact List.mem_cons_of_mem _ (ih _ he)

/-- The unpinned entries that stay are the first ones. -/
theorem unpinned_trimFrom (n : ℕ) :
    unpinned (trimFrom limit n entries) = (unpinned entries).take (limit - n).toNat := by
  induction entries generalizing n with
  | nil => simp [trimFrom, unpinned]
  | cons e entries ih =>
    rw [trimFrom]
    by_cases hp : e.pinned
    · rw [if_pos hp]
      simpa [unpinned, hp] using ih n
    · rw [if_neg hp]
      have hcons : unpinned (e :: entries) = e :: unpinned entries := by simp [unpinned, hp]
      by_cases hlimit : ((n + 1 : ℕ) : ℤ) > limit
      · rw [if_pos hlimit, ih, hcons, show (limit - n).toNat = 0 by omega,
          show (limit - (n + 1 : ℕ)).toNat = 0 by omega]
        rfl
      · rw [if_neg hlimit, hcons, show (limit - n).toNat = (limit - (n + 1 : ℕ)).toNat + 1 by omega,
          List.take_succ_cons, ← ih]
        simp [unpinned, hp]

theorem length_unpinned_trimFrom (hlimit : 0 ≤ limit) :
    ((unpinned (trimFrom limit 0 entries)).length : ℤ) ≤ limit := by
  rw [unpinned_trimFrom, List.length_take]
  omega

/-- What is dropped is unpinned and no newer than any unpinned entry that stays, and as many stay as
the limit allows. -/
theorem trimFrom_oldest (hlimit : 0 ≤ limit) (horder : entries.Pairwise (·.timestamp ≥ ·.timestamp))
    (he : e ∈ entries) (hdrop : e ∉ trimFrom limit 0 entries) :
    ((unpinned (trimFrom limit 0 entries)).length : ℤ) = limit ∧
      ∀ x ∈ unpinned (trimFrom limit 0 entries), e.timestamp ≤ x.timestamp := by
  have hp : e.pinned = false := by
    by_contra hp
    exact hdrop (mem_trimFrom_of_pinned 0 he (by simpa using hp))
  have hmem : e ∈ unpinned entries := by simp [unpinned, he, hp]
  have hsplit : unpinned (trimFrom limit 0 entries) = (unpinned entries).take limit.toNat := by
    rw [unpinned_trimFrom, show (limit - (0 : ℕ)).toNat = limit.toNat by omega]
  have hnot : e ∉ (unpinned entries).take limit.toNat := fun ht => by
    rw [← hsplit] at ht
    exact hdrop (List.mem_of_mem_filter ht)
  have hlate : e ∈ (unpinned entries).drop limit.toNat := by
    rw [← List.take_append_drop limit.toNat (unpinned entries)] at hmem
    exact (List.mem_append.mp hmem).resolve_left hnot
  have hlength : limit.toNat < (unpinned entries).length := by
    have := List.length_pos_of_mem hlate
    rw [List.length_drop] at this
    omega
  refine ⟨by rw [hsplit, List.length_take]; omega, fun x hx => ?_⟩
  have hpair : (unpinned entries).Pairwise (·.timestamp ≥ ·.timestamp) :=
    horder.sublist List.filter_sublist
  rw [← List.take_append_drop limit.toNat (unpinned entries)] at hpair
  exact (List.pairwise_append.mp hpair).2.2 x (hsplit ▸ hx) e hlate

end

/-! ### Lists of entries -/

theorem Ordered.sublist {entries entries' : List ClipboardEntry} (h : Ordered entries)
    (hs : entries'.Sublist entries) : Ordered entries' :=
  ⟨h.ids.sublist hs, h.digests.sublist hs, h.newestFirst.sublist hs⟩

theorem Ordered.nil : Ordered [] := ⟨.nil, .nil, .nil⟩

theorem Ordered.cons {e : ClipboardEntry} {entries : List ClipboardEntry} (h : Ordered entries)
    (hid : ∀ x ∈ entries, e.id ≠ x.id) (hdigest : ∀ x ∈ entries, e.digest ≠ x.digest)
    (htime : ∀ x ∈ entries, e.timestamp ≥ x.timestamp) : Ordered (e :: entries) :=
  ⟨List.pairwise_cons.mpr ⟨hid, h.ids⟩, List.pairwise_cons.mpr ⟨hdigest, h.digests⟩,
    List.pairwise_cons.mpr ⟨htime, h.newestFirst⟩⟩

section
variable {e e' : ClipboardEntry} {l₁ l₂ : List ClipboardEntry}

/-- An entry whose flag changes keeps its place. -/
theorem Ordered.replace (h : Ordered (l₁ ++ e :: l₂)) (hid : e'.id = e.id)
    (hdigest : e'.digest = e.digest) (htime : e'.timestamp = e.timestamp) :
    Ordered (l₁ ++ e' :: l₂) := by
  obtain ⟨h1, h2, h3⟩ := h
  refine ⟨?_, ?_, ?_⟩
  · simpa [List.pairwise_append, hid] using h1
  · simpa [List.pairwise_append, hdigest] using h2
  · simpa [List.pairwise_append, htime] using h3

/-- An entry that was copied again moves to the front. -/
theorem Ordered.move (h : Ordered (l₁ ++ e :: l₂)) (hid : e'.id = e.id)
    (hdigest : e'.digest = e.digest) (htime : ∀ x ∈ l₁ ++ e :: l₂, x.timestamp ≤ e'.timestamp) :
    Ordered (e' :: (l₁ ++ l₂)) := by
  have hsub : (l₁ ++ l₂).Sublist (l₁ ++ e :: l₂) :=
    (List.Sublist.refl l₁).append (List.sublist_cons_self e l₂)
  have hids := List.pairwise_middle (fun h => Ne.symm h) |>.mp h.ids
  have hdigests := List.pairwise_middle (fun h => Ne.symm h) |>.mp h.digests
  refine (h.sublist hsub).cons (fun x hx => ?_) (fun x hx => ?_) fun x hx => ?_
  · exact hid ▸ (List.pairwise_cons.mp hids).1 x hx
  · exact hdigest ▸ (List.pairwise_cons.mp hdigests).1 x hx
  · exact htime x (hsub.mem hx)

end

/-! ### The operations -/

/-- The call puts a new entry into the history. -/
def inserts (m : ClipboardModel) (mime data : Text) : Bool :=
  accepts mime data && !(isTextMime mime && strip ((m.newEntry lib mime data 0).text lib) = []) &&
    (m.entries.find? (·.digest = lib.checksum data)).isNone

/-- The call changes the flag of an entry. -/
def flips (m : ClipboardModel) (id : UInt32) (pinned : Bool) : Bool :=
  (m.find id).any (·.pinned != pinned)

section
variable {m : ClipboardModel}

/-- What `add` does: nothing for the entries, a move to the front, or a new entry in front. -/
theorem add_cases (mime data : Text) (timestamp : ℤ) :
    ((m.add lib mime data timestamp).1 = none ∧ inserts lib m mime data = false ∧
      (m.add lib mime data timestamp).2.entries = m.entries ∧
      (m.add lib mime data timestamp).2.limit = m.limit) ∨
    (∃ e l₁ l₂, m.entries = l₁ ++ e :: l₂ ∧ inserts lib m mime data = false ∧
      (m.add lib mime data timestamp).1 = some { e with timestamp } ∧
      (m.add lib mime data timestamp).2.entries = { e with timestamp } :: (l₁ ++ l₂) ∧
      (m.add lib mime data timestamp).2.limit = m.limit) ∨
    (inserts lib m mime data = true ∧ (∀ e ∈ m.entries, e.digest ≠ lib.checksum data) ∧
      (m.add lib mime data timestamp).1 = some (m.newEntry lib mime data timestamp) ∧
      (m.add lib mime data timestamp).2.entries =
        trimFrom m.limit 0 (m.newEntry lib mime data timestamp :: m.entries) ∧
      (m.add lib mime data timestamp).2.limit = m.limit) := by
  have htext : (m.newEntry lib mime data timestamp).text lib =
      (m.newEntry lib mime data 0).text lib := rfl
  by_cases haccepts : accepts mime data = true
  · by_cases hblank : isTextMime mime ∧ strip ((m.newEntry lib mime data 0).text lib) = []
    · refine .inl ?_
      simp [add, inserts, haccepts, htext, hblank]
    · have hblank' : (isTextMime mime &&
          strip ((m.newEntry lib mime data 0).text lib) = []) = false := by simpa using hblank
      cases hfind : m.entries.find? (·.digest = lib.checksum data) with
      | none =>
        refine .inr (.inr ?_)
        have hnew : ∀ e ∈ m.entries, e.digest ≠ lib.checksum data := by simpa using hfind
        have hadd : m.add lib mime data timestamp = (some (m.newEntry lib mime data timestamp),
            trim { m with
              nextId := m.nextId + 1
              entries := m.newEntry lib mime data timestamp :: m.entries }) := by
          simp only [add, haccepts, Bool.not_true, Bool.false_eq_true, if_false, htext,
            if_neg hblank]
          rw [show (m.newEntry lib mime data timestamp).digest = lib.checksum data from rfl, hfind]
        rw [hadd]
        exact ⟨by simp [inserts, haccepts, hblank', hfind], hnew, rfl, rfl, rfl⟩
      | some e =>
        refine .inr (.inl ?_)
        obtain ⟨l₁, l₂, hsplit, herase, -⟩ := Lists.find?_eraseP hfind
        have hadd : m.add lib mime data timestamp = (some { e with timestamp },
            { m with
              nextId := m.nextId + 1
              entries := { e with timestamp } ::
                m.entries.eraseP (·.digest = lib.checksum data) }) := by
          simp only [add, haccepts, Bool.not_true, Bool.false_eq_true, if_false, htext,
            if_neg hblank]
          rw [show (m.newEntry lib mime data timestamp).digest = lib.checksum data from rfl, hfind]
        rw [hadd]
        exact ⟨e, l₁, l₂, hsplit, by simp [inserts, hfind], rfl, by rw [herase], rfl⟩
  · refine .inl ?_
    simp [add, inserts, haccepts]

/-- What `set_pinned` does: nothing, or a change of the flag of one entry and a trim. -/
theorem setPinned_cases (id : UInt32) (pinned : Bool) :
    (flips m id pinned = false ∧ m.setPinned id pinned = m) ∨
    ∃ e l₁ l₂, m.entries = l₁ ++ e :: l₂ ∧ e.id = id ∧ e.pinned ≠ pinned ∧
      (m.setPinned id pinned).entries = trimFrom m.limit 0 (l₁ ++ { e with pinned } :: l₂) ∧
      (m.setPinned id pinned).limit = m.limit := by
  cases hfind : m.find id with
  | none => exact .inl ⟨by simp [flips, hfind], by simp [setPinned, hfind]⟩
  | some e =>
    by_cases hp : e.pinned = pinned
    · exact .inl ⟨by simp [flips, hfind, hp], by simp [setPinned, hfind, hp]⟩
    · refine .inr ?_
      obtain ⟨l₁, l₂, hsplit, -, hl₁⟩ := Lists.find?_eraseP hfind
      have hid : e.id = id := by simpa [find] using List.find?_some hfind
      have hmodify := Lists.modify_findIdx (p := (·.id = id)) (a := e) (fun e => { e with pinned })
        l₂ hl₁ (by simpa using hid)
      refine ⟨e, l₁, l₂, hsplit, hid, hp, ?_⟩
      rw [setPinned, hfind]
      simp only [if_neg hp, trim]
      rw [hsplit, hmodify]
      exact ⟨rfl, trivial⟩

/-! ### Pinned entries that are loaded -/

theorem mem_pinItems {items : List (Text × Text × ℤ)} {nextId : UInt32} {e : ClipboardEntry}
    (he : e ∈ pinItems lib nextId items) :
    e.pinned = true ∧ (∃ i < items.length, e.id = nextId + .ofNat i) ∧
      ∃ item ∈ items, e.mime = item.1 ∧ e.data = item.2.1 ∧ e.timestamp = item.2.2 := by
  induction items generalizing nextId with
  | nil => cases he
  | cons item items ih =>
    rcases List.mem_cons.mp he with rfl | he
    · exact ⟨rfl, ⟨0, by simp, by simp [ClipboardEntry.new]⟩, item, by simp, rfl, rfl, rfl⟩
    · obtain ⟨hp, ⟨i, hi, hid⟩, item', hitem, htime⟩ := ih he
      refine ⟨hp, ⟨i + 1, by simpa using hi, ?_⟩, item', by simp [hitem], htime⟩
      rw [hid, UInt32.ofNat_add, UInt32.add_assoc, UInt32.add_comm 1]
      rfl

theorem pinItems_ids {items : List (Text × Text × ℤ)} (nextId : UInt32)
    (h : items.length ≤ 2 ^ 32) : (pinItems lib nextId items).Pairwise (·.id ≠ ·.id) := by
  induction items generalizing nextId with
  | nil => exact .nil
  | cons item items ih =>
    have hlength : items.length + 1 ≤ 2 ^ 32 := by simpa using h
    refine List.pairwise_cons.mpr ⟨fun e he heq => ?_, ih (nextId + 1) (by omega)⟩
    obtain ⟨-, ⟨i, hi, hid⟩, -⟩ := mem_pinItems lib he
    have hn : nextId.toNat = (nextId + 1 + .ofNat i).toNat := congrArg UInt32.toNat (heq.trans hid)
    simp only [UInt32.toNat_add, UInt32.toNat_ofNat'] at hn
    have hlt := nextId.toNat_lt
    have hone : (1 : UInt32).toNat = 1 := rfl
    omega

theorem pinItems_newestFirst {items : List (Text × Text × ℤ)} (nextId : UInt32)
    (h : items.Pairwise (·.2.2 ≥ ·.2.2)) :
    (pinItems lib nextId items).Pairwise (·.timestamp ≥ ·.timestamp) := by
  induction items generalizing nextId with
  | nil => exact .nil
  | cons item items ih =>
    obtain ⟨hitem, h⟩ := List.pairwise_cons.mp h
    refine List.pairwise_cons.mpr ⟨fun e he => ?_, ih _ h⟩
    obtain ⟨-, -, item', hmem, -, -, htime⟩ := mem_pinItems lib he
    exact htime ▸ hitem item' hmem

/-- Pinned entries are taken into a list of pinned entries unless their content is there. -/
theorem foldl_insertPinned {new entries : List ClipboardEntry} (hnew : ∀ e ∈ new, e.pinned = true)
    (hentries : ∀ e ∈ entries, e.pinned = true)
    (hdigests : entries.Pairwise (·.digest ≠ ·.digest)) :
    ∃ taken : List ClipboardEntry, taken.Sublist new ∧
      new.foldl insertPinned entries = entries ++ taken ∧
      (entries ++ taken).Pairwise (·.digest ≠ ·.digest) := by
  induction new generalizing entries with
  | nil => exact ⟨[], .slnil, by simp, by simpa using hdigests⟩
  | cons e new ih =>
    rw [List.foldl_cons, insertPinned]
    have hnew' : ∀ x ∈ new, x.pinned = true := fun x hx => hnew x (by simp [hx])
    split
    · have hself : (entries.map fun x => if x.digest = e.digest then { x with pinned := true }
          else x) = entries := by
        refine (List.map_congr_left fun x hx => ?_).trans (List.map_id entries)
        split
        · exact congrArg (fun pinned => { x with pinned }) (hentries x hx).symm
        · rfl
      rw [hself]
      obtain ⟨taken, hsub, heq, hd⟩ := ih hnew' hentries hdigests
      exact ⟨taken, hsub.cons e, heq, hd⟩
    · next hdup =>
      have hdup' : ∀ x ∈ entries, x.digest ≠ e.digest := by simpa using hdup
      have hnext : ∀ x ∈ entries ++ [e], x.pinned = true := by
        simpa [or_imp, forall_and] using ⟨hentries, hnew e (by simp)⟩
      obtain ⟨taken, hsub, heq, hd⟩ := ih hnew' hnext
        (List.pairwise_append.mpr ⟨hdigests, List.pairwise_singleton _ _, by simpa using hdup'⟩)
      exact ⟨e :: taken, hsub.cons_cons e, by simpa using heq, by simpa using hd⟩

theorem Ordered.load {items : List (Text × Text × ℤ)} (nextId : UInt32)
    (hlength : items.length ≤ 2 ^ 32) (horder : items.Pairwise (·.2.2 ≥ ·.2.2)) :
    Ordered ((pinItems lib nextId items).foldl insertPinned []) := by
  have hpinned : ∀ e ∈ pinItems lib nextId items, e.pinned = true :=
    fun e he => (mem_pinItems lib he).1
  obtain ⟨taken, hsub, heq, hd⟩ := foldl_insertPinned hpinned (by simp) .nil
  rw [heq, List.nil_append]
  exact ⟨(pinItems_ids lib nextId hlength).sublist hsub, by simpa using hd,
    (pinItems_newestFirst lib nextId horder).sublist hsub⟩

end

/-! ### Runs -/

/-- A history of calls keeps its entries in order and its limit positive. -/
structure Wellformed (m : ClipboardModel) : Prop where
  ordered : Ordered m.entries
  limit_pos : 1 ≤ m.limit

/-- The calls of the program: no entry is later than one that is added, limits are positive, and
pinned entries are loaded into a new history. -/
def Admissible (m : ClipboardModel) : Op → Prop
  | .add _ _ timestamp => ∀ e ∈ m.entries, e.timestamp ≤ timestamp
  | .setLimit limit => 1 ≤ limit
  | .loadPinned _ _ _ => m.entries = []
  | _ => True

/-- A call that adds nothing and changes no flag does not trim, so the limit must not be exceeded
before it. A new entry needs an identifier that no entry has: the counter starts again after
`2 ^ 32` of them. A file must list its entries in the order of the history. -/
def Enforced (m : ClipboardModel) : Op → Prop
  | .add mime data _ =>
    if inserts lib m mime data then ∀ e ∈ m.entries, e.id ≠ m.nextId
    else ((unpinned m.entries).length : ℤ) ≤ m.limit
  | .setPinned id pinned => flips m id pinned = false → ((unpinned m.entries).length : ℤ) ≤ m.limit
  | .loadPinned json imageDir files => ∀ items, readItems lib imageDir files json = some items →
      items.length ≤ 2 ^ 32 ∧ items.Pairwise (·.2.2 ≥ ·.2.2)
  | _ => True

instance (m : ClipboardModel) : ∀ op, Decidable (Admissible m op)
  | .add _ _ timestamp => inferInstanceAs (Decidable (∀ e ∈ m.entries, e.timestamp ≤ timestamp))
  | .setPinned _ _ => inferInstanceAs (Decidable True)
  | .remove _ => inferInstanceAs (Decidable True)
  | .clear _ => inferInstanceAs (Decidable True)
  | .setLimit limit => inferInstanceAs (Decidable (1 ≤ limit))
  | .loadPinned _ _ _ => inferInstanceAs (Decidable (m.entries = []))

instance (m : ClipboardModel) : ∀ op, Decidable (Enforced lib m op)
  | .add mime data _ => inferInstanceAs (Decidable (if inserts lib m mime data then _ else _))
  | .setPinned id pinned => inferInstanceAs (Decidable (flips m id pinned = false → _))
  | .remove _ => inferInstanceAs (Decidable True)
  | .clear _ => inferInstanceAs (Decidable True)
  | .setLimit _ => inferInstanceAs (Decidable True)
  | .loadPinned json imageDir files => inferInstanceAs (Decidable
      (∀ items ∈ readItems lib imageDir files json,
        items.length ≤ 2 ^ 32 ∧ items.Pairwise (·.2.2 ≥ ·.2.2)))

/-- The calls after which the limit holds. -/
def Op.Limits : Op → Prop
  | .add _ _ _ => True
  | .setPinned _ _ => True
  | _ => False

/-- What a call does for the entries. An entry whose flag is taken away counts as one that is not
pinned. -/
structure Keeps (m : ClipboardModel) (op : Op) : Prop where
  pinned : ∀ e ∈ m.entries, e.pinned = true → op ≠ .remove e.id → op ≠ .clear false →
    op ≠ .setPinned e.id false →
      ∃ e' ∈ (m.step lib op).entries, e'.id = e.id ∧ e'.digest = e.digest ∧ e'.pinned = true
  first : ∀ mime data timestamp e, op = .add mime data timestamp →
    (m.add lib mime data timestamp).1 = some e → (m.step lib op).entries.head? = some e
  limited : op.Limits → ((unpinned (m.step lib op).entries).length : ℤ) ≤ (m.step lib op).limit
  oldest : op.Limits → ∀ e ∈ m.entries, (∀ e' ∈ (m.step lib op).entries, e'.id ≠ e.id) →
    ((unpinned (m.step lib op).entries).length : ℤ) = (m.step lib op).limit ∧
      ∀ e' ∈ unpinned (m.step lib op).entries, e.timestamp ≤ e'.timestamp

variable {lib} {m : ClipboardModel}

theorem Wellformed.step (h : Wellformed m) {op : Op} (hadm : Admissible m op)
    (henf : Enforced lib m op) : Wellformed (m.step lib op) := by
  obtain ⟨hordered, hlimit⟩ := h
  cases op with
  | add mime data timestamp =>
    rcases add_cases lib mime data timestamp (m := m) with ⟨-, -, he, hl⟩ |
      ⟨e, l₁, l₂, hsplit, -, -, he, hl⟩ | ⟨hins, hnew, -, he, hl⟩
    · exact ⟨he ▸ hordered, hl ▸ hlimit⟩
    · refine ⟨?_, hl ▸ hlimit⟩
      rw [ClipboardModel.step, he]
      exact (hsplit ▸ hordered).move rfl rfl fun x hx => hadm x (hsplit ▸ hx)
    · refine ⟨?_, hl ▸ hlimit⟩
      rw [Enforced, if_pos hins] at henf
      have hcons : Ordered (m.newEntry lib mime data timestamp :: m.entries) :=
        hordered.cons (fun x hx => (henf x hx).symm) (fun x hx => (hnew x hx).symm) hadm
      rw [ClipboardModel.step, he]
      exact hcons.sublist (trimFrom_sublist 0)
  | setPinned id pinned =>
    rcases setPinned_cases id pinned (m := m) with ⟨-, he⟩ | ⟨e, l₁, l₂, hsplit, -, -, he, hl⟩
    · exact ⟨by rwa [ClipboardModel.step, he], by rwa [ClipboardModel.step, he]⟩
    · refine ⟨?_, hl ▸ hlimit⟩
      have hflag : Ordered (l₁ ++ { e with pinned } :: l₂) :=
        (hsplit ▸ hordered : Ordered (l₁ ++ e :: l₂)).replace rfl rfl rfl
      rw [ClipboardModel.step, he]
      exact hflag.sublist (trimFrom_sublist 0)
  | remove id => exact ⟨hordered.sublist List.eraseP_sublist, hlimit⟩
  | clear keepPinned =>
    refine ⟨?_, hlimit⟩
    rw [ClipboardModel.step, clear]
    split
    · exact hordered.sublist List.filter_sublist
    · exact .nil
  | setLimit limit => exact ⟨hordered, hadm⟩
  | loadPinned json imageDir files =>
    rw [ClipboardModel.step, loadPinned]
    cases hread : readItems lib imageDir files json with
    | none => exact ⟨hordered, hlimit⟩
    | some items =>
      obtain ⟨hlength, horder⟩ := henf items hread
      refine ⟨?_, hlimit⟩
      rw [show m.entries = [] from hadm]
      exact Ordered.load lib m.nextId hlength horder

/-- A trim of entries with the newest first, of which those of the history are a part. -/
theorem limits_trim (before : List ClipboardEntry) {entries after : List ClipboardEntry} {limit : ℤ}
    (hlimit : 1 ≤ limit) (horder : entries.Pairwise (·.timestamp ≥ ·.timestamp))
    (hafter : after = trimFrom limit 0 entries)
    (hmem : ∀ e ∈ before, ∃ e' ∈ entries, e'.id = e.id ∧ e'.timestamp = e.timestamp) :
    ((unpinned after).length : ℤ) ≤ limit ∧
      ∀ e ∈ before, (∀ e' ∈ after, e'.id ≠ e.id) → ((unpinned after).length : ℤ) = limit ∧
        ∀ e' ∈ unpinned after, e.timestamp ≤ e'.timestamp := by
  subst hafter
  refine ⟨length_unpinned_trimFrom (by omega), fun e he hdrop => ?_⟩
  obtain ⟨e', he', hid, htime⟩ := hmem e he
  rw [← htime]
  exact trimFrom_oldest (by omega) horder he' fun hin => hdrop e' hin hid

theorem keeps_add (h : Wellformed m) {mime data : Text} {timestamp : ℤ}
    (hadm : Admissible m (.add mime data timestamp))
    (henf : Enforced lib m (.add mime data timestamp)) :
    Keeps lib m (.add mime data timestamp) := by
  rcases add_cases lib mime data timestamp (m := m) with ⟨hr, hins, he, hl⟩ |
    ⟨e, l₁, l₂, hsplit, hins, hr, he, hl⟩ | ⟨hins, hnew, hr, he, hl⟩
  · have hcount : ((unpinned m.entries).length : ℤ) ≤ m.limit := by
      simpa [Enforced, hins] using henf
    refine ⟨fun x hx hp _ _ _ => ⟨x, by rwa [step, he], rfl, rfl, hp⟩, ?_, fun _ => ?_, ?_⟩
    · rintro _ _ _ e ⟨⟩ heq
      rw [hr] at heq
      cases heq
    · rwa [step, he, hl]
    · rintro - x hx hdrop
      exact absurd rfl (hdrop x (by rwa [step, he]))
  · have hcount : ((unpinned m.entries).length : ℤ) ≤ m.limit := by
      simpa [Enforced, hins] using henf
    have hperm : (unpinned ({ e with timestamp } :: (l₁ ++ l₂))).length =
        (unpinned m.entries).length := by
      rw [hsplit]
      cases hp : e.pinned with
      | true => simp [unpinned, hp]
      | false =>
        simp only [unpinned, hp, List.filter_append, List.filter_cons, List.length_append,
          Bool.not_false, if_true, List.length_cons]
        omega
    have hmem : ∀ x ∈ m.entries, ∃ x' ∈ ({ e with timestamp } :: (l₁ ++ l₂)),
        x'.id = x.id ∧ x'.digest = x.digest ∧ x'.pinned = x.pinned := by
      intro x hx
      rw [hsplit, List.mem_append, List.mem_cons] at hx
      rcases hx with hx | rfl | hx
      · exact ⟨x, by simp [hx], rfl, rfl, rfl⟩
      · exact ⟨_, List.mem_cons_self, rfl, rfl, rfl⟩
      · exact ⟨x, by simp [hx], rfl, rfl, rfl⟩
    refine ⟨fun x hx hp _ _ _ => ?_, ?_, fun _ => ?_, ?_⟩
    · obtain ⟨x', hx', hid, hdigest, hp'⟩ := hmem x hx
      exact ⟨x', by rwa [step, he], hid, hdigest, hp'.trans hp⟩
    · rintro _ _ _ e' ⟨⟩ heq
      rw [hr] at heq
      rw [step, he, ← Option.some.inj heq]
      rfl
    · rwa [step, he, hl, hperm]
    · rintro - x hx hdrop
      obtain ⟨x', hx', hid, -⟩ := hmem x hx
      exact absurd hid (hdrop x' (by rwa [step, he]))
  · rw [Enforced, if_pos hins] at henf
    have hcons : Ordered (m.newEntry lib mime data timestamp :: m.entries) :=
      h.ordered.cons (fun x hx => (henf x hx).symm) (fun x hx => (hnew x hx).symm) hadm
    obtain ⟨hlimited, holdest⟩ := limits_trim m.entries h.limit_pos hcons.newestFirst he fun x hx =>
      ⟨x, List.mem_cons_of_mem _ hx, rfl, rfl⟩
    refine ⟨fun x hx hp _ _ _ => ⟨x, ?_, rfl, rfl, hp⟩, ?_, fun _ => ?_, fun _ => ?_⟩
    · rw [step, he]
      exact mem_trimFrom_of_pinned 0 (List.mem_cons_of_mem _ hx) hp
    · rintro _ _ _ e ⟨⟩ heq
      rw [hr] at heq
      have hone : ¬((0 + 1 : ℕ) : ℤ) > m.limit := by
        have := h.limit_pos
        omega
      have hunpinned : (m.newEntry lib mime data timestamp).pinned = false := rfl
      rw [step, he, ← Option.some.inj heq, trimFrom, hunpinned, if_neg hone]
      rfl
    · rwa [step, hl]
    · rwa [step, hl]

theorem keeps_setPinned (h : Wellformed m) {id : UInt32} {pinned : Bool}
    (henf : Enforced lib m (.setPinned id pinned)) : Keeps lib m (.setPinned id pinned) := by
  rcases setPinned_cases id pinned (m := m) with ⟨hflip, he⟩ |
    ⟨e, l₁, l₂, hsplit, hid, hflip, he, hl⟩
  · have hcount := henf hflip
    refine ⟨fun x hx hp _ _ _ => ⟨x, by rwa [step, he], rfl, rfl, hp⟩, ?_, fun _ => ?_, ?_⟩
    · rintro _ _ _ e ⟨⟩
    · rwa [step, he]
    · rintro - x hx hdrop
      exact absurd rfl (hdrop x (by rwa [step, he]))
  · have hflag : Ordered (l₁ ++ { e with pinned } :: l₂) :=
      (hsplit ▸ h.ordered : Ordered (l₁ ++ e :: l₂)).replace rfl rfl rfl
    obtain ⟨hlimited, holdest⟩ := limits_trim m.entries h.limit_pos hflag.newestFirst he
      fun x hx => by
        rw [hsplit, List.mem_append, List.mem_cons] at hx
        rcases hx with hx | rfl | hx
        · exact ⟨x, by simp [hx], rfl, rfl⟩
        · exact ⟨_, List.mem_append_right _ List.mem_cons_self, rfl, rfl⟩
        · exact ⟨x, by simp [hx], rfl, rfl⟩
    refine ⟨fun x hx hp _ _ hne => ?_, ?_, fun _ => ?_, fun _ => ?_⟩
    · refine ⟨x, ?_, rfl, rfl, hp⟩
      rw [step, he]
      refine mem_trimFrom_of_pinned 0 ?_ hp
      rw [hsplit, List.mem_append, List.mem_cons] at hx
      rcases hx with hx | rfl | hx
      · simp [hx]
      · have hfalse : pinned = false := by simpa [hp] using hflip
        exact absurd (by rw [hid, hfalse]) hne
      · simp [hx]
    · rintro _ _ _ e ⟨⟩
    · rwa [step, hl]
    · rwa [step, hl]

theorem keeps (h : Wellformed m) {op : Op} (hadm : Admissible m op) (henf : Enforced lib m op) :
    Keeps lib m op := by
  cases op with
  | add mime data timestamp => exact keeps_add h hadm henf
  | setPinned id pinned => exact keeps_setPinned h henf
  | remove id =>
    refine ⟨fun e he hp hne _ _ => ⟨e, ?_, rfl, rfl, hp⟩, ?_, ?_, ?_⟩
    · refine (List.mem_eraseP_of_neg ?_).mpr he
      simpa [eq_comm] using hne
    · rintro _ _ _ _ ⟨⟩
    · rintro ⟨⟩
    · rintro ⟨⟩
  | clear keepPinned =>
    refine ⟨fun e he hp _ hne _ => ⟨e, ?_, rfl, rfl, hp⟩, ?_, ?_, ?_⟩
    · cases keepPinned with
      | true => exact List.mem_filter.mpr ⟨he, hp⟩
      | false => exact absurd rfl hne
    · rintro _ _ _ _ ⟨⟩
    · rintro ⟨⟩
    · rintro ⟨⟩
  | setLimit limit =>
    refine ⟨fun e he hp _ _ _ => ⟨e, he, rfl, rfl, hp⟩, ?_, ?_, ?_⟩
    · rintro _ _ _ _ ⟨⟩
    · rintro ⟨⟩
    · rintro ⟨⟩
  | loadPinned json imageDir files =>
    refine ⟨fun e he => ?_, ?_, ?_, ?_⟩
    · rw [show m.entries = [] from hadm] at he
      cases he
    · rintro _ _ _ _ ⟨⟩
    · rintro ⟨⟩
    · rintro ⟨⟩

/-- **The contract of the clipboard history.** In every run in which no call without effect comes
while the limit is exceeded, no new entry has the identifier of another, and the pinned entries that
are loaded are in the order of the history, the entries are different and in order, and every call
keeps the pinned, returns the newest in front and drops the oldest. -/
theorem history_contract (lib : Library) (ops : List Op)
    (h : Guarded (step lib) (fun m op => Admissible m op ∧ Enforced lib m op) {} ops) :
    Wellformed (run (step lib) {} ops) ∧ ∀ op, Admissible (run (step lib) {} ops) op →
      Enforced lib (run (step lib) {} ops) op → Keeps lib (run (step lib) {} ops) op := by
  have hwell : Wellformed (run (step lib) {} ops) :=
    h.invariant (fun m op hm hop => hm.step hop.1 hop.2) ⟨.nil, by decide⟩
  exact ⟨hwell, fun op => keeps hwell⟩

/-- Two texts, and a limit of one. -/
def loweredLimit : List Op :=
  [.add (ofString "text/plain") (ofString "alpha") 1,
    .add (ofString "text/plain") (ofString "beta") 2, .setLimit 1]

theorem history_contract_lowered : Wellformed (run (step plainLibrary) {} loweredLimit) :=
  (history_contract plainLibrary loweredLimit (by decide +kernel)).1

/-- A text that is copied again does not bring a lowered limit into force. -/
theorem not_history_contract : ¬∀ (lib : Library) (ops : List Op),
    Guarded (step lib) Admissible {} ops → Wellformed (run (step lib) {} ops) ∧
      ∀ op, Admissible (run (step lib) {} ops) op → Keeps lib (run (step lib) {} ops) op := by
  intro h
  have hkeeps := (h plainLibrary loweredLimit (by decide +kernel)).2
    (.add (ofString "text/plain") (ofString "alpha") 3) (by decide +kernel)
  exact absurd (hkeeps.limited trivial) (by decide +kernel)

end Clipboard

end SingularityShell
