import Mathlib.Data.List.Induction
import Mathlib.Data.List.Nodup
import SingularityShell.Firewall.Rules

/-!
# The state file is read back

What a command stores is what the next one acts on.

## Main definitions

* `Firewall.State.WellFormed` — what the commands keep

## Main results

* `Firewall.loadState_saveState` — a well-formed state is read back as it was written
* `Firewall.run_stored` — in every run of commands the stored state is well formed and read back
-/

namespace SingularityShell

namespace Firewall

open Ascii CString

/-- The rules have been checked, and there is one at most for each id. -/
structure State.WellFormed (st : State) : Prop extends st.Sound where
  ids : (st.rules.map Rule.id).Nodup

/-! ### Reading one line -/

/-- A text without control bytes is seen whole in the buffer. -/
theorem line_of_blank {line : Text} (h : ∀ b ∈ line, 32 ≤ b) :
    (cstr (line ++ [10])).takeWhile (· ≠ 10) = line := by
  have hzero : 0 ∉ line ++ [10] := fun hm => by
    rcases List.mem_append.mp hm with hm | hm
    · exact absurd (h 0 hm) (by decide)
    · exact absurd hm (by decide)
  have hten : 10 ∉ line := fun hm => absurd (h 10 hm) (by decide)
  rw [cstr_of_notMem hzero, (takeWhile_ne_append hten).1]

theorem blank_append {s t : Text} (hs : ∀ b ∈ s, 32 ≤ b) (ht : ∀ b ∈ t, 32 ≤ b) :
    ∀ b ∈ s ++ t, 32 ≤ b := fun b hb =>
  (List.mem_append.mp hb).elim (hs b) (ht b)

theorem blank_flag (b : Bool) : ∀ c ∈ flag b, 32 ≤ c := by
  cases b <;> decide +kernel

theorem Rule.Valid.blank_line {r : Rule} (h : r.Valid) : ∀ b ∈ r.line, 32 ≤ b := by
  obtain ⟨hid, hports, hlabel⟩ := h.blank
  have hsp : ∀ b ∈ ofString " ", 32 ≤ b := by decide +kernel
  have hrule : ∀ b ∈ ofString "rule ", 32 ≤ b := by decide +kernel
  have hid' : ∀ b ∈ r.id, 32 ≤ b := fun b hb => UInt8.le_of_lt (hid b hb)
  have hports' : ∀ b ∈ r.ports, 32 ≤ b := fun b hb => UInt8.le_of_lt (hports b hb)
  exact blank_append (blank_append (blank_append (blank_append (blank_append (blank_append
    (blank_append hrule hid') hsp) (blank_flag _)) hsp) hports') hsp) hlabel

theorem Rule.Valid.length_line {r : Rule} (h : r.Valid) : r.line.length ≤ 360 := by
  obtain ⟨⟨-, hid⟩, ⟨-, hports⟩, -, hlabel⟩ := h.length
  have hflag : (flag r.publicToo).length = 1 := by cases r.publicToo <;> rfl
  have hsp : (ofString " ").length = 1 := rfl
  have hrule : (ofString "rule ").length = 5 := rfl
  simp only [Rule.line, List.length_append, hflag, hsp, hrule]
  omega

/-- The fields of a line are those of the rule. The label is the rest of the line, blanks in front
of it included. -/
theorem parseRule_line {r : Rule} (h : r.Valid) : parseRule r.line = some r := by
  obtain ⟨hid, hports, -⟩ := h.blank
  obtain ⟨⟨hidne, -⟩, ⟨hportsne, -⟩, -⟩ := h.length
  have hid' : 32 ∉ r.id := fun hm => absurd (hid 32 hm) (by decide)
  have hports' : 32 ∉ r.ports := fun hm => absurd (hports 32 hm) (by decide)
  have hflag : flag r.publicToo ≠ [] ∧ 32 ∉ flag r.publicToo := by
    cases r.publicToo <;> decide
  have hpub : (flag r.publicToo = ofString "1") = (r.publicToo = true) := by
    cases r.publicToo <;> decide
  have hdrop : r.line.drop 5 =
      r.id ++ 32 :: (flag r.publicToo ++ 32 :: (r.ports ++ 32 :: r.label)) := by
    simp [Rule.line, ofString]
  rw [parseRule, hdrop, strtok_cons hidne hid', Option.bind_eq_bind, Option.bind_some]
  dsimp only
  rw [strtok_cons hflag.1 hflag.2, Option.bind_eq_bind, Option.bind_some]
  dsimp only
  rw [strtok_cons hportsne hports', Option.bind_some]
  simp only [h.id, h.ports, h.label, Bool.and_self, guard_true, hpub, Bool.decide_eq_true]
  exact congrArg some h.copy_eq

theorem readLine_line {r : Rule} (h : r.Valid) (st : State) (hst : st.rules.length < maxRules) :
    readLine st (r.line ++ [10]) = { st with rules := st.rules ++ [r] } := by
  have hrule : (ofString "rule ").isPrefixOf r.line = true := by simp [Rule.line, ofString]
  have henabled : (ofString "enabled ").isPrefixOf r.line = false := rfl
  have hprofile : (ofString "profile ").isPrefixOf r.line = false := rfl
  rw [readLine]
  simp only [line_of_blank h.blank_line, henabled, hprofile, hrule, hst, parseRule_line h]
  rfl

/-! ### Reading the file -/

theorem State.Sound.lines {st : State} (h : st.Sound) :
    ∀ l ∈ st.lines, l.length + 2 ≤ 512 ∧ 10 ∉ l := by
  intro l hl
  rcases List.mem_cons.mp hl with rfl | hl
  · cases st.enabled <;> decide
  · rcases List.mem_cons.mp hl with rfl | hl
    · cases st.publicProfile <;> decide
    · obtain ⟨r, hr, rfl⟩ := List.mem_map.mp hl
      have hvalid := h.valid r hr
      have hlen := hvalid.length_line
      exact ⟨by omega, fun hm => absurd (hvalid.blank_line 10 hm) (by decide)⟩

theorem foldl_readLine {rules : List Rule} (hvalid : ∀ r ∈ rules, r.Valid) (st : State)
    (hlen : st.rules.length + rules.length ≤ maxRules) :
    ((rules.map Rule.line).map (· ++ [10])).foldl readLine st =
      { st with rules := st.rules ++ rules } := by
  induction rules generalizing st with
  | nil => simp
  | cons r rules ih =>
    rw [List.length_cons] at hlen
    have hr := readLine_line (hvalid r List.mem_cons_self) st (by omega)
    rw [List.map_cons, List.map_cons, List.foldl_cons, hr,
      ih (fun s hs => hvalid s (List.mem_cons_of_mem _ hs)) _ (by simp; omega)]
    simp

/-- A state whose rules have been checked is read back as it was written. -/
theorem loadState_saveState {st : State} (h : st.Sound) : loadState (some (saveState st)) = st := by
  have henabled : readLine {} (ofString "enabled " ++ flag st.enabled ++ [10]) =
      { enabled := st.enabled } := by
    cases st.enabled <;> decide
  have hprofile : ∀ b p, readLine { enabled := b } (ofString "profile " ++
      ofString (if p = true then "public" else "home") ++ [10]) =
        { enabled := b, publicProfile := p } := by decide
  have hrules := foldl_readLine h.valid
    { enabled := st.enabled, publicProfile := st.publicProfile } (by simpa using h.length)
  rw [loadState, saveState, fgetsAll_unlines h.lines, State.lines, List.map_cons, List.map_cons,
    List.foldl_cons, List.foldl_cons, henabled, hprofile, hrules]
  rfl

/-! ### Commands -/

variable {st st' : State} {cmd : Text} {args : List Text}

theorem slotOf_append (rules : List Rule) (r : Rule) (id : Text) :
    slotOf (rules ++ [r]) id = if r.id = id then some rules.length else slotOf rules id := by
  simp [slotOf, List.zipIdx_append]

/-- The slot is that of a rule with the id, if there is any. -/
theorem slotOf_spec (rules : List Rule) (id : Text) :
    (∀ k, slotOf rules id = some k → (rules.map Rule.id)[k]? = some id) ∧
      (slotOf rules id = none → id ∉ rules.map Rule.id) := by
  induction rules using List.reverseRecOn with
  | nil => exact ⟨fun k hk => (by cases hk), fun _ => List.not_mem_nil⟩
  | append_singleton rules r ih =>
    obtain ⟨hsome, hnone⟩ := ih
    rw [slotOf_append]
    split_ifs with hr
    · refine ⟨fun k hk => ?_, fun hk => (by cases hk)⟩
      obtain rfl := Option.some.inj hk
      simp [hr]
    · refine ⟨fun k hk => ?_, fun hk => ?_⟩
      · have := hsome k hk
        have hlt : k < (rules.map Rule.id).length := (List.getElem?_eq_some_iff.mp this).1
        rw [List.map_append, List.getElem?_append_left hlt, this]
      · rw [List.map_append, List.mem_append, not_or]
        exact ⟨hnone hk, by simpa using Ne.symm hr⟩

/-- What `allow` stores: the rule in the place of the one with its id, or at the end. -/
theorem allow_stores {id pub ports label : Text} (h : allow st id pub ports label = .stores st') :
    ∃ r : Rule, r.Valid ∧
      ((∃ k, slotOf st.rules r.id = some k ∧ st' = { st with rules := st.rules.set k r }) ∨
        slotOf st.rules r.id = none ∧ st.rules.length < maxRules ∧
          st' = { st with rules := st.rules ++ [r] }) := by
  rw [allow] at h
  split at h
  · cases h
  next hbad =>
  simp only [Bool.or_eq_true, not_or, Bool.not_eq_true', Bool.not_eq_false] at hbad
  obtain ⟨⟨⟨hid, -⟩, hports⟩, hlabel⟩ := hbad
  have hvalid : Rule.Valid ⟨id, pub = ofString "1", ports, label⟩ := ⟨hid, hports, hlabel⟩
  have hcopy := hvalid.copy_eq
  simp only [hcopy] at h
  refine ⟨_, hvalid, ?_⟩
  split at h
  · next k hk => exact .inl ⟨k, hk, (Reply.stores.inj h).symm⟩
  · next hnone =>
    split at h
    · cases h
    next hfull =>
    exact .inr ⟨hnone, not_le.mp hfull, (Reply.stores.inj h).symm⟩

/-- **What a command stores.** -/
theorem command_stores (h : command st cmd args = .stores st') :
    (∃ b, st' = { st with enabled := b }) ∨ (∃ b, st' = { st with publicProfile := b }) ∨
      (∃ r : Rule, r.Valid ∧
        ((∃ k, slotOf st.rules r.id = some k ∧ st' = { st with rules := st.rules.set k r }) ∨
          slotOf st.rules r.id = none ∧ st.rules.length < maxRules ∧
            st' = { st with rules := st.rules ++ [r] })) ∨
      ∃ id : Text, st' = { st with rules := st.rules.filter (·.id ≠ id) } := by
  simp only [Firewall.command] at h
  split at h
  · cases h
  split at h
  · cases h
  split at h
  · exact .inl ⟨true, (Reply.stores.inj h).symm⟩
  split at h
  · exact .inl ⟨false, (Reply.stores.inj h).symm⟩
  split at h
  · split at h
    · split_ifs at h
      · exact .inr (.inl ⟨_, (Reply.stores.inj h).symm⟩)
      · cases h
    · cases h
  split at h
  · split at h
    · exact .inr (.inr (.inl (allow_stores h)))
    · cases h
  split at h
  · split at h
    · split_ifs at h
      · exact .inr (.inr (.inr ⟨_, (Reply.stores.inj h).symm⟩))
      · cases h
    · cases h
  · cases h

theorem State.Sound.command (h : st.Sound) (hc : command st cmd args = .stores st') :
    st'.Sound := by
  rcases command_stores hc with ⟨b, rfl⟩ | ⟨b, rfl⟩ | ⟨r, hr, hslot⟩ | ⟨id, rfl⟩
  · exact ⟨h.valid, h.length⟩
  · exact ⟨h.valid, h.length⟩
  · rcases hslot with ⟨k, hk, rfl⟩ | ⟨hk, hlen, rfl⟩
    · refine ⟨fun s hs => ?_, (List.length_set ..).trans_le h.length⟩
      exact (List.mem_or_eq_of_mem_set hs).elim (h.valid s) fun he => he ▸ hr
    · refine ⟨fun s hs => ?_, ?_⟩
      · exact (List.mem_append.mp hs).elim (h.valid s) fun hm => List.mem_singleton.mp hm ▸ hr
      · rw [List.length_append, List.length_singleton]
        omega
  · exact ⟨fun s hs => h.valid s (List.mem_of_mem_filter hs),
      (List.length_filter_le _ _).trans h.length⟩

theorem State.WellFormed.command (h : st.WellFormed) (hc : command st cmd args = .stores st') :
    st'.WellFormed := by
  refine ⟨h.toSound.command hc, ?_⟩
  rcases command_stores hc with ⟨b, rfl⟩ | ⟨b, rfl⟩ | ⟨r, hr, hslot⟩ | ⟨id, rfl⟩
  · exact h.ids
  · exact h.ids
  · obtain ⟨hsome, hnone⟩ := slotOf_spec st.rules r.id
    rcases hslot with ⟨k, hk, rfl⟩ | ⟨hk, hlen, rfl⟩
    · -- The slot held a rule with the same id, so that the ids are as before.
      obtain ⟨hlt, hid⟩ := List.getElem?_eq_some_iff.mp (hsome k hk)
      have hids : (st.rules.set k r).map Rule.id = st.rules.map Rule.id := by
        rw [List.map_set, ← hid, List.set_getElem_self]
      exact hids ▸ h.ids
    · rw [List.map_append]
      exact List.Nodup.append h.ids (List.nodup_singleton _)
        (List.disjoint_singleton.mpr (hnone hk))
  · exact h.ids.sublist (List.filter_sublist.map _)

/-! ### Runs -/

/-- The file says what the last command stored. -/
structure World.Stored (w : World) : Prop where
  stored : w.stored.WellFormed
  file : loadState w.file = w.stored

theorem stored_start : ({} : World).Stored :=
  ⟨⟨⟨fun _ hr => absurd hr List.not_mem_nil, Nat.zero_le _⟩, List.nodup_nil⟩, rfl⟩

theorem stored_step (w : World) (i : Invocation) (h : w.Stored) : (w.step i).Stored := by
  rw [World.step, World.main]
  split
  · exact h
  · split
    · exact h
    · exact h
    · next st hst =>
      have hst := h.stored.command (h.file ▸ hst)
      split
      · exact h
      · split
        · exact h
        · exact ⟨hst, loadState_saveState hst.toSound⟩

/-- **The state file round trip**: after every run of commands, whether or not each of them
succeeds, the stored state has no more rules than the table holds and no id twice, the file that is
written for it is read back as it is, and it is what the file at hand is read as. -/
theorem run_stored (is : List Invocation) :
    ((Transition.run World.step {} is).stored.rules.length ≤ maxRules ∧
      ((Transition.run World.step {} is).stored.rules.map Rule.id).Nodup) ∧
    loadState (some (saveState (Transition.run World.step {} is).stored)) =
      (Transition.run World.step {} is).stored ∧
    loadState (Transition.run World.step {} is).file =
      (Transition.run World.step {} is).stored := by
  have h : (Transition.run World.step {} is).Stored :=
    Transition.run_invariant stored_step stored_start is
  exact ⟨⟨h.stored.length, h.stored.ids⟩, loadState_saveState h.stored.toSound, h.file⟩

end Firewall

end SingularityShell
