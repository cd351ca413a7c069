import SingularityShell.Firewall.Model

/-!
# What a rule may hold

The validators of the firewall helper, described as a grammar.

## Main definitions

* `Firewall.IsNumber`, `Firewall.IsItem` — a number and an item of a port list
* `Firewall.Rule.Valid`, `Firewall.State.Sound` — a rule whose fields have been checked, and a
  state of such rules

## Main results

* `Firewall.validPorts_iff` — the port lists that are accepted
* `Firewall.Rule.Valid.length`, `Firewall.Rule.Valid.blank` — how long the fields are and which
  bytes they hold
* `Firewall.loadState_sound` — the state of any file is sound
-/

namespace SingularityShell

namespace Firewall

open Ascii CString

/-- A numeral of at most five digits for a port. -/
def IsNumber (s : Text) (v : ℕ) : Prop :=
  s ≠ [] ∧ s.length ≤ 5 ∧ (∀ b ∈ s, isDigit b = true) ∧ value s = v ∧ 1 ≤ v ∧ v ≤ 65535

/-- `number`, or `low-high` with `low < high`. -/
def IsPort (port : Text) : Prop :=
  (∃ v, IsNumber port v) ∨
    ∃ low high a b, port = low ++ 45 :: high ∧ IsNumber low a ∧ IsNumber high b ∧ a < b

/-- A port or a range, `/`, and `tcp` or `udp`. -/
def IsItem (item : Text) : Prop :=
  ∃ port proto, item = port ++ 47 :: proto ∧ IsPort port ∧
    (proto = ofString "tcp" ∨ proto = ofString "udp")

/-! ### Port lists -/

theorem validNumber_eq_some {s : Text} {v : ℕ} : validNumber s = some v ↔ IsNumber s v := by
  rw [validNumber, IsNumber]
  constructor
  · intro h
    split_ifs at h with hlen hdigits hrange
    obtain rfl := Option.some.inj h
    push Not at hlen hrange
    exact ⟨List.length_pos_iff.mp (by omega), hlen.2, List.all_eq_true.mp hdigits, rfl, by omega,
      hrange.2⟩
  · rintro ⟨hne, hlen, hdigits, rfl, hlow, hhigh⟩
    have hpos := List.length_pos_iff.mpr hne
    rw [if_neg (by omega), if_pos (List.all_eq_true.mpr hdigits), if_neg (by omega)]

theorem isSome_validNumber {s : Text} : (validNumber s).isSome ↔ ∃ v, IsNumber s v := by
  rw [Option.isSome_iff_exists]
  exact exists_congr fun v => validNumber_eq_some

theorem IsNumber.notMem {s : Text} {v : ℕ} (h : IsNumber s v) {b : UInt8}
    (hb : isDigit b = false) : b ∉ s := fun hm => by
  rw [h.2.2.1 b hm] at hb
  cases hb

/-- The bytes of a port: digits and `-`. -/
theorem IsPort.mem {port : Text} (h : IsPort port) {b : UInt8} (hb : b ∈ port) :
    isDigit b = true ∨ b = 45 := by
  rcases h with ⟨v, hv⟩ | ⟨low, high, x, y, rfl, hx, hy, -⟩
  · exact .inl (hv.2.2.1 b hb)
  · rcases List.mem_append.mp hb with hb | hb
    · exact .inl (hx.2.2.1 b hb)
    · exact (List.mem_cons.mp hb).symm.imp_left (hy.2.2.1 b)

theorem IsPort.length {port : Text} (h : IsPort port) : port ≠ [] ∧ port.length ≤ 11 := by
  rcases h with ⟨v, hv⟩ | ⟨low, high, a, b, rfl, ha, hb, -⟩
  · exact ⟨hv.1, by have := hv.2.1; omega⟩
  · have hlow := ha.2.1
    have hhigh := hb.2.1
    exact ⟨by simp, by rw [List.length_append, List.length_cons]; omega⟩

theorem portOf_append {port : Text} (h : IsPort port) (proto : Text) :
    portOf (port ++ 47 :: proto) = port ∧ protoOf (port ++ 47 :: proto) = proto :=
  takeWhile_ne_append fun hm => absurd (h.mem hm) (by decide)

theorem validPortItem_iff {item : Text} : validPortItem item = true ↔ IsItem item := by
  constructor
  · intro h
    rw [validPortItem] at h
    split_ifs at h with hslash hproto hdash
    · obtain ⟨hitem, -⟩ := takeWhile_ne_cons_tail hslash
      obtain ⟨hport, -⟩ := takeWhile_ne_cons_tail hdash
      split at h
      · next a b ha hb =>
        exact ⟨_, _, hitem, .inr ⟨_, _, a, b, hport, validNumber_eq_some.mp ha,
          validNumber_eq_some.mp hb, of_decide_eq_true h⟩, hproto⟩
      · cases h
    · obtain ⟨hitem, -⟩ := takeWhile_ne_cons_tail hslash
      exact ⟨_, _, hitem, .inl (isSome_validNumber.mp h), hproto⟩
  · rintro ⟨port, proto, rfl, hport, hproto⟩
    obtain ⟨hbefore, hafter⟩ := portOf_append hport proto
    rw [validPortItem, if_neg (by simp), hbefore, hafter, if_neg (not_not.mpr hproto)]
    rcases hport with ⟨v, hv⟩ | ⟨low, high, a, b, rfl, ha, hb, hab⟩
    · rw [if_pos (hv.notMem (by decide))]
      exact isSome_validNumber.mpr ⟨v, hv⟩
    · obtain ⟨hlow, hhigh⟩ := takeWhile_ne_append (s := high) (ha.notMem (b := 45) (by decide))
      rw [if_neg (by simp), hlow, hhigh, validNumber_eq_some.mpr ha, validNumber_eq_some.mpr hb]
      exact decide_eq_true hab

/-- The bytes of an item, none of which has a meaning in the files it is written to. -/
theorem IsItem.mem {item : Text} (h : IsItem item) {b : UInt8} (hb : b ∈ item) :
    isDigit b = true ∨ b ∈ ofString "-/tcpud" := by
  obtain ⟨port, proto, rfl, hport, hproto⟩ := h
  rcases List.mem_append.mp hb with hb | hb
  · refine (hport.mem hb).imp_right ?_
    rintro rfl
    decide
  · rcases List.mem_cons.mp hb with rfl | hb
    · exact .inr (by decide)
    · have htcp : ∀ c ∈ ofString "tcp", c ∈ ofString "-/tcpud" := by decide +kernel
      have hudp : ∀ c ∈ ofString "udp", c ∈ ofString "-/tcpud" := by decide +kernel
      right
      rcases hproto with rfl | rfl
      · exact htcp b hb
      · exact hudp b hb

theorem IsItem.ne_nil {item : Text} (h : IsItem item) : item ≠ [] := by
  obtain ⟨port, proto, rfl, -, -⟩ := h
  simp

theorem IsItem.notMem_comma {item : Text} (h : IsItem item) : 44 ∉ item := fun hm =>
  absurd (h.mem hm) (by decide)

/-- **The port lists that are accepted**: items with a comma between each two, of at most 255
bytes together. -/
theorem validPorts_iff {ports : Text} : validPorts ports = true ↔
    ports.length ≤ 255 ∧ ∃ items : List Text, items ≠ [] ∧ (∀ i ∈ items, IsItem i) ∧
      ports = [44].intercalate items := by
  have hall : (ports.splitOn 44).all validPortItem = true ↔ ∀ i ∈ ports.splitOn 44, IsItem i :=
    List.all_eq_true.trans (forall₂_congr fun i _ => validPortItem_iff)
  simp only [validPorts, Bool.and_eq_true, decide_eq_true_eq, hall]
  constructor
  · rintro ⟨⟨-, hlen⟩, hitems⟩
    exact ⟨hlen, _, List.splitOn_ne_nil _ _, hitems, (List.intercalate_splitOn _).symm⟩
  · rintro ⟨hlen, items, hne, hitems, rfl⟩
    rw [List.splitOn_intercalate _ (fun i hi => (hitems i hi).notMem_comma) hne]
    refine ⟨⟨?_, hlen⟩, hitems⟩
    obtain ⟨i, rest, rfl⟩ := List.exists_cons_of_ne_nil hne
    have hi := List.length_pos_iff.mpr (hitems i List.mem_cons_self).ne_nil
    cases rest with
    | nil => simpa using (hitems i List.mem_cons_self).ne_nil
    | cons j rest =>
      rw [List.intercalate_cons_cons, List.length_append, List.length_append]
      omega

/-! ### Rules -/

structure Rule.Valid (r : Rule) : Prop where
  id : validId r.id = true
  ports : validPorts r.ports = true
  label : validLabel r.label = true

/-- The items of the port list of a rule. -/
def Rule.items (r : Rule) : List Text := r.ports.splitOn 44

theorem Rule.Valid.items {r : Rule} (h : r.Valid) :
    (∀ i ∈ r.items, IsItem i) ∧ r.ports = [44].intercalate r.items := by
  have hports := h.ports
  simp only [validPorts, Bool.and_eq_true] at hports
  exact ⟨fun i hi => validPortItem_iff.mp (List.all_eq_true.mp hports.2 i hi),
    (List.intercalate_splitOn _).symm⟩

theorem validId_iff {id : Text} : validId id = true ↔ id ≠ [] ∧ id.length ≤ 32 ∧
    ∀ b ∈ id, (97 ≤ b ∧ b ≤ 122) ∨ isDigit b = true ∨ b = 45 := by
  simp [validId, and_assoc, or_assoc]

theorem validLabel_iff {label : Text} : validLabel label = true ↔
    label ≠ [] ∧ label.length ≤ 64 ∧ ∀ b ∈ label, 32 ≤ b ∧ b ≠ 34 ∧ b ≠ 92 ∧ b ≠ 127 := by
  simp [validLabel, and_assoc]

/-- No field is empty, and each fits in its buffer. -/
theorem Rule.Valid.length {r : Rule} (h : r.Valid) :
    (r.id ≠ [] ∧ r.id.length ≤ 32) ∧ (r.ports ≠ [] ∧ r.ports.length ≤ 255) ∧
      r.label ≠ [] ∧ r.label.length ≤ 64 := by
  have hid := validId_iff.mp h.id
  have hlabel := validLabel_iff.mp h.label
  have hports := h.ports
  simp only [validPorts, Bool.and_eq_true, decide_eq_true_eq] at hports
  exact ⟨⟨hid.1, hid.2.1⟩, ⟨fun he => hports.1.1 (congrArg List.length he), hports.1.2⟩,
    hlabel.1, hlabel.2.1⟩

theorem lt_of_isDigit {b : UInt8} (h : isDigit b = true) : 32 < b := by
  simp only [isDigit, Bool.and_eq_true, decide_eq_true_eq] at h
  exact UInt8.lt_of_lt_of_le (by decide) h.1

/-- The buffers of a rule are long enough for its fields. -/
theorem Rule.Valid.copy_eq {r : Rule} (h : r.Valid) :
    Rule.mk (snprintf 33 r.id) r.publicToo (snprintf 256 r.ports) (snprintf 65 r.label) = r := by
  obtain ⟨⟨-, hid⟩, ⟨-, hports⟩, -, hlabel⟩ := h.length
  rw [snprintf_of_lt (Nat.lt_succ_of_le hid), snprintf_of_lt (Nat.lt_succ_of_le hports),
    snprintf_of_lt (Nat.lt_succ_of_le hlabel)]

/-- A field holds no control byte, and only the label holds blanks. -/
theorem Rule.Valid.blank {r : Rule} (h : r.Valid) :
    (∀ b ∈ r.id, 32 < b) ∧ (∀ b ∈ r.ports, 32 < b) ∧ ∀ b ∈ r.label, 32 ≤ b := by
  refine ⟨fun b hb => ?_, fun b hb => ?_, fun b hb => ((validLabel_iff.mp h.label).2.2 b hb).1⟩
  · rcases (validId_iff.mp h.id).2.2 b hb with ⟨hlow, -⟩ | hdigit | rfl
    · exact UInt8.lt_of_lt_of_le (by decide) hlow
    · exact lt_of_isDigit hdigit
    · decide
  · obtain ⟨hitems, hports⟩ := h.items
    rw [hports] at hb
    rcases mem_intercalate hb with rfl | ⟨i, hi, hbi⟩
    · decide
    · have hother : ∀ c ∈ ofString "-/tcpud", 32 < c := by decide +kernel
      exact ((hitems i hi).mem hbi).elim lt_of_isDigit (hother b)

/-! ### States -/

/-- Every rule has been checked, and there are not too many. -/
structure State.Sound (st : State) : Prop where
  valid : ∀ r ∈ st.rules, r.Valid
  length : st.rules.length ≤ maxRules

/-- The fields have been checked before they are copied. -/
theorem parseRule_valid {line : Text} {r : Rule} (h : parseRule line = some r) : r.Valid := by
  rw [parseRule] at h
  obtain ⟨⟨id, save⟩, hid, h⟩ := Option.bind_eq_some_iff.mp h
  obtain ⟨⟨pub, save'⟩, hpub, h⟩ := Option.bind_eq_some_iff.mp h
  obtain ⟨⟨ports, label⟩, hports, h⟩ := Option.bind_eq_some_iff.mp h
  obtain ⟨u, hguard, h⟩ := Option.bind_eq_some_iff.mp h
  have hfields : (validId id && validPorts ports && validLabel label) = true := by
    by_contra hn
    rw [guard, if_neg hn] at hguard
    cases hguard
  simp only [Bool.and_eq_true] at hfields
  obtain ⟨⟨hid, hports⟩, hlabel⟩ := hfields
  have hvalid : Rule.Valid ⟨id, pub = ofString "1", ports, label⟩ := ⟨hid, hports, hlabel⟩
  rw [← Option.some.inj h, hvalid.copy_eq]
  exact hvalid

theorem readLine_sound {st : State} (h : st.Sound) (buf : Text) : (readLine st buf).Sound := by
  rw [readLine]
  split
  · exact ⟨h.valid, h.length⟩
  · split
    · exact ⟨h.valid, h.length⟩
    · split
      · next hrule =>
        split
        · exact h
        · next r hr =>
          refine ⟨fun s hs => ?_, ?_⟩
          · rcases List.mem_append.mp hs with hs | hs
            · exact h.valid s hs
            · exact List.mem_singleton.mp hs ▸ parseRule_valid hr
          · rw [List.length_append, List.length_singleton]
            exact hrule.2
      · exact h

/-- The state of any file has only rules that have been checked. -/
theorem loadState_sound (file : Option Text) : (loadState file).Sound := by
  have hstart : ({} : State).Sound := ⟨fun _ hr => absurd hr List.not_mem_nil, Nat.zero_le _⟩
  cases file with
  | none => exact hstart
  | some bytes =>
    exact List.foldlRecOn _ readLine hstart fun st h buf _ => readLine_sound h buf

end Firewall

end SingularityShell
