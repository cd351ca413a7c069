import SingularityShell.Firewall.Rules

/-!
# The ruleset for nft

`build_ruleset` writes the text that goes to `nft` as root. Whatever the state file holds, that text
is the fixed prologue and one accept rule for each item of each active rule.

## Main definitions

* `Firewall.buildRuleset` — the text, as the helper writes it
* `Firewall.State.accepts`, `Firewall.script` — the accept rules and the lines that are meant
* `Firewall.tokens` — the words and quoted strings of a line

## Main results

* `Firewall.ruleset_spec` — the text of any state is the script that is meant
-/

namespace SingularityShell

namespace Firewall

open Ascii CString

/-! ### The text -/

/-- The line for one item of a rule, in the buffer it is printed to. -/
def itemText (label item : Text) : Text :=
  snprintf 512 (ofString "\t\t" ++ protoOf item ++ ofString " dport " ++ portOf item ++
    ofString " accept comment \"" ++ label ++ ofString "\"\n")

def ruleText (publicProfile : Bool) (r : Rule) : Text :=
  if publicProfile && !r.publicToo then []
  else (strtokAll 44 (snprintf 256 r.ports)).flatMap (itemText r.label)

/-- The table is made when it is missing, and deleted. -/
def resetText : Text :=
  ofString "table inet singularity_firewall\ndelete table inet singularity_firewall\n"

/-- The chain up to the rules of the profile. -/
def chainText : Text := [
  "table inet singularity_firewall \x7b\n",
  "\tchain input \x7b\n",
  "\t\ttype filter hook input priority filter; policy drop;\n",
  "\t\tct state established,related accept\n",
  "\t\tct state invalid drop\n",
  "\t\tiifname \"lo\" accept\n",
  "\t\tmeta l4proto \x7b icmp, ipv6-icmp \x7d accept\n",
  "\t\tudp dport 68 accept\n",
  "\t\tudp dport 546 accept\n"].flatMap ofString

def buildRuleset (st : State) : Text :=
  if !st.enabled then resetText
  else
    let buf := resetText ++ chainText
    let buf := if !st.publicProfile then
      buf ++ ofString "\t\tudp dport 5353 accept comment \"mDNS\"\n" else buf
    buf ++ st.rules.flatMap (ruleText st.publicProfile) ++ ofString "\t\x7d\n\x7d\n"

/-! ### What is meant -/

/-- A rule that lets a port in. -/
structure Accept where
  proto : Text
  port : Text
  comment : Text

def Accept.line (a : Accept) : Text :=
  ofString "\t\t" ++ a.proto ++ ofString " dport " ++ a.port ++ ofString " accept comment \"" ++
    a.comment ++ ofString "\""

/-- One for each item of each rule of the profile, in order. -/
def State.accepts (st : State) : List Accept :=
  (st.rules.filter fun r => !st.publicProfile || r.publicToo).flatMap fun r =>
    r.items.map fun i => ⟨protoOf i, portOf i, r.label⟩

/-- The lines that start the table. -/
def chain (publicProfile : Bool) : List Text :=
  [ofString "table inet singularity_firewall \x7b",
    ofString "\tchain input \x7b",
    ofString "\t\ttype filter hook input priority filter; policy drop;",
    ofString "\t\tct state established,related accept",
    ofString "\t\tct state invalid drop",
    ofString "\t\tiifname \"lo\" accept",
    ofString "\t\tmeta l4proto \x7b icmp, ipv6-icmp \x7d accept",
    ofString "\t\tudp dport 68 accept",
    ofString "\t\tudp dport 546 accept"] ++
  if publicProfile then [] else [ofString "\t\tudp dport 5353 accept comment \"mDNS\""]

/-- The lines of the ruleset: the table is made anew, and filled when the firewall is enabled. -/
def script (st : State) : List Text :=
  [ofString "table inet singularity_firewall", ofString "delete table inet singularity_firewall"] ++
  if st.enabled then
    chain st.publicProfile ++ st.accepts.map Accept.line ++ [ofString "\t\x7d", ofString "\x7d"]
  else []

/-! ### The words of a line -/

inductive Token where
  | word (text : Text)
  | quoted (text : Text)
  /-- A byte that means something by itself, such as `;` or a brace. -/
  | mark (b : UInt8)
  deriving DecidableEq

/-- The bytes of words. -/
def wordByte (b : UInt8) : Bool :=
  isDigit b || (97 ≤ b && b ≤ 122) || (65 ≤ b && b ≤ 90) || b == 45 || b == 95

/-- The token that ends before the byte `b`, and `b` where it is a mark. -/
def flush (acc : Text) : List Token := if acc = [] then [] else [.word acc]

def marks (b : UInt8) : List Token := if b = 32 ∨ b = 9 ∨ b = 34 then [] else [.mark b]

/-- The tokens of a text, `acc` being what has been read of the current one, in quotes or not. There
are none when a quote is not closed. -/
def tokensFrom : Bool → Text → Text → Option (List Token)
  | true, _, [] => none
  | false, acc, [] => some (flush acc)
  | true, acc, b :: text =>
    if b = 34 then (tokensFrom false [] text).map (.quoted acc :: ·)
    else tokensFrom true (acc ++ [b]) text
  | false, acc, b :: text =>
    if wordByte b then tokensFrom false (acc ++ [b]) text
    else (tokensFrom (b == 34) [] text).map (flush acc ++ marks b ++ ·)

def tokens (line : Text) : Option (List Token) := tokensFrom false [] line

def Accept.tokens (a : Accept) : List Token :=
  [.word a.proto, .word (ofString "dport"), .word a.port, .word (ofString "accept"),
    .word (ofString "comment"), .quoted a.comment]

theorem tokensFrom_word {t : Text} (h : ∀ b ∈ t, wordByte b = true) (acc rest : Text) :
    tokensFrom false acc (t ++ rest) = tokensFrom false (acc ++ t) rest := by
  induction t generalizing acc with
  | nil => rw [List.nil_append, List.append_nil]
  | cons b t ih =>
    rw [List.cons_append, tokensFrom, if_pos (h b List.mem_cons_self),
      ih (fun c hc => h c (List.mem_cons_of_mem _ hc)), List.append_assoc, List.singleton_append]

theorem tokensFrom_quoted {t : Text} (h : 34 ∉ t) (acc rest : Text) :
    tokensFrom true acc (t ++ 34 :: rest) =
      (tokensFrom false [] rest).map (.quoted (acc ++ t) :: ·) := by
  induction t generalizing acc with
  | nil => rw [List.nil_append, List.append_nil, tokensFrom, if_pos rfl]
  | cons b t ih =>
    have hb : b ≠ 34 := fun he => h (he ▸ List.mem_cons_self)
    rw [List.cons_append, tokensFrom, if_neg hb, ih (List.not_mem_of_not_mem_cons h),
      List.append_assoc, List.singleton_append]

theorem tokensFrom_blank {t : Text} (hne : t ≠ []) (h : ∀ b ∈ t, wordByte b = true) (rest : Text) :
    tokensFrom false [] (t ++ 32 :: rest) = (tokensFrom false [] rest).map (.word t :: ·) := by
  have hflush : flush t ++ marks 32 = [.word t] := by simp [flush, marks, hne]
  rw [tokensFrom_word h, List.nil_append, tokensFrom, if_neg (by decide), hflush]
  rfl

/-- An accept rule reads as the words it is made of and its comment. -/
theorem Accept.tokens_line {a : Accept} (hproto : a.proto ≠ [] ∧ ∀ b ∈ a.proto, wordByte b = true)
    (hport : a.port ≠ [] ∧ ∀ b ∈ a.port, wordByte b = true) (hcomment : 34 ∉ a.comment) :
    Firewall.tokens a.line = some a.tokens := by
  have hline : a.line = 9 :: 9 :: (a.proto ++ 32 :: (ofString "dport" ++ 32 :: (a.port ++
      32 :: (ofString "accept" ++ 32 :: (ofString "comment" ++ 32 :: 34 ::
        (a.comment ++ 34 :: [])))))) := by
    simp [Accept.line, ofString]
  have hword : ∀ t ∈ [ofString "dport", ofString "accept", ofString "comment"],
      t ≠ [] ∧ ∀ b ∈ t, wordByte b = true := by decide +kernel
  obtain ⟨hdport, haccept, hcomm⟩ : _ ∧ _ ∧ _ := by simpa using hword
  have htab : ∀ rest, tokensFrom false [] (9 :: rest) = tokensFrom false [] rest := fun rest => by
    rw [tokensFrom, if_neg (by decide)]
    exact Option.map_id'
  have hquote : ∀ rest, tokensFrom false [] (34 :: rest) = tokensFrom true [] rest := fun rest => by
    rw [tokensFrom, if_neg (by decide)]
    exact Option.map_id'
  rw [Firewall.tokens, hline, htab, htab, tokensFrom_blank hproto.1 hproto.2,
    tokensFrom_blank hdport.1 (by simpa using hdport.2), tokensFrom_blank hport.1 hport.2,
    tokensFrom_blank haccept.1 (by simpa using haccept.2),
    tokensFrom_blank hcomm.1 (by simpa using hcomm.2), hquote, tokensFrom_quoted hcomment]
  rfl

/-! ### The text is the script -/

variable {r : Rule} {st : State}

/-- An item as it is split for its line. -/
theorem IsItem.spec {item : Text} (h : IsItem item) : item = portOf item ++ 47 :: protoOf item ∧
    IsPort (portOf item) ∧ (protoOf item = ofString "tcp" ∨ protoOf item = ofString "udp") := by
  obtain ⟨port, proto, rfl, hport, hproto⟩ := h
  obtain ⟨hbefore, hafter⟩ := portOf_append hport proto
  rw [hbefore, hafter]
  exact ⟨rfl, hport, hproto⟩

/-- The line of an item fits in its buffer. -/
theorem itemText_eq (hr : r.Valid) {item : Text} (h : IsItem item) :
    itemText r.label item = (Accept.mk (protoOf item) (portOf item) r.label).line ++ [10] := by
  obtain ⟨-, hport, hproto⟩ := h.spec
  obtain ⟨-, -, -, hlabel⟩ := hr.length
  have hportlen := hport.length.2
  have hprotolen : (protoOf item).length = 3 := by rcases hproto with h | h <;> rw [h] <;> rfl
  have hdport : (ofString " dport ").length = 7 := rfl
  have haccept : (ofString " accept comment \"").length = 17 := rfl
  have htabs : (ofString "\t\t").length = 2 := rfl
  have hend : (ofString "\"\n").length = 2 := rfl
  rw [itemText, snprintf_of_lt]
  · simp [Accept.line, ofString]
  · simp only [List.length_append, hprotolen, hdport, haccept, htabs, hend]
    omega

/-- The splitting of `strtok_r` agrees with that of the validator. -/
theorem ruleText_eq (hr : r.Valid) (publicProfile : Bool) : ruleText publicProfile r =
    (if !publicProfile || r.publicToo then
      r.items.map fun i => Accept.mk (protoOf i) (portOf i) r.label else []).flatMap
        (·.line ++ [10]) := by
  obtain ⟨hitems, hports⟩ := hr.items
  have hlen := hr.length.2.1.2
  have htokens : strtokAll 44 (snprintf 256 r.ports) = r.items := by
    rw [snprintf_of_lt (by omega), hports]
    exact strtokAll_intercalate fun i hi => ⟨(hitems i hi).ne_nil, (hitems i hi).notMem_comma⟩
  rw [ruleText, htokens]
  cases publicProfile <;> cases r.publicToo <;>
    simp [List.flatMap_map, List.flatMap_congr fun i hi => itemText_eq hr (hitems i hi)]

theorem flatMap_ruleText {rules : List Rule} (h : ∀ r ∈ rules, r.Valid) (publicProfile : Bool) :
    rules.flatMap (ruleText publicProfile) =
      (((rules.filter fun r => !publicProfile || r.publicToo).flatMap fun r =>
        r.items.map fun i => Accept.mk (protoOf i) (portOf i) r.label).map Accept.line).flatMap
          (· ++ [10]) := by
  induction rules with
  | nil => rfl
  | cons r rules ih =>
    rw [List.flatMap_cons, ruleText_eq (h r List.mem_cons_self),
      ih fun s hs => h s (List.mem_cons_of_mem _ hs), List.filter_cons]
    split_ifs with hr
    · simp only [List.flatMap_cons, List.map_append, List.flatMap_append, List.flatMap_map]
    · rfl

theorem chain_eq (publicProfile : Bool) : (if !publicProfile then
      resetText ++ chainText ++ ofString "\t\tudp dport 5353 accept comment \"mDNS\"\n"
      else resetText ++ chainText) = resetText ++ (chain publicProfile).flatMap (· ++ [10]) := by
  have hchain : chainText = (chain true).flatMap (· ++ [10]) := by
    rw [chain, if_pos rfl, List.append_nil, chainText]
    simp only [List.flatMap_cons, List.flatMap_nil, ← ofString_newline]
    rfl
  cases publicProfile with
  | false =>
    have hmdns : chain false =
        chain true ++ [ofString "\t\tudp dport 5353 accept comment \"mDNS\""] := by
      simp [chain]
    rw [if_pos (by decide), hchain, List.append_assoc, hmdns, List.flatMap_append,
      List.flatMap_singleton, ← ofString_newline]
    rfl
  | true => rw [if_neg (by decide), hchain]

theorem buildRuleset_eq (h : st.Sound) : buildRuleset st = (script st).flatMap (· ++ [10]) := by
  have hrules : st.rules.flatMap (ruleText st.publicProfile) =
      (st.accepts.map Accept.line).flatMap (· ++ [10]) := flatMap_ruleText h.valid st.publicProfile
  have hreset : resetText = [ofString "table inet singularity_firewall",
      ofString "delete table inet singularity_firewall"].flatMap (· ++ [10]) := by decide
  have hend : ofString "\t\x7d\n\x7d\n" =
      [ofString "\t\x7d", ofString "\x7d"].flatMap (· ++ [10]) := by decide
  rw [buildRuleset, script, List.flatMap_append, ← hreset]
  cases st.enabled with
  | false => exact (List.append_nil _).symm
  | true =>
    show (if _ then _ else _) ++ st.rules.flatMap _ ++ _ = _
    rw [chain_eq, hrules, hend, if_pos rfl, List.flatMap_append, List.flatMap_append]
    simp only [List.append_assoc]

/-- What stands in an accept rule. -/
theorem accepts_spec (h : st.Sound) : ∀ a ∈ st.accepts, IsPort a.port ∧
    (a.proto = ofString "tcp" ∨ a.proto = ofString "udp") ∧ validLabel a.comment = true := by
  rintro a ha
  obtain ⟨r, hr, ha⟩ := List.mem_flatMap.mp ha
  obtain ⟨i, hi, rfl⟩ := List.mem_map.mp ha
  have hvalid := h.valid r (List.mem_of_mem_filter hr)
  obtain ⟨-, hport, hproto⟩ := (hvalid.items.1 i hi).spec
  exact ⟨hport, hproto, hvalid.label⟩

/-- Neither the fixed lines nor the accept rules hold a newline. -/
theorem notMem_script (h : st.Sound) : ∀ l ∈ script st, 10 ∉ l := by
  have hreset : ∀ l ∈ [ofString "table inet singularity_firewall",
      ofString "delete table inet singularity_firewall"], 10 ∉ l := by decide
  have hchain : ∀ p : Bool, ∀ l ∈ chain p, 10 ∉ l := by decide +kernel
  have hend : ∀ l ∈ [ofString "\t\x7d", ofString "\x7d"], 10 ∉ l := by decide
  have haccepts : ∀ l ∈ st.accepts.map Accept.line, 10 ∉ l := by
    rintro l hl hm
    obtain ⟨a, ha, rfl⟩ := List.mem_map.mp hl
    obtain ⟨hport, hproto, hlabel⟩ := accepts_spec h a ha
    have hport : 10 ∉ a.port := fun hb => absurd (hport.mem hb) (by decide)
    have hproto : 10 ∉ a.proto := by rcases hproto with h | h <;> rw [h] <;> decide +kernel
    have hlabel : 10 ∉ a.comment := fun hb =>
      absurd ((validLabel_iff.mp hlabel).2.2 10 hb).1 (by decide)
    have hfixed : ∀ s ∈ [ofString "\t\t", ofString " dport ", ofString " accept comment \"",
      ofString "\""], 10 ∉ s := by decide
    simp only [Accept.line, List.mem_append, hport, hproto, hlabel, or_false] at hm
    rcases hm with ((hm | hm) | hm) | hm
    all_goals exact hfixed _ (by simp) hm
  rintro l hl
  rcases List.mem_append.mp hl with hl | hl
  · exact hreset l hl
  · split_ifs at hl
    · rcases List.mem_append.mp hl with hl | hl
      · exact (List.mem_append.mp hl).elim (hchain _ l) (haccepts l)
      · exact hend l hl
    · cases hl

/-- **The ruleset of any state file** is the script that is meant, line by line and none of them
cut. Each accept rule reads as the words of its item, one of those that the grammar of port lists
gives, and the label as it is. -/
theorem ruleset_spec (file : Option Text) :
    (buildRuleset (loadState file)).splitOn 10 = script (loadState file) ++ [[]] ∧
    (∀ a ∈ (loadState file).accepts, tokens a.line = some a.tokens) ∧
    (∀ r ∈ (loadState file).rules, r.ports = [44].intercalate r.items ∧
      ∀ i ∈ r.items, i = portOf i ++ 47 :: protoOf i ∧ IsPort (portOf i) ∧
        (protoOf i = ofString "tcp" ∨ protoOf i = ofString "udp")) ∧
    ∀ ports : Text, validPorts ports = true ↔ ports.length ≤ 255 ∧
      ∃ items : List Text, items ≠ [] ∧ (∀ i ∈ items, IsItem i) ∧
        ports = [44].intercalate items := by
  have h := loadState_sound file
  refine ⟨?_, fun a ha => ?_, fun r hr => ?_, fun ports => validPorts_iff⟩
  · rw [buildRuleset_eq h, splitOn_unlines (notMem_script h)]
  · obtain ⟨hport, hproto, hlabel⟩ := accepts_spec h a ha
    refine Accept.tokens_line ⟨?_, ?_⟩ ⟨hport.length.1, fun b hb => ?_⟩ fun hm => ?_
    · rcases hproto with h | h <;> rw [h] <;> decide +kernel
    · rcases hproto with h | h <;> rw [h] <;> decide +kernel
    · rcases hport.mem hb with hd | rfl
      · simp [wordByte, hd]
      · decide
    · exact ((validLabel_iff.mp hlabel).2.2 34 hm).2.1 rfl
  · obtain ⟨hitems, hports⟩ := (h.valid r hr).items
    exact ⟨hports, fun i hi => (hitems i hi).spec⟩

/-- A list of items is refused when it is too long for the buffer. -/
theorem not_validPorts_of_long : ¬∀ ports : Text, validPorts ports = true ↔
    ∃ items : List Text, items ≠ [] ∧ (∀ i ∈ items, IsItem i) ∧
      ports = [44].intercalate items := by
  intro h
  have hitem : IsItem (ofString "65535/tcp") := validPortItem_iff.mp (by decide)
  have hlong := (h ([44].intercalate (List.replicate 26 (ofString "65535/tcp")))).mpr
    ⟨_, by simp, fun i hi => List.eq_of_mem_replicate hi ▸ hitem, rfl⟩
  exact absurd (validPorts_iff.mp hlong).1 (by decide +kernel)

end Firewall

end SingularityShell
