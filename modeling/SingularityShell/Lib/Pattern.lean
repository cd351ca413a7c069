import Mathlib.Data.List.Basic
import Mathlib.Data.List.Infix

/-!
# Patterns in texts

The first place at which a pattern stands in a text, and patterns that are replaced by one element
each, one after the other or all at once.

## Main definitions

* `Pattern.Led`, `Pattern.Bracketed` — patterns whose ends are found nowhere else in them
* `Pattern.cut` — a text before and from the first place of a pattern
* `Pattern.replaceAny` — every pattern of a table is replaced

## Main results

* `Pattern.Bracketed.not_infix_append` — a pattern does not lie across the joint of two texts
* `Pattern.cut_append` — the first place of a pattern is found
* `Pattern.replaceAny_snoc` — replacing one more pattern afterwards is replacing it too
-/

namespace SingularityShell

namespace Pattern

variable {α : Type*} {lead last : α} {pat : List α}

/-- A pattern whose first element is found nowhere else in it. -/
def Led (lead : α) (pat : List α) : Prop := ∃ tail, pat = lead :: tail ∧ lead ∉ tail

/-- A pattern whose first and last elements are found nowhere else in it. -/
def Bracketed (lead last : α) (pat : List α) : Prop :=
  ∃ mid, pat = lead :: (mid ++ [last]) ∧ lead ∉ mid ++ [last] ∧ last ∉ lead :: mid

theorem Led.ne_nil (h : Led lead pat) : pat ≠ [] := by
  obtain ⟨tail, rfl, -⟩ := h
  exact List.cons_ne_nil _ _

theorem Bracketed.led (h : Bracketed lead last pat) : Led lead pat := by
  obtain ⟨mid, rfl, hlead, -⟩ := h
  exact ⟨_, rfl, hlead⟩

/-- A pattern that begins before a text that begins with its first element has ended there. -/
theorem Led.prefix_of_append (h : Led lead pat) {before rest : List α} (hne : before ≠ [])
    (hrest : ∀ b ∈ rest.head?, b = lead) (hpre : pat <+: before ++ rest) : pat <+: before := by
  obtain ⟨tail, rfl, hlead⟩ := h
  obtain ⟨b, before, rfl⟩ := List.exists_cons_of_ne_nil hne
  rw [List.cons_append, List.cons_prefix_cons] at hpre
  obtain ⟨rfl, htail⟩ := hpre
  rw [List.cons_prefix_cons]
  refine ⟨rfl, ?_⟩
  rcases List.prefix_or_prefix_of_prefix htail (List.prefix_append before rest) with hpre | hpre
  · exact hpre
  · obtain ⟨more, rfl⟩ := hpre
    rw [List.prefix_append_right_inj] at htail
    cases more with
    | nil => simp
    | cons c more =>
      obtain ⟨rest, rfl⟩ := htail
      have hc : c = lead := hrest c rfl
      exact absurd (hc ▸ List.mem_append_right _ List.mem_cons_self) hlead

/-- **Joints.** A pattern does not lie across a joint after its last or before its first element. -/
theorem Bracketed.not_infix_append (h : Bracketed lead last pat) {a b : List α}
    (hjoint : (∀ c ∈ b.head?, c = lead) ∨ ∀ c ∈ a.getLast?, c = last) (ha : ¬pat <:+: a)
    (hb : ¬pat <:+: b) : ¬pat <:+: a ++ b := by
  obtain ⟨mid, rfl, hlead, hlast⟩ := h
  rw [List.infix_append_iff_ne_nil]
  rintro (hin | hin | ⟨p, q, hp, hq, heq, hpa, hqb⟩)
  · exact ha hin
  · exact hb hin
  · obtain ⟨x, p, rfl⟩ := List.exists_cons_of_ne_nil hp
    obtain ⟨q, y, rfl⟩ : ∃ q' y, q = q' ++ [y] :=
      ⟨_, _, (List.dropLast_append_getLast hq).symm⟩
    rw [← List.append_assoc, List.cons_append, List.cons_append] at heq
    obtain ⟨rfl, hmid⟩ := List.cons.inj heq
    obtain ⟨rfl, hlasts⟩ := List.append_inj' hmid rfl
    obtain rfl : last = y := (List.cons.inj hlasts).1
    rcases hjoint with hjoint | hjoint
    · -- the part after the joint begins with the first element of the pattern
      have hhead : ∀ c ∈ (q ++ [last]).head?, c = lead := by
        obtain ⟨rest, rfl⟩ := hqb
        rintro c hc
        exact hjoint c (by rw [List.head?_append, Option.mem_def.mp hc, Option.some_or]; rfl)
      obtain ⟨c, q', hq'⟩ := List.exists_cons_of_ne_nil hq
      rw [hq'] at hhead
      refine hlead ?_
      rw [List.append_assoc, hq', ← hhead c rfl]
      exact List.mem_append_right _ List.mem_cons_self
    · -- the part before it ends with the last one
      have hend : ∀ c ∈ (lead :: p).getLast?, c = last := by
        obtain ⟨rest, rfl⟩ := hpa
        rintro c hc
        exact hjoint c (by rw [List.getLast?_append, Option.mem_def.mp hc, Option.some_or]; rfl)
      refine hlast ?_
      have hmem := List.getLast_mem hp
      rw [hend _ (List.getLast?_eq_some_getLast hp)] at hmem
      rw [← List.cons_append]
      exact List.mem_append_left _ hmem

variable [DecidableEq α]

/-! ### The first place of a pattern -/

/-- The text before the first place of a pattern, and the text from there. -/
def cut (pat : List α) : List α → Option (List α × List α)
  | [] => if pat = [] then some ([], []) else none
  | b :: text =>
    if pat <+: b :: text then some ([], b :: text)
    else (cut pat text).map fun x => (b :: x.1, x.2)

theorem cut_eq_none {text : List α} (h : ¬pat <:+: text) : cut pat text = none := by
  induction text with
  | nil =>
    rw [cut, if_neg]
    rintro rfl
    exact h List.infix_rfl
  | cons b text ih =>
    rw [List.infix_cons_iff, not_or] at h
    rw [cut, if_neg h.1, ih h.2, Option.map_none]

theorem cut_spec {text before rest : List α} (h : cut pat text = some (before, rest)) :
    text = before ++ rest ∧ pat <+: rest := by
  induction text generalizing before with
  | nil =>
    rw [cut] at h
    split_ifs at h with hnil
    obtain ⟨rfl, rfl⟩ := Prod.mk.inj (Option.some.inj h)
    exact ⟨rfl, hnil ▸ List.nil_prefix⟩
  | cons b text ih =>
    rw [cut] at h
    split_ifs at h with hpat
    · obtain ⟨rfl, rfl⟩ := Prod.mk.inj (Option.some.inj h)
      exact ⟨rfl, hpat⟩
    · obtain ⟨⟨before', rest'⟩, hcut, heq⟩ := Option.map_eq_some_iff.mp h
      obtain ⟨rfl, rfl⟩ := Prod.mk.inj heq
      obtain ⟨rfl, hrest⟩ := ih hcut
      exact ⟨rfl, hrest⟩

/-- **The first place of a pattern is found.** -/
theorem cut_append (h : Led lead pat) {before : List α} (hbefore : ¬pat <:+: before)
    (rest : List α) : cut pat (before ++ (pat ++ rest)) = some (before, pat ++ rest) := by
  induction before with
  | nil =>
    obtain ⟨b, text, hcons⟩ := List.exists_cons_of_ne_nil
      (List.append_ne_nil_of_left_ne_nil h.ne_nil rest)
    rw [List.nil_append, hcons, cut, if_pos (hcons ▸ List.prefix_append pat rest)]
  | cons b before ih =>
    rw [List.infix_cons_iff, not_or] at hbefore
    have hrest : ∀ c ∈ (pat ++ rest).head?, c = lead := by
      obtain ⟨tail, rfl, -⟩ := h
      exact fun c hc => (Option.some.inj hc).symm
    rw [List.cons_append, cut, if_neg, ih hbefore.2, Option.map_some]
    exact fun hpre => hbefore.1 (h.prefix_of_append (List.cons_ne_nil b before) hrest hpre)

/-! ### Replacing -/

/-- The text after some elements that are passed over, with every pattern of a table replaced. -/
def replaceFrom (table : List (List α × α)) : ℕ → List α → List α
  | _, [] => []
  | k + 1, _ :: text => replaceFrom table k text
  | 0, b :: text =>
    match table.find? fun e => e.1 <+: b :: text with
    | some e => e.2 :: replaceFrom table (e.1.length - 1) text
    | none => b :: replaceFrom table 0 text

/-- Every pattern of a table is replaced, from left to right. -/
def replaceAny (table : List (List α × α)) (text : List α) : List α := replaceFrom table 0 text

variable {table : List (List α × α)} {text rest : List α}

theorem replaceFrom_eq (k : ℕ) : replaceFrom table k text = replaceAny table (text.drop k) := by
  induction k generalizing text with
  | zero => rfl
  | succ k ih =>
    cases text with
    | nil => rfl
    | cons b text => exact ih

@[simp] theorem replaceAny_nil : replaceAny table [] = [] := rfl

theorem replaceAny_nil_table (text : List α) : replaceAny [] text = text := by
  induction text with
  | nil => rfl
  | cons b text ih => exact congrArg (b :: ·) ih

theorem replaceAny_of_none {b : α} (h : ∀ e ∈ table, ¬e.1 <+: b :: text) :
    replaceAny table (b :: text) = b :: replaceAny table text := by
  have hfind : table.find? (fun e => e.1 <+: b :: text) = none :=
    List.find?_eq_none.mpr fun e he => by simpa using h e he
  rw [replaceAny, replaceFrom, hfind]
  rfl

theorem replaceAny_of_find {e : List α × α} (hne : e.1 ≠ [])
    (h : table.find? (fun x => x.1 <+: e.1 ++ rest) = some e) :
    replaceAny table (e.1 ++ rest) = e.2 :: replaceAny table rest := by
  obtain ⟨b, tail, hcons⟩ := List.exists_cons_of_ne_nil hne
  rw [hcons, List.cons_append] at h ⊢
  rw [replaceAny, replaceFrom, h]
  dsimp only
  rw [replaceFrom_eq, hcons, List.length_cons, Nat.add_sub_cancel, List.drop_left]

theorem replaceAny_ne_nil (h : text ≠ []) : replaceAny table text ≠ [] := by
  obtain ⟨b, text, rfl⟩ := List.exists_cons_of_ne_nil h
  rw [replaceAny, replaceFrom]
  split <;> exact List.cons_ne_nil _ _

/-- What has no first element of a pattern is left as it is. -/
theorem replaceAny_append_of_notMem (hled : ∀ e ∈ table, Led lead e.1) {plain : List α}
    (h : lead ∉ plain) : replaceAny table (plain ++ rest) = plain ++ replaceAny table rest := by
  induction plain with
  | nil => rfl
  | cons b plain ih =>
    rw [List.cons_append, replaceAny_of_none, ih (List.not_mem_of_not_mem_cons h), List.cons_append]
    intro e he hpre
    obtain ⟨tail, heq, -⟩ := hled e he
    rw [heq, List.cons_prefix_cons] at hpre
    exact h (hpre.1 ▸ List.mem_cons_self)

/-- What begins the text afterwards without the elements that are put in has begun it before. -/
theorem prefix_of_prefix_replaceAny {u : List α} (hne : ∀ e ∈ table, e.1 ≠ [])
    (hout : ∀ e ∈ table, e.2 ∉ u) (h : u <+: replaceAny table text) : u <+: text := by
  induction u generalizing text with
  | nil => exact List.nil_prefix
  | cons c u ih =>
    cases text with
    | nil => exact h
    | cons b text =>
      cases hfind : table.find? fun e => e.1 <+: b :: text with
      | none =>
        rw [replaceAny_of_none (by simpa using List.find?_eq_none.mp hfind),
          List.cons_prefix_cons] at h
        rw [List.cons_prefix_cons]
        exact ⟨h.1, ih (fun e he hc => hout e he (List.mem_cons_of_mem _ hc)) h.2⟩
      | some e =>
        have hmem := List.mem_of_find?_eq_some hfind
        obtain ⟨rest, hrest⟩ : e.1 <+: b :: text := by simpa using List.find?_some hfind
        rw [← hrest] at hfind h
        rw [replaceAny_of_find (hne e hmem) hfind, List.cons_prefix_cons] at h
        exact absurd (h.1 ▸ List.mem_cons_self) (hout e hmem)

/-- **Replacing one more pattern afterwards is replacing it too**, when it has none of the elements
that are put in for the others. -/
theorem replaceAny_snoc {e : List α × α} (hled : ∀ x ∈ table ++ [e], Led lead x.1)
    (hout : ∀ x ∈ table, x.2 ∉ e.1) (text : List α) :
    replaceAny [e] (replaceAny table text) = replaceAny (table ++ [e]) text := by
  have hledt : ∀ x ∈ table, Led lead x.1 := fun x hx => hled x (List.mem_append_left _ hx)
  have hlede : Led lead e.1 := hled e (List.mem_append_right _ List.mem_cons_self)
  induction hn : text.length using Nat.strong_induction_on generalizing text with
  | _ n ih =>
    subst hn
    cases text with
    | nil => rfl
    | cons b text =>
      cases hfind : table.find? fun x => x.1 <+: b :: text with
      | some x =>
        have hmem := List.mem_of_find?_eq_some hfind
        obtain ⟨rest, hrest⟩ : x.1 <+: b :: text := by simpa using List.find?_some hfind
        have hlen : rest.length < (b :: text).length := by
          rw [← hrest, List.length_append]
          exact Nat.lt_add_of_pos_left (List.length_pos_of_ne_nil (hledt x hmem).ne_nil)
        have hfind' : (table ++ [e]).find? (fun y => y.1 <+: x.1 ++ rest) = some x := by
          rw [hrest, List.find?_append, hfind, Option.some_or]
        rw [← hrest] at hfind ⊢
        rw [replaceAny_of_find (hledt x hmem).ne_nil hfind,
          replaceAny_of_find (hledt x hmem).ne_nil hfind', replaceAny_of_none,
          ih rest.length hlen rest rfl]
        -- the element that was put in does not begin the other pattern
        rintro y hy hpre
        rw [List.mem_singleton.mp hy] at hpre
        obtain ⟨tail, heq, -⟩ := hlede
        rw [heq, List.cons_prefix_cons] at hpre
        exact hout x hmem (by rw [heq, hpre.1]; exact List.mem_cons_self)
      | none =>
        have hnone : ∀ x ∈ table, ¬x.1 <+: b :: text := by
          simpa using List.find?_eq_none.mp hfind
        by_cases hpre : e.1 <+: b :: text
        · obtain ⟨rest, hrest⟩ := hpre
          have hlen : rest.length < (b :: text).length := by
            rw [← hrest, List.length_append]
            exact Nat.lt_add_of_pos_left (List.length_pos_of_ne_nil hlede.ne_nil)
          have hfind' : (table ++ [e]).find? (fun y => y.1 <+: e.1 ++ rest) = some e := by
            rw [hrest, List.find?_append, hfind, Option.none_or, ← hrest]
            exact List.find?_cons_of_pos (decide_eq_true (List.prefix_append _ _))
          have hkept : replaceAny table (b :: text) = e.1 ++ replaceAny table rest := by
            obtain ⟨tail, heq, htail⟩ := hlede
            rw [heq, List.cons_append] at hrest
            obtain ⟨rfl, rfl⟩ := List.cons.inj hrest
            rw [replaceAny_of_none hnone, replaceAny_append_of_notMem hledt htail, heq,
              List.cons_append]
          rw [hkept, replaceAny_of_find hlede.ne_nil, ih rest.length hlen rest rfl, ← hrest,
            replaceAny_of_find hlede.ne_nil hfind']
          exact List.find?_cons_of_pos (decide_eq_true (List.prefix_append _ _))
        · have hnone' : ∀ x ∈ table ++ [e], ¬x.1 <+: b :: text := by
            rintro x hx
            rcases List.mem_append.mp hx with hx | hx
            · exact hnone x hx
            · rwa [List.mem_singleton.mp hx]
          rw [replaceAny_of_none hnone, replaceAny_of_none hnone', replaceAny_of_none,
            ih text.length (Nat.lt_succ_self _) text rfl]
          rintro x hx hpre'
          rw [List.mem_singleton.mp hx] at hpre'
          obtain ⟨tail, heq, htail⟩ := hlede
          rw [heq, List.cons_prefix_cons] at hpre'
          refine hpre ?_
          rw [heq, List.cons_prefix_cons]
          refine ⟨hpre'.1, prefix_of_prefix_replaceAny (fun y hy => (hledt y hy).ne_nil)
            (fun y hy hmem => hout y hy ?_) hpre'.2⟩
          rw [heq]
          exact List.mem_cons_of_mem _ hmem

end Pattern

end SingularityShell
