import Mathlib.Data.Finset.Insert
import Mathlib.Data.List.InsertIdx
import Mathlib.Data.List.Nodup
import Mathlib.Data.List.Perm.Basic
import Mathlib.Tactic.TypeStar

/-!
# Loops over lists

Loops that imperative code is full of: one that collects what it has not collected yet, one that
does so with the set of what it has seen, one that returns the first element that meets a condition,
and the removal and insertion at an index.

## Main definitions

* `Lists.unseen` — the first occurrences of the elements that meet a condition and are not in a set

## Main results

* `Lists.mem_foldl_append`, `Lists.nodup_foldl_append` — what the first collects
* `Lists.mem_unseen`, `Lists.nodup_unseen`, `Lists.idxOf_unseen_lt_iff` — what the second collects,
  in the order of the list
* `Lists.find?_perm` — the third does not depend on the order when one element at most qualifies
* `Lists.filter_insertIdx`, `Lists.filter_erase` — an index moves one element only
-/

namespace SingularityShell

namespace Lists

/-! ### Collecting -/

section
variable {α : Type*} [DecidableEq α] (p : α → Prop) [DecidablePred p]

/-- Appends the elements of `l` that meet `p` and are not there yet. -/
theorem mem_foldl_append (l acc : List α) (x : α) :
    x ∈ l.foldl (fun acc r => if p r ∧ r ∉ acc then acc ++ [r] else acc) acc ↔
      x ∈ acc ∨ x ∈ l ∧ p x := by
  induction l generalizing acc with
  | nil => simp
  | cons r l ih =>
    rw [List.foldl_cons, ih]
    split <;> grind

theorem nodup_foldl_append (l acc : List α) (h : acc.Nodup) :
    (l.foldl (fun acc r => if p r ∧ r ∉ acc then acc ++ [r] else acc) acc).Nodup := by
  induction l generalizing acc with
  | nil => exact h
  | cons r l ih =>
    rw [List.foldl_cons]
    refine ih _ ?_
    split
    · next hr => exact h.append (by simp) (by simpa using hr.2)
    · exact h

theorem foldl_append_of_forall_mem (l acc : List α) (h : ∀ r ∈ l, p r → r ∈ acc) :
    l.foldl (fun acc r => if p r ∧ r ∉ acc then acc ++ [r] else acc) acc = acc := by
  induction l with
  | nil => rfl
  | cons r l ih =>
    rw [List.foldl_cons, if_neg fun hc => hc.2 (h r (by simp) hc.1)]
    exact ih fun q hq => h q (by simp [hq])

/-- When one element of the list qualifies, it is the one that is appended. -/
theorem foldl_append_of_unique {l acc : List α} {r : α} (hr : r ∈ l) (hp : p r)
    (hu : ∀ q ∈ l, p q → q = r) (ha : r ∉ acc) :
    l.foldl (fun acc r => if p r ∧ r ∉ acc then acc ++ [r] else acc) acc = acc ++ [r] := by
  induction l with
  | nil => cases hr
  | cons q l ih =>
    rw [List.foldl_cons]
    by_cases hq : p q
    · obtain rfl := hu q (by simp) hq
      rw [if_pos ⟨hq, ha⟩]
      refine foldl_append_of_forall_mem p l _ fun q' hq' hpq => ?_
      simp [hu q' (by simp [hq']) hpq]
    · rw [if_neg fun hc => hq hc.1]
      have hne : r ≠ q := fun he => hq (he ▸ hp)
      exact ih ((List.mem_cons.mp hr).resolve_left hne) fun q' hq' => hu q' (by simp [hq'])

end

/-! ### Collecting with a set of what was seen -/

section
variable {α : Type*} [DecidableEq α]

/-- The elements that meet `p`, each where it stands first, without those in `seen`. -/
def unseen (p : α → Bool) : List α → Finset α → List α
  | [], _ => []
  | x :: l, seen => if p x ∧ x ∉ seen then x :: unseen p l (insert x seen) else unseen p l seen

variable {p : α → Bool} {l : List α} {seen : Finset α} {x y : α}

@[simp] theorem mem_unseen : x ∈ unseen p l seen ↔ x ∈ l ∧ p x ∧ x ∉ seen := by
  induction l generalizing seen with
  | nil => simp [unseen]
  | cons a l ih =>
    rw [unseen]
    split
    · next ha =>
      rw [List.mem_cons, List.mem_cons, ih, Finset.mem_insert]
      by_cases hx : x = a
      · simp [hx, ha]
      · simp [hx]
    · next ha =>
      rw [List.mem_cons, ih]
      constructor
      · rintro ⟨hl, h⟩
        exact ⟨.inr hl, h⟩
      · rintro ⟨rfl | hl, h⟩
        · exact absurd h ha
        · exact ⟨hl, h⟩

theorem nodup_unseen : (unseen p l seen).Nodup := by
  induction l generalizing seen with
  | nil => exact .nil
  | cons a l ih =>
    rw [unseen]
    split
    · exact List.nodup_cons.mpr ⟨by simp, ih⟩
    · exact ih

/-- The elements stand in the order of their first occurrences. -/
theorem idxOf_unseen_lt_iff (hx : x ∈ unseen p l seen) (hy : y ∈ unseen p l seen) :
    (unseen p l seen).idxOf x < (unseen p l seen).idxOf y ↔ l.idxOf x < l.idxOf y := by
  induction l generalizing seen with
  | nil => simp at hx
  | cons a l ih =>
    rw [unseen] at hx hy ⊢
    split at hx
    · next ha =>
      rw [if_pos ha] at hy ⊢
      by_cases hya : y = a
      · simp [hya]
      · by_cases hxa : x = a
        · simp [hxa, List.idxOf_cons_ne _ (Ne.symm hya)]
        · have hx' := (List.mem_cons.mp hx).resolve_left hxa
          have hy' := (List.mem_cons.mp hy).resolve_left hya
          simpa [List.idxOf_cons_ne _ (Ne.symm hxa), List.idxOf_cons_ne _ (Ne.symm hya)]
            using ih hx' hy'
    · next ha =>
      rw [if_neg ha] at hy ⊢
      have ne_of_mem : ∀ z ∈ unseen p l seen, a ≠ z := by
        rintro z hz rfl
        exact ha (mem_unseen.mp hz).2
      rw [List.idxOf_cons_ne _ (ne_of_mem x hx), List.idxOf_cons_ne _ (ne_of_mem y hy),
        Nat.succ_lt_succ_iff]
      exact ih hx hy

theorem unseen_eq_self (hl : l.Nodup) (h : ∀ x ∈ l, p x ∧ x ∉ seen) : unseen p l seen = l := by
  induction l generalizing seen with
  | nil => rfl
  | cons a l ih =>
    obtain ⟨ha, hl⟩ := List.nodup_cons.mp hl
    rw [unseen, if_pos (h a (by simp)), ih hl]
    intro x hx
    refine ⟨(h x (by simp [hx])).1, ?_⟩
    rw [Finset.mem_insert]
    rintro (rfl | hs)
    · exact ha hx
    · exact (h x (by simp [hx])).2 hs

/-- What was seen can be left out of the list. -/
theorem unseen_insert (p : α → Bool) (l : List α) (seen : Finset α) (a : α) :
    unseen p l (insert a seen) = unseen p (l.filter (· ≠ a)) seen := by
  induction l generalizing seen with
  | nil => rfl
  | cons b l ih =>
    by_cases hb : b = a
    · simp [unseen, hb, ih]
    · rw [List.filter_cons_of_pos (by simpa using hb), unseen, unseen]
      by_cases hs : p b ∧ b ∉ seen
      · rw [if_pos hs, if_pos (by simp [hb, hs]), Finset.insert_comm, ih]
      · rw [if_neg hs, if_neg (by simpa [hb] using hs), ih]

theorem unseen_eq_nil (h : ∀ x ∈ l, p x → x ∈ seen) : unseen p l seen = [] := by
  refine List.eq_nil_iff_forall_not_mem.mpr fun x hx => ?_
  obtain ⟨hl, hp, hs⟩ := mem_unseen.mp hx
  exact hs (h x hl hp)

end

/-! ### Indices -/

section
variable {α : Type*}

theorem filter_insertIdx {p : α → Bool} {a : α} (ha : p a = false) (l : List α) (i : ℕ) :
    (l.insertIdx i a).filter p = l.filter p := by
  induction l generalizing i with
  | nil => cases i <;> simp [ha]
  | cons b l ih =>
    cases i with
    | zero => simp [ha]
    | succ i => simp [List.filter_cons, ih]

theorem insertIdx_append (l l' : List α) (a : α) :
    (l ++ l').insertIdx l.length a = l ++ a :: l' := by
  induction l with
  | nil => rfl
  | cons b l ih => rw [List.cons_append, List.length_cons, List.insertIdx_succ_cons, ih,
      List.cons_append]

variable [DecidableEq α] {a : α}

theorem idxOf_insertIdx {l : List α} (ha : a ∉ l) {i : ℕ} (hi : i ≤ l.length) :
    (l.insertIdx i a).idxOf a = i := by
  induction l generalizing i with
  | nil =>
    obtain rfl : i = 0 := by simpa using hi
    simp
  | cons b l ih =>
    cases i with
    | zero => simp
    | succ i =>
      obtain ⟨hb, hl⟩ : a ≠ b ∧ a ∉ l := by simpa using ha
      rw [List.insertIdx_succ_cons, List.idxOf_cons_ne _ hb.symm, ih hl (by simpa using hi)]

theorem eraseIdx_idxOf (l : List α) : l.eraseIdx (l.idxOf a) = l.erase a :=
  (List.erase_eq_eraseIdx_of_idxOf rfl).symm

theorem erase_insertIdx {l : List α} (ha : a ∉ l) {i : ℕ} (hi : i ≤ l.length) :
    (l.insertIdx i a).erase a = l := by
  rw [← eraseIdx_idxOf, idxOf_insertIdx ha hi, List.eraseIdx_insertIdx_self]

theorem insertIdx_eraseIdx_idxOf {l : List α} (ha : a ∈ l) :
    (l.eraseIdx (l.idxOf a)).insertIdx (l.idxOf a) a = l := by
  have hlt := List.idxOf_lt_length_iff.mpr ha
  simpa using List.insertIdx_eraseIdx_getElem hlt

theorem filter_erase {p : α → Bool} (ha : p a = false) (l : List α) :
    (l.erase a).filter p = l.filter p := by
  induction l with
  | nil => rfl
  | cons b l ih =>
    by_cases hb : b = a
    · simp [hb, ha]
    · simp [hb, List.filter_cons, ih]

end

/-! ### Finding -/

variable {α : Type*} {p : α → Bool} {l l' : List α} {a : α}

/-- The element that is found and the one that is removed are the same. -/
theorem find?_eraseP (h : l.find? p = some a) :
    ∃ l₁ l₂, l = l₁ ++ a :: l₂ ∧ l.eraseP p = l₁ ++ l₂ ∧ ∀ b ∈ l₁, p b = false := by
  obtain ⟨hp, l₁, l₂, rfl, hl₁⟩ := List.find?_eq_some_iff_append.mp h
  have hl₁' : ∀ b ∈ l₁, p b = false := by simpa using hl₁
  refine ⟨l₁, l₂, rfl, ?_, hl₁'⟩
  rw [List.eraseP_append_right _ (by simpa using hl₁'), List.eraseP_cons_of_pos hp]

/-- What a change of an element keeps of it is the same in all elements. -/
theorem map_modify_eq {β : Type*} {f : α → α} {g : α → β} (h : ∀ a, g (f a) = g a) (l : List α)
    (i : ℕ) : (l.modify i f).map g = l.map g := by
  induction l generalizing i with
  | nil => simp
  | cons b l ih =>
    cases i with
    | zero => simp [h]
    | succ i => simp [ih]

theorem mem_modify {f : α → α} {l : List α} {i : ℕ} (h : a ∈ l.modify i f) :
    a ∈ l ∨ ∃ b ∈ l, a = f b := by
  induction l generalizing i with
  | nil => simp at h
  | cons b l ih =>
    cases i with
    | zero =>
      rcases List.mem_cons.mp h with rfl | h
      · exact Or.inr ⟨b, List.mem_cons_self, rfl⟩
      · exact Or.inl (List.mem_cons_of_mem _ h)
    | succ i =>
      rcases List.mem_cons.mp h with rfl | h
      · exact Or.inl List.mem_cons_self
      · rcases ih h with h | ⟨c, hc, rfl⟩
        · exact Or.inl (List.mem_cons_of_mem _ h)
        · exact Or.inr ⟨c, List.mem_cons_of_mem _ hc, rfl⟩

theorem modify_findIdx (f : α → α) {l₁ : List α} (l₂ : List α) (hl₁ : ∀ b ∈ l₁, p b = false)
    (ha : p a) :
    (l₁ ++ a :: l₂).modify ((l₁ ++ a :: l₂).findIdx p) f = l₁ ++ f a :: l₂ := by
  induction l₁ with
  | nil => simp [List.findIdx_cons, ha]
  | cons b l₁ ih =>
    simpa [List.findIdx_cons, hl₁ b (by simp)] using ih fun c hc => hl₁ c (by simp [hc])

/-- A list that ends with `a` is split at `b`: this is the end, or the end is in the second part. -/
theorem concat_eq_append_cons {l l₁ l₂ : List α} {a b : α} (h : l ++ [a] = l₁ ++ b :: l₂) :
    (l₁ = l ∧ b = a ∧ l₂ = []) ∨ ∃ l₃, l₂ = l₃ ++ [a] ∧ l = l₁ ++ b :: l₃ := by
  rcases List.eq_nil_or_concat' l₂ with rfl | ⟨l₃, c, rfl⟩
  · obtain ⟨hl, hlast⟩ := List.append_inj' h rfl
    exact Or.inl ⟨hl.symm, (List.cons.inj hlast).1.symm, rfl⟩
  · rw [← List.cons_append, ← List.append_assoc] at h
    obtain ⟨hl, hlast⟩ := List.append_inj' h rfl
    exact Or.inr ⟨l₃, by rw [(List.cons.inj hlast).1], hl⟩

/-- The element that is found meets the condition. -/
theorem of_find? {q : α → Prop} [DecidablePred q] (h : l.find? (fun b => decide (q b)) = some a) :
    a ∈ l ∧ q a :=
  ⟨List.mem_of_find?_eq_some h, of_decide_eq_true (List.find?_eq_some_iff_append.mp h).1⟩

theorem erase_eq_filter_ne [DecidableEq α] (h : l.Nodup) : l.erase a = l.filter (· ≠ a) := by
  rw [h.erase_eq_filter]
  exact List.filter_congr fun b _ => Bool.eq_iff_iff.mpr (by rw [bne_iff_ne, decide_eq_true_iff])

/-- The last element that meets a condition. -/
theorem exists_last {q : α → Prop} (h : ∃ a ∈ l, q a) :
    ∃ before a after, l = before ++ a :: after ∧ q a ∧ ∀ b ∈ after, ¬q b := by
  induction l with
  | nil =>
    obtain ⟨a, ha, -⟩ := h
    cases ha
  | cons b l ih =>
    by_cases hl : ∃ a ∈ l, q a
    · obtain ⟨before, a, after, rfl, ha⟩ := ih hl
      exact ⟨b :: before, a, after, rfl, ha⟩
    · obtain ⟨a, ha, hq⟩ := h
      rcases List.mem_cons.mp ha with rfl | ha
      · exact ⟨[], a, l, rfl, hq, fun b hb hqb => hl ⟨b, hb, hqb⟩⟩
      · exact absurd ⟨a, ha, hq⟩ hl

theorem find?_eq_some_of_unique (ha : a ∈ l) (hp : p a) (hu : ∀ b ∈ l, p b → b = a) :
    l.find? p = some a := by
  obtain ⟨b, hb⟩ := Option.ne_none_iff_exists'.mp fun hn => List.find?_eq_none.mp hn a ha hp
  rw [hb, hu b (List.mem_of_find?_eq_some hb) (List.find?_some hb)]

theorem find?_perm (hperm : l'.Perm l) (hu : ∀ a ∈ l, ∀ b ∈ l, p a → p b → a = b) :
    l'.find? p = l.find? p := by
  cases hf : l.find? p with
  | none =>
    refine List.find?_eq_none.mpr fun a ha => List.find?_eq_none.mp hf a (hperm.mem_iff.mp ha)
  | some a =>
    have ha := List.mem_of_find?_eq_some hf
    exact find?_eq_some_of_unique (hperm.mem_iff.mpr ha) (List.find?_some hf) fun b hb hpb =>
      hu b (hperm.mem_iff.mp hb) a ha hpb (List.find?_some hf)

/-- The entry of a list that was made for an element is found by what tells its index. -/
theorem find?_zipIdx {β : Type*} {f : α × ℕ → β} {q : β → Bool} {i : ℕ}
    (hi : i < l.length) (hp : q (f (l[i], i)) = true)
    (hu : ∀ c j, q (f (c, j)) = true → j = i) : (l.zipIdx.map f).find? q = some (f (l[i], i)) := by
  refine find?_eq_some_of_unique ?_ hp fun b hb hpb => ?_
  · refine List.mem_map_of_mem (List.mk_mem_zipIdx_iff_getElem?.mpr ?_)
    exact List.getElem?_eq_getElem hi
  · obtain ⟨⟨c, j⟩, hmem, rfl⟩ := List.mem_map.mp hb
    obtain rfl := hu c j hpb
    have hc := List.mk_mem_zipIdx_iff_getElem?.mp hmem
    rw [List.getElem?_eq_getElem hi] at hc
    rw [Option.some.inj hc]

/-- Two readings of a list that leave out the same elements. -/
theorem filter_map_eq_iff {β : Type*} {f g : α → β} {q : β → Bool} (h : ∀ a, q (f a) = q (g a))
    (l : List α) : (l.map f).filter q = (l.map g).filter q ↔
      ∀ a ∈ l, q (g a) = true → f a = g a := by
  induction l with
  | nil => simp
  | cons a l ih =>
    rw [List.map_cons, List.map_cons, List.filter_cons, List.filter_cons, h a, List.forall_mem_cons,
      ← ih]
    cases hq : q (g a) with
    | false => simp
    | true => simp

/-- Where the keys are different, the first element with a key is all of them. -/
theorem eraseP_eq_filter {β : Type*} [DecidableEq β] (key : α → β)
    (h : (l.map key).Nodup) (k : β) : l.eraseP (key · = k) = l.filter (key · ≠ k) := by
  induction l with
  | nil => rfl
  | cons a l ih =>
    obtain ⟨ha, hl⟩ := List.nodup_cons.mp h
    by_cases hak : key a = k
    · rw [List.eraseP_cons_of_pos (by simpa using hak),
        List.filter_cons_of_neg (by simpa using hak), List.filter_eq_self.mpr]
      intro b hb
      refine decide_eq_true fun hbk => ha ?_
      exact List.mem_map.mpr ⟨b, hb, hbk.trans hak.symm⟩
    · rw [List.eraseP_cons_of_neg (by simpa using hak),
        List.filter_cons_of_pos (by simpa using hak), ih hl]

/-- In a list without repetitions, only one of two elements stands before the other. -/
theorem not_sublist_swap (h : l.Nodup) {b : α} (hab : [a, b].Sublist l) :
    ¬[b, a].Sublist l := by
  induction l with
  | nil => cases hab
  | cons c l ih =>
    obtain ⟨hc, hl⟩ := List.nodup_cons.1 h
    intro hba
    cases hab with
    | cons _ hab =>
      cases hba with
      | cons _ hba => exact ih hl hab hba
      | cons_cons _ _ => exact hc (hab.subset (by simp))
    | cons_cons _ hb =>
      cases hba with
      | cons _ hba => exact hc (hba.subset (by simp))
      | cons_cons _ _ => exact hc (hb.subset (by simp))

/-- The greatest of some numbers. -/
theorem foldl_max_spec (a : ℕ) (l : List ℕ) :
    (∀ x ∈ a :: l, x ≤ l.foldl max a) ∧ l.foldl max a ∈ a :: l := by
  induction l generalizing a with
  | nil => simp
  | cons b l ih =>
    obtain ⟨hle, hmem⟩ := ih (max a b)
    rw [List.foldl_cons]
    refine ⟨?_, ?_⟩
    · rintro x hx
      have hmax := hle (max a b) List.mem_cons_self
      rcases List.mem_cons.1 hx with rfl | hx
      · exact (le_max_left x b).trans hmax
      · rcases List.mem_cons.1 hx with rfl | hx
        · exact (le_max_right a x).trans hmax
        · exact hle x (List.mem_cons_of_mem _ hx)
    · rcases List.mem_cons.1 hmem with heq | hmem
      · rw [heq]
        rcases max_choice a b with h | h <;> rw [h] <;> simp
      · exact List.mem_cons_of_mem a (List.mem_cons_of_mem b hmem)

end Lists

end SingularityShell
