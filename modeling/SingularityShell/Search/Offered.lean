import SingularityShell.Search.Merge

/-!
# What is merged and what was offered

The merged list has every action that was offered once, with the best score, and every result
without an action. The order in which the lists arrive does not matter when no two of them share an
action and all scores are different.

## Main definitions

* `Search.mergeAll` — the list after any number of lists
* `Search.Merged` — what holds of a list and everything that was offered

## Main results

* `Search.addFound_cases` — what one result does
* `Search.merge_contract` — the headline, for every sequence of lists
-/

namespace SingularityShell

namespace Search

open Ascii

variable {σ τ : Type*} [LinearOrder σ]

/-- The list after the lists of results in the order in which they arrive. -/
def mergeAll (lists : List (List (SearchResult σ τ))) : List (SearchResult σ τ) :=
  lists.foldl merge []

/-- The merged list and what was offered: no action twice and every action there, every result
without an action there as often as it was offered, and the best score for every action. -/
structure Merged (merged offered : List (SearchResult σ τ)) : Prop where
  distinct : merged.Pairwise fun a b => a.actionId ≠ none → a.actionId ≠ b.actionId
  actions : ∀ id, (∃ r ∈ merged, r.actionId = some id) ↔ ∃ r ∈ offered, r.actionId = some id
  others : (merged.filter (·.actionId = none)).Perm (offered.filter (·.actionId = none))
  best : ∀ r ∈ merged, r.actionId ≠ none →
    (∃ o ∈ offered, o.actionId = r.actionId ∧ o.score = r.score) ∧
      ∀ o ∈ offered, o.actionId = r.actionId → o.score ≤ r.score

/-! ### One result -/

omit [LinearOrder σ] in
theorem lastIndex_spec (id : Text) (l : List (SearchResult σ τ)) :
    match lastIndex id l with
    | none => ∀ r ∈ l, r.actionId ≠ some id
    | some i => ∃ l₁ e l₂, l = l₁ ++ e :: l₂ ∧ i = l₁.length ∧ e.actionId = some id := by
  induction l with
  | nil => simp [lastIndex]
  | cons r l ih =>
    rw [lastIndex]
    cases hl : lastIndex id l with
    | some i =>
      rw [hl] at ih
      obtain ⟨l₁, e, l₂, rfl, rfl, he⟩ := ih
      exact ⟨r :: l₁, e, l₂, rfl, rfl, he⟩
    | none =>
      rw [hl] at ih
      by_cases hr : r.actionId = some id
      · rw [if_pos hr]
        exact ⟨[], r, l, rfl, rfl, hr⟩
      · rw [if_neg hr]
        exact List.forall_mem_cons.mpr ⟨hr, ih⟩

omit [LinearOrder σ] in
theorem modify_length (f : SearchResult σ τ → SearchResult σ τ) (l₁ l₂ : List (SearchResult σ τ))
    (e : SearchResult σ τ) : (l₁ ++ e :: l₂).modify l₁.length f = l₁ ++ f e :: l₂ := by
  induction l₁ with
  | nil => rfl
  | cons a l₁ ih => simpa using ih

/-- A result is added, or its score is that of the result with the same action when it is better. -/
theorem addFound_cases (merged : List (SearchResult σ τ)) (r : SearchResult σ τ) :
    (addFound merged r = merged ++ [r] ∧
        (r.actionId ≠ none → ∀ e ∈ merged, e.actionId ≠ r.actionId)) ∨
    ∃ l₁ e l₂, merged = l₁ ++ e :: l₂ ∧ e.actionId = r.actionId ∧ r.actionId ≠ none ∧
      addFound merged r = l₁ ++ { e with score := max e.score r.score } :: l₂ := by
  cases hid : r.actionId with
  | none => exact .inl ⟨by simp [addFound, hid], fun h => absurd rfl h⟩
  | some id =>
    have hspec := lastIndex_spec id merged
    cases hl : lastIndex id merged with
    | none =>
      rw [hl] at hspec
      exact .inl ⟨by simp [addFound, hid, hl], fun _ => hspec⟩
    | some i =>
      rw [hl] at hspec
      obtain ⟨l₁, e, l₂, rfl, rfl, he⟩ := hspec
      refine .inr ⟨l₁, e, l₂, rfl, he, by simp, ?_⟩
      have hraise : (if r.score > e.score then { e with score := r.score } else e) =
          { e with score := max e.score r.score } := by
        split
        · next h => rw [max_eq_right h.le]
        · next h => rw [max_eq_left (not_lt.mp h)]
      simp only [addFound, hid, hl, modify_length, hraise]

theorem Merged.addFound {merged offered : List (SearchResult σ τ)} (h : Merged merged offered)
    (r : SearchResult σ τ) : Merged (addFound merged r) (offered ++ [r]) := by
  rcases addFound_cases merged r with ⟨heq, hnew⟩ | ⟨l₁, e, l₂, rfl, he, hid, heq⟩
  · rw [heq]
    refine ⟨?_, fun id => ?_, ?_, fun x hx hx' => ?_⟩
    · refine List.pairwise_append.mpr ⟨h.distinct, List.pairwise_singleton _ _, ?_⟩
      intro a ha b hb hne heq'
      obtain rfl := List.mem_singleton.mp hb
      exact hnew (heq' ▸ hne) a ha heq'
    · simp only [List.mem_append, List.mem_singleton, or_and_right, exists_or, h.actions id]
    · simp only [List.filter_append]
      exact h.others.append_right _
    · rcases List.mem_append.mp hx with hxm | hx
      · obtain ⟨⟨o, ho, hoid, hos⟩, hall⟩ := h.best x hxm hx'
        refine ⟨⟨o, List.mem_append_left _ ho, hoid, hos⟩, fun o ho hoid => ?_⟩
        rcases List.mem_append.mp ho with ho | ho
        · exact hall o ho hoid
        · obtain rfl := List.mem_singleton.mp ho
          exact absurd hoid.symm (hnew (hoid ▸ hx') x hxm)
      · obtain rfl := List.mem_singleton.mp hx
        refine ⟨⟨x, by simp, rfl, rfl⟩, fun o ho hoid => ?_⟩
        rcases List.mem_append.mp ho with ho | ho
        · obtain ⟨id, hid⟩ := Option.ne_none_iff_exists'.mp hx'
          obtain ⟨y, hy, hyid⟩ := (h.actions id).mpr ⟨o, ho, hoid.trans hid⟩
          exact absurd (hyid.trans hid.symm) (hnew hx' y hy)
        · rw [List.mem_singleton.mp ho]
  · rw [heq]
    set e' : SearchResult σ τ := { e with score := max e.score r.score } with he'
    have hid' : e'.actionId = e.actionId := rfl
    obtain ⟨h₁, h₂, h₁₂⟩ := List.pairwise_append.mp h.distinct
    have hmem : ∀ x, x ∈ l₁ ++ e' :: l₂ →
        x = e' ∨ x ∈ l₁ ++ e :: l₂ ∧ (x.actionId ≠ none → x.actionId ≠ r.actionId) := by
      intro x hx
      rcases List.mem_append.mp hx with hx | hx
      · exact .inr ⟨List.mem_append_left _ hx, fun hne => he ▸ h₁₂ x hx e (by simp) hne⟩
      · rcases List.mem_cons.mp hx with rfl | hx
        · exact .inl rfl
        · refine .inr ⟨by simp [hx], fun _ => he ▸ ((List.pairwise_cons.mp h₂).1 x hx ?_).symm⟩
          exact he ▸ hid
    have hemem : e ∈ l₁ ++ e :: l₂ := by simp
    refine ⟨?_, fun id => ?_, ?_, fun x hx hx' => ?_⟩
    · have hd := h.distinct
      simpa [List.pairwise_append, hid'] using hd
    · have hsame : (∃ x ∈ l₁ ++ e' :: l₂, x.actionId = some id) ↔
          ∃ x ∈ l₁ ++ e :: l₂, x.actionId = some id := by
        simp [hid', or_and_right, exists_or]
      rw [hsame, h.actions id]
      constructor
      · rintro ⟨o, ho, hoid⟩
        exact ⟨o, List.mem_append_left _ ho, hoid⟩
      · rintro ⟨o, ho, hoid⟩
        rcases List.mem_append.mp ho with ho | ho
        · exact ⟨o, ho, hoid⟩
        · obtain rfl := List.mem_singleton.mp ho
          exact (h.actions id).mp ⟨e, hemem, he.trans hoid⟩
    · have hne : e.actionId ≠ none := he ▸ hid
      have hothers := h.others
      simp only [List.filter_append, List.filter_cons, hid', hne, hid, decide_false,
        Bool.false_eq_true, if_false, List.filter_nil, List.append_nil] at hothers ⊢
      exact hothers
    · obtain ⟨⟨o, ho, hoid, hos⟩, hall⟩ := h.best e hemem (he ▸ hid)
      rcases hmem x hx with rfl | ⟨hxm, hxr⟩
      · constructor
        · rcases max_choice e.score r.score with hmax | hmax
          · exact ⟨o, List.mem_append_left _ ho, hoid, hos.trans hmax.symm⟩
          · exact ⟨r, by simp, he.symm, hmax.symm⟩
        · intro o ho hoid
          rcases List.mem_append.mp ho with ho | ho
          · exact (hall o ho hoid).trans (le_max_left _ _)
          · rw [List.mem_singleton.mp ho]
            exact le_max_right _ _
      · obtain ⟨⟨o, ho, hoid, hos⟩, hall⟩ := h.best x hxm hx'
        refine ⟨⟨o, List.mem_append_left _ ho, hoid, hos⟩, fun o ho hoid => ?_⟩
        rcases List.mem_append.mp ho with ho | ho
        · exact hall o ho hoid
        · rw [List.mem_singleton.mp ho] at hoid
          exact absurd hoid.symm (hxr hx')

/-! ### One list, and all lists -/

theorem Merged.of_perm {merged merged' offered : List (SearchResult σ τ)}
    (h : Merged merged offered)
    (hp : merged'.Perm merged) : Merged merged' offered := by
  refine ⟨?_, fun id => ?_, ?_, fun r hr => h.best r (hp.mem_iff.mp hr)⟩
  · refine hp.symm.pairwise h.distinct fun {a b} hab hne heq => ?_
    exact hab (heq ▸ hne) heq.symm
  · simp only [hp.mem_iff, h.actions id]
  · exact (hp.filter _).trans h.others

theorem Merged.foldl_addFound {merged offered : List (SearchResult σ τ)} (h : Merged merged offered)
    (found : List (SearchResult σ τ)) :
    Merged (found.foldl Search.addFound merged) (offered ++ found) := by
  induction found generalizing merged offered with
  | nil => simpa using h
  | cons r found ih => simpa using ih (h.addFound r)

/-- The list that is merged, up to the order. -/
theorem merge_perm (merged found : List (SearchResult σ τ)) :
    (merge merged found).Perm (found.foldl addFound merged) :=
  (groupByProvider_perm _).trans (List.mergeSort_perm _ _)

theorem Merged.merge {merged offered : List (SearchResult σ τ)} (h : Merged merged offered)
    (found : List (SearchResult σ τ)) : Merged (Search.merge merged found) (offered ++ found) :=
  (h.foldl_addFound found).of_perm (merge_perm merged found)

theorem byScore_trans (a b c : SearchResult σ τ) (hab : byScore a b = true)
    (hbc : byScore b c = true) : byScore a c = true := by
  simp only [byScore, Bool.not_eq_true', decide_eq_false_iff_not, not_lt] at *
  exact hbc.trans hab

/-- The sorted list. -/
theorem pairwise_mergeSort (l : List (SearchResult σ τ)) :
    (l.mergeSort byScore).Pairwise fun a b => b.score ≤ a.score := by
  have htotal (a b : SearchResult σ τ) : (byScore a b || byScore b a) = true := by
    rcases le_total a.score b.score with h | h <;> simp [byScore, h]
  have hsorted := List.pairwise_mergeSort byScore_trans htotal l
  exact hsorted.imp fun {a b} hab => by simpa [byScore] using hab

theorem mergeAll_append (lists : List (List (SearchResult σ τ))) (found : List (SearchResult σ τ)) :
    mergeAll (lists ++ [found]) = merge (mergeAll lists) found := by
  simp [mergeAll]

theorem merged_mergeAll (lists : List (List (SearchResult σ τ))) :
    Merged (mergeAll lists) lists.flatten := by
  induction lists using List.reverseRecOn with
  | nil => exact ⟨.nil, by simp [mergeAll], by simp [mergeAll], by simp [mergeAll]⟩
  | append_singleton lists found ih =>
    rw [mergeAll_append]
    simpa using ih.merge found

theorem grouped_mergeAll (lists : List (List (SearchResult σ τ))) : Grouped (mergeAll lists) := by
  induction lists using List.reverseRecOn with
  | nil =>
    refine ⟨fun a b c h => ?_, .nil, .nil⟩
    simp [mergeAll] at h
  | append_singleton lists found _ =>
    rw [mergeAll_append]
    exact grouped_groupByProvider (pairwise_mergeSort _)

/-! ### The order of the lists -/

/-- The scores of the merged list are scores that were offered, each by a result of its own. -/
theorem foldl_addFound_scores {merged offered : List (SearchResult σ τ)}
    (h : (merged.map (·.score)).Subperm (offered.map (·.score))) (found : List (SearchResult σ τ)) :
    ((found.foldl addFound merged).map (·.score)).Subperm ((offered ++ found).map (·.score)) := by
  induction found generalizing merged offered with
  | nil => simpa using h
  | cons r found ih =>
    have hstep : ((addFound merged r).map (·.score)).Subperm ((offered ++ [r]).map (·.score)) := by
      rw [List.map_append]
      rcases addFound_cases merged r with ⟨heq, -⟩ | ⟨l₁, e, l₂, rfl, -, -, heq⟩
      · rw [heq, List.map_append]
        exact h.append (.refl _)
      · have hadded : ((l₁ ++ e :: l₂).map (·.score) ++ [r.score]).Subperm
            (offered.map (·.score) ++ [r.score]) := h.append (.refl _)
        rw [heq]
        refine List.Subperm.trans ?_ hadded
        rcases max_choice e.score r.score with hmax | hmax
        · simp only [List.map_append, List.map_cons, hmax]
          exact (List.sublist_append_left _ _).subperm
        · have hperm : (l₁.map (·.score) ++ r.score :: l₂.map (·.score)).Perm
              (l₁.map (·.score) ++ l₂.map (·.score) ++ [r.score]) :=
            List.perm_middle.trans (List.perm_append_singleton _ _).symm
          simp only [List.map_append, List.map_cons, hmax]
          refine hperm.subperm.trans (List.Sublist.subperm ?_)
          exact ((List.Sublist.refl _).append (List.sublist_cons_self _ _)).append (.refl _)
    simpa using ih hstep

theorem mergeAll_scores (lists : List (List (SearchResult σ τ))) :
    ((mergeAll lists).map (·.score)).Subperm (lists.flatten.map (·.score)) := by
  induction lists using List.reverseRecOn with
  | nil => exact List.Subperm.refl _
  | append_singleton lists found ih =>
    rw [mergeAll_append]
    refine ((merge_perm _ _).map _).subperm.trans ?_
    simpa using foldl_addFound_scores ih found

/-- A result with another action is left alone. -/
theorem addFound_cons {e r : SearchResult σ τ} (l : List (SearchResult σ τ))
    (h : r.actionId ≠ none → e.actionId ≠ r.actionId) :
    addFound (e :: l) r = e :: addFound l r := by
  cases hid : r.actionId with
  | none => simp [addFound, hid]
  | some id =>
    have he : e.actionId ≠ some id := hid ▸ h (by simp [hid])
    cases hl : lastIndex id l with
    | none => simp [addFound, hid, lastIndex, hl, he]
    | some i => simp [addFound, hid, lastIndex, hl]

theorem addFound_append {merged found : List (SearchResult σ τ)} {r : SearchResult σ τ}
    (h : ∀ e ∈ merged, r.actionId ≠ none → e.actionId ≠ r.actionId) :
    addFound (merged ++ found) r = merged ++ addFound found r := by
  induction merged with
  | nil => rfl
  | cons e merged ih =>
    rw [List.cons_append, addFound_cons _ (h e (by simp)), ih fun x hx => h x (by simp [hx])]
    rfl

theorem foldl_addFound_append {merged found : List (SearchResult σ τ)}
    (h : ∀ e ∈ merged, ∀ r ∈ found, r.actionId ≠ none → e.actionId ≠ r.actionId) :
    found.foldl addFound merged = merged ++ found.foldl addFound [] := by
  have hgen : ∀ (found own : List (SearchResult σ τ)),
      (∀ e ∈ merged, ∀ r ∈ found, r.actionId ≠ none → e.actionId ≠ r.actionId) →
      found.foldl addFound (merged ++ own) = merged ++ found.foldl addFound own := by
    intro found
    induction found with
    | nil => exact fun _ _ => rfl
    | cons r found ih =>
      intro own h
      rw [List.foldl_cons, List.foldl_cons, addFound_append fun e he => h e he r (by simp)]
      exact ih _ fun e he x hx => h e he x (by simp [hx])
  simpa using hgen found [] h

/-- No two lists share an action. -/
def Unshared (lists : List (List (SearchResult σ τ))) : Prop :=
  lists.Pairwise fun l l' => ∀ e ∈ l, ∀ r ∈ l', r.actionId ≠ none → e.actionId ≠ r.actionId

theorem mergeAll_perm {lists : List (List (SearchResult σ τ))} (h : Unshared lists) :
    (mergeAll lists).Perm (lists.flatMap (·.foldl addFound [])) := by
  induction lists using List.reverseRecOn with
  | nil => exact .refl _
  | append_singleton lists found ih =>
    obtain ⟨hl, -, hfound⟩ := List.pairwise_append.mp h
    have hmerged : ∀ e ∈ mergeAll lists, ∀ r ∈ found, r.actionId ≠ none →
        e.actionId ≠ r.actionId := by
      intro e he r hr hne heq
      obtain ⟨id, hid⟩ := Option.ne_none_iff_exists'.mp hne
      obtain ⟨o, ho, hoid⟩ := ((merged_mergeAll lists).actions id).mp ⟨e, he, heq.trans hid⟩
      obtain ⟨l, hl', hol⟩ := List.mem_flatten.mp ho
      exact hfound l hl' found (by simp) o hol r hr hne (hoid.trans hid.symm)
    rw [mergeAll_append, List.flatMap_append]
    refine (merge_perm _ _).trans ?_
    rw [foldl_addFound_append hmerged]
    simpa using (ih hl).append_right _

/-- Lists with the same results and different scores are sorted alike. -/
theorem mergeSort_congr {l l' : List (SearchResult σ τ)} (hp : l.Perm l')
    (hd : (l.map (·.score)).Nodup) : l.mergeSort byScore = l'.mergeSort byScore := by
  have hpl := List.mergeSort_perm l byScore
  have hpl' := List.mergeSort_perm l' byScore
  refine (hpl.trans (hp.trans hpl'.symm)).eq_of_pairwise ?_ (pairwise_mergeSort l)
    (pairwise_mergeSort l')
  intro a b ha hb hba hab
  refine List.inj_on_of_nodup_map hd (hpl.mem_iff.mp ha) ?_ (le_antisymm hab hba)
  exact hp.mem_iff.mpr (hpl'.mem_iff.mp hb)

omit [LinearOrder σ] in
theorem Unshared.perm {lists lists' : List (List (SearchResult σ τ))} (h : Unshared lists)
    (hp : lists'.Perm lists) : Unshared lists' :=
  hp.symm.pairwise h fun {_ _} hab e he r hr hne heq => hab r hr e he (heq ▸ hne) heq.symm

/-- What is merged last is sorted and grouped, from any list with the same results. -/
theorem mergeAll_eq (lists : List (List (SearchResult σ τ))) :
    ∃ l : List (SearchResult σ τ), l.Perm (mergeAll lists) ∧
      mergeAll lists = groupByProvider (l.mergeSort byScore) := by
  cases lists using List.reverseRecOn with
  | nil => exact ⟨[], .refl _, by simp [mergeAll]⟩
  | append_singleton lists found =>
    rw [mergeAll_append]
    exact ⟨found.foldl addFound (mergeAll lists), (merge_perm _ _).symm, rfl⟩

/-- **The order in which the lists arrive does not matter.** -/
theorem mergeAll_congr {lists lists' : List (List (SearchResult σ τ))} (hp : lists'.Perm lists)
    (hscores : (lists.flatten.map (·.score)).Nodup) (hshared : Unshared lists) :
    mergeAll lists' = mergeAll lists := by
  obtain ⟨l, hl, heq⟩ := mergeAll_eq lists
  obtain ⟨l', hl', heq'⟩ := mergeAll_eq lists'
  have hsame : (mergeAll lists').Perm (mergeAll lists) :=
    (mergeAll_perm (hshared.perm hp)).trans
      ((hp.flatMap_right _).trans (mergeAll_perm hshared).symm)
  have hd : (l.map (·.score)).Nodup := by
    obtain ⟨scores, hscores', hsub⟩ := mergeAll_scores lists
    exact ((hl.map _).trans hscores'.symm).nodup_iff.mpr (hscores.sublist hsub)
  rw [heq, heq', mergeSort_congr (hl.trans (hsame.symm.trans hl'.symm)) hd]

/-- **The contract of merging.** After any lists the merged list has every action once, with the
best score that was offered, and every result without an action; it is grouped by provider, the best
first. Lists that share no action and have different scores can arrive in any order. -/
theorem merge_contract (lists : List (List (SearchResult σ τ))) :
    Merged (mergeAll lists) lists.flatten ∧ Grouped (mergeAll lists) ∧
      ((lists.flatten.map (·.score)).Nodup → Unshared lists → ∀ lists', lists'.Perm lists →
        mergeAll lists' = mergeAll lists) :=
  ⟨merged_mergeAll lists, grouped_mergeAll lists, fun hscores hshared _ hp =>
    mergeAll_congr hp hscores hshared⟩

/-- An application and a file, from two providers. -/
def twoLists : List (List (SearchResult ℕ Unit)) :=
  [[⟨ofString "apps", some (ofString "run"), 70, ()⟩,
    ⟨ofString "apps", some (ofString "run"), 80, ()⟩], [⟨ofString "files", none, 50, ()⟩]]

theorem merge_contract_twoLists : mergeAll twoLists.reverse = mergeAll twoLists :=
  (merge_contract twoLists).2.2 (by decide) (by simp [Unshared, twoLists]) _
    (List.reverse_perm twoLists)

end Search

end SingularityShell
