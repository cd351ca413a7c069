import Mathlib.Data.Finset.Lattice.Lemmas
import Mathlib.Data.List.Perm.Subperm
import Mathlib.Data.List.Sort
import Mathlib.Order.Basic
import SingularityShell.Lib.Ascii
import SingularityShell.Lib.Lists

/-!
# Merging search results

The results of the providers arrive list by list. Each list is merged into what is there: a result
whose action is known raises the score of the known one, all others are added, and the whole is
sorted by score and grouped by provider.

## Main definitions

* `Search.SearchResult` — a result, with a score of any linear order
* `Search.groupByProvider`, `Search.merge` — the list after one more list of results
* `Search.Grouped` — providers and results in the order of their scores

## Main results

* `Search.groupByProvider_induction` — grouping, one provider after the other
* `Search.grouped_groupByProvider` — a sorted list is grouped in order
-/

namespace SingularityShell

namespace Search

open Ascii SingularityShell.Lists

variable {σ τ : Type*}

/-- A result. Scores are doubles that are numbers, `content` is what a merge does not look at. -/
structure SearchResult (σ τ : Type*) where
  provider : Text
  actionId : Option Text
  score : σ
  content : τ
  deriving DecidableEq

/-! ### Grouping -/

/-- One turn of the first loop of `group_by_provider`: the order of the providers, and their
groups. -/
def addToGroup (state : List Text × (Text → Option (List (SearchResult σ τ))))
    (r : SearchResult σ τ) : List Text × (Text → Option (List (SearchResult σ τ))) :=
  match state.2 r.provider with
  | some group => (state.1, Function.update state.2 r.provider (some (group ++ [r])))
  | none => (state.1 ++ [r.provider], Function.update state.2 r.provider (some [r]))

/-- `group_by_provider` -/
def groupByProvider (sorted : List (SearchResult σ τ)) : List (SearchResult σ τ) :=
  let (order, groups) := sorted.foldl addToGroup ([], fun _ => none)
  order.flatMap fun key => (groups key).getD []

/-! ### Merging -/

/-- Where the table of the results by their actions finds an action: a later result with it has
taken the place of an earlier one. -/
def lastIndex (id : Text) : List (SearchResult σ τ) → Option ℕ
  | [] => none
  | r :: rs =>
    match lastIndex id rs with
    | some i => some (i + 1)
    | none => if r.actionId = some id then some 0 else none

section
variable [LinearOrder σ]

/-- One turn of the loop over the results that were found. -/
def addFound (merged : List (SearchResult σ τ)) (r : SearchResult σ τ) :
    List (SearchResult σ τ) :=
  match r.actionId with
  | none => merged ++ [r]
  | some id =>
    match lastIndex id merged with
    | some i => merged.modify i fun existing =>
        if r.score > existing.score then { existing with score := r.score } else existing
    | none => merged ++ [r]

/-- The comparison of the sort, as an order that is kept where scores are the same. -/
def byScore (a b : SearchResult σ τ) : Bool := !(a.score < b.score)

/-- `merge` -/
def merge (merged found : List (SearchResult σ τ)) : List (SearchResult σ τ) :=
  groupByProvider ((found.foldl addFound merged).mergeSort byScore)

end

/-! ### What grouping does -/

theorem foldl_addToGroup (sorted : List (SearchResult σ τ)) (order : List Text)
    (groups : Text → Option (List (SearchResult σ τ)))
    (h : ∀ key, groups key = none ↔ key ∉ order) :
    (sorted.foldl addToGroup (order, groups)).1 =
        order ++ unseen (fun _ => true) (sorted.map (·.provider)) order.toFinset ∧
      ∀ key, ((sorted.foldl addToGroup (order, groups)).2 key).getD [] =
        (groups key).getD [] ++ sorted.filter (·.provider = key) := by
  induction sorted generalizing order groups with
  | nil => simp [unseen]
  | cons r sorted ih =>
    rw [List.foldl_cons]
    cases hg : groups r.provider with
    | some group =>
      have hstep : addToGroup (order, groups) r =
          (order, Function.update groups r.provider (some (group ++ [r]))) := by
        simp [addToGroup, hg]
      have hmem : r.provider ∈ order := by
        by_contra hn
        simp [(h r.provider).mpr hn] at hg
      obtain ⟨ih1, ih2⟩ := ih order (Function.update groups r.provider (some (group ++ [r])))
        fun key => by
          by_cases hk : key = r.provider
          · simp [hk, hmem]
          · simp [hk, h]
      rw [hstep]
      refine ⟨?_, fun key => ?_⟩
      · rw [ih1, List.map_cons, unseen, if_neg (by simp [hmem])]
      · rw [ih2]
        by_cases hk : key = r.provider
        · simp [hk, hg]
        · simp [hk, Ne.symm hk]
    | none =>
      have hstep : addToGroup (order, groups) r =
          (order ++ [r.provider], Function.update groups r.provider (some [r])) := by
        simp [addToGroup, hg]
      have hmem : r.provider ∉ order := (h r.provider).mp hg
      obtain ⟨ih1, ih2⟩ := ih (order ++ [r.provider]) (Function.update groups r.provider (some [r]))
        fun key => by
          by_cases hk : key = r.provider
          · simp [hk]
          · simp [hk, h]
      rw [hstep]
      refine ⟨?_, fun key => ?_⟩
      · have hseen : (order ++ [r.provider]).toFinset = insert r.provider order.toFinset := by
          ext key
          simp
        rw [ih1, List.map_cons, unseen, if_pos (by simp [hmem]), hseen, List.append_assoc]
        rfl
      · rw [ih2]
        by_cases hk : key = r.provider
        · simp [hk, hg]
        · simp [hk, Ne.symm hk]

/-- The groups in the order in which the providers come first. -/
theorem groupByProvider_eq (sorted : List (SearchResult σ τ)) : groupByProvider sorted =
    (unseen (fun _ => true) (sorted.map (·.provider)) ∅).flatMap fun key =>
      sorted.filter (·.provider = key) := by
  obtain ⟨horder, hgroups⟩ := foldl_addToGroup sorted [] (fun _ => none) (by simp)
  rw [groupByProvider]
  simp only [horder, hgroups]
  simp

/-- Grouping takes the first provider out and groups the rest. -/
theorem groupByProvider_cons (r : SearchResult σ τ) (sorted : List (SearchResult σ τ)) :
    groupByProvider (r :: sorted) = (r :: sorted).filter (·.provider = r.provider) ++
      groupByProvider (sorted.filter (·.provider ≠ r.provider)) := by
  have hrest : unseen (fun _ => true) (sorted.map (·.provider)) {r.provider} =
      unseen (fun _ => true) ((sorted.filter (·.provider ≠ r.provider)).map (·.provider)) ∅ := by
    rw [← insert_empty_eq, unseen_insert, List.filter_map]
    rfl
  rw [groupByProvider_eq, groupByProvider_eq, List.map_cons, unseen, if_pos (by simp),
    insert_empty_eq, hrest, List.flatMap_cons]
  congr 1
  refine List.flatMap_congr fun key hkey => ?_
  have hne : key ≠ r.provider := by
    obtain ⟨hmem, -⟩ := mem_unseen.mp hkey
    obtain ⟨x, hx, rfl⟩ := List.mem_map.mp hmem
    simpa using (List.mem_filter.mp hx).2
  rw [List.filter_cons_of_neg (by simpa using hne.symm), List.filter_filter]
  refine List.filter_congr fun x _ => ?_
  by_cases hx : x.provider = key <;> simp [hx, hne]

@[simp] theorem groupByProvider_nil : groupByProvider ([] : List (SearchResult σ τ)) = [] := rfl

/-- A property of what grouping makes of a list, one provider after the other. -/
theorem groupByProvider_induction {P : List (SearchResult σ τ) → List (SearchResult σ τ) → Prop}
    (nil : P [] [])
    (cons : ∀ r sorted, P (sorted.filter (·.provider ≠ r.provider))
      (groupByProvider (sorted.filter (·.provider ≠ r.provider))) →
        P (r :: sorted) ((r :: sorted).filter (·.provider = r.provider) ++
          groupByProvider (sorted.filter (·.provider ≠ r.provider))))
    (sorted : List (SearchResult σ τ)) : P sorted (groupByProvider sorted) := by
  induction hn : sorted.length using Nat.strong_induction_on generalizing sorted with
  | _ n ih =>
    cases sorted with
    | nil => exact nil
    | cons r sorted =>
      rw [groupByProvider_cons]
      refine cons r sorted (ih _ ?_ _ rfl)
      have := List.length_filter_le (fun x : SearchResult σ τ => decide (x.provider ≠ r.provider))
        sorted
      rw [← hn, List.length_cons]
      omega

theorem groupByProvider_perm (sorted : List (SearchResult σ τ)) :
    (groupByProvider sorted).Perm sorted := by
  refine groupByProvider_induction (P := fun sorted grouped => grouped.Perm sorted) .nil ?_ sorted
  intro r sorted ih
  have hneg : (r :: sorted).filter (fun x => !decide (x.provider = r.provider)) =
      sorted.filter (·.provider ≠ r.provider) := by
    rw [List.filter_cons_of_neg (by simp)]
    exact List.filter_congr fun x _ => by simp
  have hsplit := List.filter_append_perm (fun x => decide (x.provider = r.provider)) (r :: sorted)
  rw [hneg] at hsplit
  exact (ih.append_left _).trans hsplit

/-- What is between two results of a provider is of the same provider. -/
def Contiguous (l : List (SearchResult σ τ)) : Prop :=
  ∀ a b c, [a, b, c].Sublist l → a.provider = c.provider → b.provider = a.provider

theorem contiguous_groupByProvider (sorted : List (SearchResult σ τ)) :
    Contiguous (groupByProvider sorted) := by
  refine groupByProvider_induction (P := fun _ grouped => Contiguous grouped) ?_ ?_ sorted
  · intro a b c h
    cases h
  · intro r sorted ih a b c h hac
    have hout : ∀ x ∈ groupByProvider (sorted.filter (·.provider ≠ r.provider)),
        x.provider ≠ r.provider := fun x hx => by
      simpa using (List.mem_filter.mp ((groupByProvider_perm _).mem_iff.mp hx)).2
    have hin : ∀ x ∈ (r :: sorted).filter (·.provider = r.provider), x.provider = r.provider :=
      fun x hx => by simpa using (List.mem_filter.mp hx).2
    obtain ⟨l₁, l₂, habc, h₁, h₂⟩ := List.sublist_append_iff.mp h
    -- The last of the three tells in which part they are.
    cases l₂ using List.reverseRecOn with
    | nil =>
      rw [List.append_nil] at habc
      have ha := hin a (h₁.subset (by simp [← habc]))
      have hb := hin b (h₁.subset (by simp [← habc]))
      rw [hb, ha]
    | append_singleton l₂ x =>
      rw [← List.append_assoc] at habc
      obtain ⟨hab, hc⟩ := List.append_inj' (show [a, b] ++ [c] = _ from habc) rfl
      have hx : x = c := by simpa using hc.symm
      have hcr := hout c (h₂.subset (by simp [hx]))
      cases l₁ with
      | nil =>
        rw [List.nil_append] at hab
        rw [← hab, hx] at h₂
        exact ih a b c h₂ hac
      | cons y l₁ =>
        have hy : y = a := by simpa using (congrArg List.head? hab).symm
        have har := hin a (h₁.subset (by simp [hy]))
        exact absurd (hac ▸ har) hcr

section
variable [LinearOrder σ]

/-- The best score of a provider. -/
def IsBest (l : List (SearchResult σ τ)) (provider : Text) (best : σ) : Prop :=
  (∃ r ∈ l, r.provider = provider ∧ r.score = best) ∧
    ∀ r ∈ l, r.provider = provider → r.score ≤ best

/-- The results of a provider stand together, the best first, and so do the providers. -/
structure Grouped (l : List (SearchResult σ τ)) : Prop where
  contiguous : Contiguous l
  results : l.Pairwise fun a b => a.provider = b.provider → b.score ≤ a.score
  providers : l.Pairwise fun a b => ∀ s t, IsBest l a.provider s → IsBest l b.provider t → t ≤ s

theorem grouped_groupByProvider {sorted : List (SearchResult σ τ)}
    (h : sorted.Pairwise fun a b => b.score ≤ a.score) : Grouped (groupByProvider sorted) := by
  refine ⟨contiguous_groupByProvider sorted, ?_, ?_⟩
  · revert h
    refine groupByProvider_induction (P := fun sorted grouped =>
      sorted.Pairwise (fun a b => b.score ≤ a.score) →
        grouped.Pairwise fun a b => a.provider = b.provider → b.score ≤ a.score) ?_ ?_ sorted
    · exact fun _ => .nil
    · intro r sorted ih h
      refine List.pairwise_append.mpr ⟨?_, ih ?_, ?_⟩
      · refine List.Pairwise.imp ?_ (h.sublist List.filter_sublist)
        exact fun hab _ => hab
      · exact (h.sublist ((List.filter_sublist).trans (List.sublist_cons_self r sorted)))
      · intro a ha b hb heq
        have ha' : a.provider = r.provider := by simpa using (List.mem_filter.mp ha).2
        have hb' : b.provider ≠ r.provider := by
          simpa using (List.mem_filter.mp ((groupByProvider_perm _).mem_iff.mp hb)).2
        exact absurd (heq.symm.trans ha') hb'
  · -- The bests are those of the sorted list, where the first of a provider has the best score.
    have hbest : ∀ provider s, IsBest (groupByProvider sorted) provider s →
        IsBest sorted provider s := fun provider s hb =>
      ⟨by simpa only [(groupByProvider_perm sorted).mem_iff] using hb.1,
        by simpa only [(groupByProvider_perm sorted).mem_iff] using hb.2⟩
    suffices hpair : (groupByProvider sorted).Pairwise fun a b =>
        ∀ s t, IsBest sorted a.provider s → IsBest sorted b.provider t → t ≤ s from
      hpair.imp fun hab s t hs ht => hab s t (hbest _ s hs) (hbest _ t ht)
    revert h
    refine groupByProvider_induction (P := fun sorted grouped =>
      sorted.Pairwise (fun a b => b.score ≤ a.score) → grouped.Pairwise fun a b =>
        ∀ s t, IsBest sorted a.provider s → IsBest sorted b.provider t → t ≤ s) ?_ ?_ sorted
    · exact fun _ => .nil
    · intro r sorted ih h
      have htop : ∀ x ∈ r :: sorted, x.score ≤ r.score := by
        intro x hx
        rcases List.mem_cons.mp hx with rfl | hx
        · exact le_rfl
        · exact (List.pairwise_cons.mp h).1 x hx
      -- No provider is better than that of the first result.
      have hfirst : ∀ a b : SearchResult σ τ, a.provider = r.provider → ∀ s t,
          IsBest (r :: sorted) a.provider s → IsBest (r :: sorted) b.provider t → t ≤ s := by
        rintro a b ha s t hs ⟨⟨x, hx, -, rfl⟩, -⟩
        exact (htop x hx).trans (hs.2 r List.mem_cons_self ha.symm)
      refine List.pairwise_append.mpr ⟨?_, ?_, ?_⟩
      · refine List.pairwise_of_forall_mem_list fun a ha b _ => hfirst a b ?_
        simpa using (List.mem_filter.mp ha).2
      · have hrest := ih (h.sublist
          ((List.filter_sublist).trans (List.sublist_cons_self r sorted)))
        have hsame : ∀ x ∈ groupByProvider (sorted.filter (·.provider ≠ r.provider)), ∀ s,
            IsBest (r :: sorted) x.provider s →
              IsBest (sorted.filter (·.provider ≠ r.provider)) x.provider s := by
          intro x hx s hs
          have hxr : x.provider ≠ r.provider := by
            simpa using (List.mem_filter.mp ((groupByProvider_perm _).mem_iff.mp hx)).2
          obtain ⟨⟨y, hy, hyx, hys⟩, hall⟩ := hs
          refine ⟨⟨y, ?_, hyx, hys⟩, fun z hz hzx => hall z ?_ hzx⟩
          · have hyr : y ≠ r := fun he => hxr (he ▸ hyx.symm)
            simpa [hyx, hxr] using (List.mem_cons.mp hy).resolve_left hyr
          · exact List.mem_cons_of_mem _ (List.mem_of_mem_filter hz)
        refine hrest.imp_of_mem fun ha hb hab s t hs ht => hab s t ?_ ?_
        · exact hsame _ ha s hs
        · exact hsame _ hb t ht
      · exact fun a ha b _ => hfirst a b (by simpa using (List.mem_filter.mp ha).2)

end

end Search

end SingularityShell
