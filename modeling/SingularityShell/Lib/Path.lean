import Mathlib.Data.List.DropRight
import SingularityShell.Lib.Ascii

/-!
# File names

The operations on file names of a program in C, on names with slashes.

## Main definitions

* `Path.dirname`, `Path.buildFilename` — the directory of a file, and a file in a directory
* `Path.canonicalize` — a name without repeated slashes, `.` and `..`

## Main results

* `Path.canonicalize_eq_self` — what a canonical name looks like below a directory
* `Path.buildFilename_eq` — a file in a directory has the name that one expects
-/

namespace SingularityShell

namespace Path

open Ascii

def isAbsolute (name : Text) : Bool := name.head? = some 47

/-- `g_path_get_dirname`: what stands before the last slashes. -/
def dirname (name : Text) : Text :=
  let upTo := name.rdropWhile (· ≠ 47)
  if upTo = [] then [46]
  else
    let dir := upTo.rdropWhile (· = 47)
    if dir = [] then [47] else dir

/-- `g_path_get_basename`: the last component. -/
def basename (name : Text) : Text :=
  if name = [] then [46]
  else
    let upTo := name.rdropWhile (· = 47)
    if upTo = [] then [47] else upTo.rtakeWhile (· ≠ 47)

/-- An element of a name without the slashes around it. -/
def bare (element : Text) : Text := (element.dropWhile (· = 47)).rdropWhile (· = 47)

/-- `g_build_filename` of two elements: one slash between them, and the slashes in front and at the
end as they are. -/
def buildFilename (first second : Text) : Text :=
  if first = [] then second
  else if second = [] then first
  else first.takeWhile (· = 47) ++
    [47].intercalate ([bare first, bare second].filter (· ≠ [])) ++ second.rtakeWhile (· = 47)

/-- The slashes in front of a canonical name: two when the name has two. -/
def root (name : Text) : Text := if (name.takeWhile (· = 47)).length = 2 then [47, 47] else [47]

/-- The next component, after those that are done. -/
def resolveDot (done : List Text) (c : Text) : List Text :=
  if c = [46] then done else if c = [46, 46] then done.dropLast else done ++ [c]

/-- The components that are left when those of `.` and `..` are resolved. -/
def resolveDots (components : List Text) : List Text := components.foldl resolveDot []

/-- `g_canonicalize_filename` of an absolute name. -/
def canonicalize (name : Text) : Text :=
  root name ++ [47].intercalate (resolveDots ((name.splitOn 47).filter (· ≠ [])))

/-- `g_canonicalize_filename`, with the working directory. -/
def canonicalizeIn (cwd name : Text) : Text :=
  canonicalize (if isAbsolute name then name else buildFilename cwd name)

/-! ### The directory -/

theorem dirname_ne_nil (name : Text) : dirname name ≠ [] := by
  rw [dirname]
  dsimp only
  split_ifs with h h'
  · exact List.cons_ne_nil _ _
  · exact List.cons_ne_nil _ _
  · exact h'

/-- A directory other than the root does not end in a slash. -/
theorem dirname_getLast {name : Text} (h : dirname name ≠ [47]) :
    (dirname name).getLast? ≠ some 47 := by
  rw [dirname] at h ⊢
  dsimp only at h ⊢
  split_ifs at h ⊢ with hup hdir
  · decide
  · exact absurd rfl h
  · intro hlast
    have hne := List.rdropWhile_last_not (· = 47) (name.rdropWhile (· ≠ 47)) hdir
    rw [List.getLast?_eq_some_getLast hdir] at hlast
    exact hne (decide_eq_true (Option.some.inj hlast))

/-! ### Canonical names -/

/-- A name without slashes is its last component. -/
theorem basename_eq_self {name : Text} (hne : name ≠ []) (h : 47 ∉ name) :
    basename name = name := by
  have hslash : ∀ b ∈ name, b ≠ 47 := fun b hb he => h (he ▸ hb)
  have hdrop : name.rdropWhile (· = 47) = name := List.rdropWhile_eq_self_iff.mpr fun hne' => by
    simpa using hslash _ (List.getLast_mem hne')
  rw [basename, if_neg hne]
  simp only [hdrop, if_neg hne]
  exact List.rtakeWhile_eq_self_iff.mpr fun b hb => by simpa using hslash b hb

/-- Every slash is between two bytes that are no slashes. -/
def Clean (name : Text) : Prop :=
  ∀ before after, name = before ++ 47 :: after →
    before ≠ [] ∧ before.getLast? ≠ some 47 ∧ after ≠ [] ∧ after.head? ≠ some 47

/-- A slash after the first component is that after it, or one in the rest. -/
theorem slash_cases {c rest before after : Text} (hc : 47 ∉ c)
    (h : c ++ 47 :: rest = before ++ 47 :: after) :
    (before = c ∧ after = rest) ∨
    ∃ middle, before = c ++ 47 :: middle ∧ rest = middle ++ 47 :: after := by
  by_cases hbefore : 47 ∈ before
  · obtain ⟨first, middle, rfl, hfirst⟩ := List.eq_append_cons_of_mem hbefore
    rw [List.append_assoc, List.cons_append] at h
    obtain ⟨rfl, hrest⟩ := separate_inj hc hfirst h
    exact .inr ⟨middle, rfl, hrest⟩
  · obtain ⟨rfl, rfl⟩ := separate_inj hc hbefore h
    exact .inl ⟨rfl, rfl⟩

theorem clean_intercalate {components : List Text} (h : ∀ c ∈ components, c ≠ [] ∧ 47 ∉ c) :
    Clean ([47].intercalate components) := by
  induction components with
  | nil =>
    intro before after heq
    exact absurd heq.symm (List.append_ne_nil_of_right_ne_nil _ (List.cons_ne_nil _ _))
  | cons c components ih =>
    obtain ⟨hne, hc⟩ := h c List.mem_cons_self
    have ih := ih fun d hd => h d (List.mem_cons_of_mem _ hd)
    intro before after heq
    cases components with
    | nil =>
      rw [List.intercalate_singleton] at heq
      exact absurd (heq ▸ List.mem_append_right _ List.mem_cons_self) hc
    | cons d components =>
      rw [List.intercalate_cons_cons, List.append_assoc, List.singleton_append] at heq
      have hd := (h d (List.mem_cons_of_mem _ List.mem_cons_self)).1
      have hrest : [47].intercalate (d :: components) ≠ [] := by
        obtain ⟨b, d, rfl⟩ := List.exists_cons_of_ne_nil hd
        rw [List.intercalate_cons_cons_left]
        exact List.cons_ne_nil _ _
      rcases slash_cases hc heq with ⟨rfl, rfl⟩ | ⟨middle, rfl, hmiddle⟩
      · refine ⟨hne, fun hlast => hc (List.mem_of_getLast? hlast), hrest, fun hhead => ?_⟩
        obtain ⟨tail, htail⟩ := List.head?_eq_some_iff.mp hhead
        exact (ih [] tail htail).1 rfl
      · obtain ⟨hmid, hlast, hafter⟩ := ih middle after hmiddle
        refine ⟨List.append_ne_nil_of_left_ne_nil hne _, ?_, hafter⟩
        rw [List.getLast?_append, List.getLast?_cons_of_ne_nil hmid]
        rwa [List.getLast?_eq_some_getLast hmid, Option.some_or,
          ← List.getLast?_eq_some_getLast hmid]

theorem notMem_of_mem_splitOn {x : UInt8} {text part : Text} (h : part ∈ text.splitOn x) :
    x ∉ part := by
  induction text generalizing part with
  | nil =>
    rw [List.splitOn_nil, List.mem_singleton] at h
    exact h ▸ List.not_mem_nil
  | cons b text ih =>
    rw [List.splitOn_cons_eq_if_modifyHead] at h
    split at h
    · rcases List.mem_cons.mp h with rfl | h
      · exact List.not_mem_nil
      · exact ih h
    · next hb =>
      obtain ⟨first, rest, hparts⟩ := List.exists_cons_of_ne_nil (List.splitOn_ne_nil x text)
      rw [hparts] at h ih
      rcases List.mem_cons.mp h with rfl | h
      · intro hx
        rcases List.mem_cons.mp hx with rfl | hx
        · exact hb (beq_self_eq_true _)
        · exact ih List.mem_cons_self hx
      · exact ih (List.mem_cons_of_mem _ h)

theorem mem_resolveDots {components : List Text} {c : Text} (h : c ∈ resolveDots components) :
    c ∈ components := by
  have hfold : ∀ (cs done : List Text), (∀ d ∈ done, d ∈ components) → (∀ d ∈ cs, d ∈ components) →
      ∀ d ∈ cs.foldl resolveDot done, d ∈ components := by
    intro cs
    induction cs with
    | nil => exact fun done hdone _ => hdone
    | cons c cs ih =>
      intro done hdone hcs
      refine ih _ (fun d hd => ?_) fun d hd => hcs d (List.mem_cons_of_mem _ hd)
      rw [resolveDot] at hd
      split_ifs at hd
      · exact hdone d hd
      · exact hdone d ((List.dropLast_sublist done).subset hd)
      · rcases List.mem_append.mp hd with hd | hd
        · exact hdone d hd
        · exact hcs d (List.mem_singleton.mp hd ▸ List.mem_cons_self)
  exact hfold components [] (fun d hd => absurd hd List.not_mem_nil) (fun d hd => hd) c h

/-- What is canonical is clean after the slashes in front. -/
theorem canonicalize_clean (name : Text) :
    ∃ rest, Clean rest ∧ canonicalize name = root name ++ rest := by
  refine ⟨_, clean_intercalate fun c hc => ?_, rfl⟩
  obtain ⟨hmem, hne⟩ := List.mem_filter.mp (mem_resolveDots hc)
  exact ⟨of_decide_eq_true hne, notMem_of_mem_splitOn hmem⟩

/-- A canonical name below a directory other than the root: what stands after the directory does not
start with a slash, and has no two slashes in a row. -/
theorem canonicalize_below {dir rest : Text}
    (h : canonicalize (dir ++ 47 :: rest) = dir ++ 47 :: rest)
    (hdir : dir ≠ []) (hlast : dir.getLast? ≠ some 47) :
    rest ≠ [] ∧ rest.head? ≠ some 47 ∧ ∀ p q, rest = p ++ 47 :: q → q.head? ≠ some 47 := by
  obtain ⟨clean, hclean, heq⟩ := canonicalize_clean (dir ++ 47 :: rest)
  have hsplit : ∃ before, clean = before ++ 47 :: rest := by
    rw [h, root] at heq
    obtain ⟨b, dir, rfl⟩ := List.exists_cons_of_ne_nil hdir
    split_ifs at heq
    · cases dir with
      | nil => exact absurd (congrArg some (List.cons.inj heq).1) hlast
      | cons c dir => exact ⟨dir, (List.cons.inj (List.cons.inj heq).2).2.symm⟩
    · exact ⟨dir, (List.cons.inj heq).2.symm⟩
  obtain ⟨before, rfl⟩ := hsplit
  obtain ⟨-, -, hne, hhead⟩ := hclean before rest rfl
  refine ⟨hne, hhead, ?_⟩
  rintro p q rfl
  exact (hclean (before ++ 47 :: p) q (by rw [List.append_assoc, List.cons_append])).2.2.2

/-- A name in the root directory is canonical with one slash in front. -/
theorem canonicalize_root_ne {rest : Text} (hne : rest ≠ []) (hhead : rest.head? ≠ some 47) :
    canonicalize (47 :: rest) ≠ 47 :: 47 :: rest := by
  intro h
  obtain ⟨clean, hclean, heq⟩ := canonicalize_clean (47 :: rest)
  obtain ⟨b, rest, rfl⟩ := List.exists_cons_of_ne_nil hne
  have hb : b ≠ 47 := fun hb => hhead (congrArg some hb)
  have hroot : root (47 :: b :: rest) = [47] := by
    rw [root, List.takeWhile_cons_of_pos (by decide),
      List.takeWhile_cons_of_neg (by simpa using hb)]
    rfl
  rw [h, hroot] at heq
  exact (hclean [] (b :: rest) (List.cons.inj heq).2.symm).1 rfl

/-- A canonical name with two slashes in front has no two in a row after them. -/
theorem canonicalize_two {rest p q : Text} (h : canonicalize (47 :: 47 :: rest) = 47 :: 47 :: rest)
    (hhead : rest.head? ≠ some 47) (hne : rest ≠ []) (hrest : rest = p ++ 47 :: q) :
    q.head? ≠ some 47 := by
  obtain ⟨clean, hclean, heq⟩ := canonicalize_clean (47 :: 47 :: rest)
  obtain ⟨b, tail, htail⟩ := List.exists_cons_of_ne_nil hne
  have hb : b ≠ 47 := fun hb => hhead (by rw [htail, hb, List.head?_cons])
  have hroot : root (47 :: 47 :: rest) = [47, 47] := by
    rw [root, htail, List.takeWhile_cons_of_pos (by decide), List.takeWhile_cons_of_pos (by decide),
      List.takeWhile_cons_of_neg (by simpa using hb)]
    rfl
  rw [h, hroot] at heq
  have hclean' : clean = rest := (List.cons.inj (List.cons.inj heq).2).2.symm
  exact (hclean p q (hclean'.trans hrest)).2.2.2

/-! ### Files in directories -/

theorem bare_of_head {name : Text} (h : name.head? ≠ some 47) :
    bare name = name.rdropWhile (· = 47) := by
  cases name with
  | nil => rfl
  | cons b name =>
    have hb : b ≠ 47 := fun hb => h (congrArg some hb)
    rw [bare, List.dropWhile_cons_of_neg (by simpa using hb)]

theorem rdropWhile_ne_nil {name : Text} (hne : name ≠ []) (h : name.head? ≠ some 47) :
    name.rdropWhile (· = 47) ≠ [] := by
  obtain ⟨b, name, rfl⟩ := List.exists_cons_of_ne_nil hne
  intro hnil
  have := List.rdropWhile_eq_nil_iff.mp hnil b List.mem_cons_self
  exact h (congrArg some (of_decide_eq_true this))

theorem takeWhile_append_bare {dir : Text} (hdir : dir ≠ []) (hlast : dir.getLast? ≠ some 47) :
    dir.takeWhile (· = 47) ++ bare dir = dir ∧ bare dir ≠ [] := by
  have hdrop : dir.dropWhile (· = 47) ≠ [] := by
    intro hnil
    have hall := List.dropWhile_eq_nil_iff.mp hnil _ (List.getLast_mem hdir)
    exact hlast (by rw [List.getLast?_eq_some_getLast hdir, of_decide_eq_true hall])
  have hbare : bare dir = dir.dropWhile (· = 47) := by
    refine List.rdropWhile_eq_self_iff.mpr fun hl hp => hlast ?_
    have hend : (dir.dropWhile (· = 47)).getLast hl = dir.getLast hdir :=
      (List.dropWhile_suffix _).getLast hl
    rw [List.getLast?_eq_some_getLast hdir, ← hend, of_decide_eq_true hp]
  rw [hbare]
  exact ⟨List.takeWhile_append_dropWhile, hdrop⟩

/-- A file in a directory. -/
theorem buildFilename_eq {dir rest : Text} (hdir : dir ≠ []) (hlast : dir.getLast? ≠ some 47)
    (hne : rest ≠ []) (hhead : rest.head? ≠ some 47) :
    buildFilename dir rest = dir ++ 47 :: rest := by
  obtain ⟨hdirEq, hbare⟩ := takeWhile_append_bare hdir hlast
  have hrest := bare_of_head hhead
  have hrestNe := rdropWhile_ne_nil hne hhead
  have hkeep : [bare dir, rest.rdropWhile (· = 47)].filter (· ≠ []) =
      [bare dir, rest.rdropWhile (· = 47)] := by
    refine List.filter_eq_self.mpr (List.forall_mem_cons.mpr ⟨decide_eq_true hbare, ?_⟩)
    exact fun c hc => List.mem_singleton.mp hc ▸ decide_eq_true hrestNe
  rw [buildFilename, if_neg hdir, if_neg hne, hrest, hkeep, List.intercalate_cons_cons,
    List.intercalate_singleton]
  calc dir.takeWhile (· = 47) ++ (bare dir ++ [47] ++ rest.rdropWhile (· = 47)) ++
        rest.rtakeWhile (· = 47)
      = (dir.takeWhile (· = 47) ++ bare dir) ++ [47] ++
          (rest.rdropWhile (· = 47) ++ rest.rtakeWhile (· = 47)) := by
        simp only [List.append_assoc]
    _ = dir ++ 47 :: rest := by
        rw [hdirEq, List.rdropWhile_append_rtakeWhile, List.append_assoc, List.singleton_append]

/-- A file in the root directory. -/
theorem buildFilename_root {rest : Text} (hne : rest ≠ []) (hhead : rest.head? ≠ some 47) :
    buildFilename [47] rest = 47 :: rest := by
  have hrestNe := rdropWhile_ne_nil hne hhead
  have hroot : bare [47] = [] := rfl
  have hkeep : [[], rest.rdropWhile (· = 47)].filter (· ≠ []) = [rest.rdropWhile (· = 47)] := by
    rw [List.filter_cons_of_neg (by simp)]
    refine List.filter_eq_self.mpr fun c hc => ?_
    rw [List.mem_singleton.mp hc]
    exact decide_eq_true hrestNe
  rw [buildFilename, if_neg (List.cons_ne_nil _ _), if_neg hne, bare_of_head hhead, hroot, hkeep,
    List.intercalate_singleton, List.append_assoc, List.rdropWhile_append_rtakeWhile]
  rfl

/-- What stands before the name of a file depends on the directory only. -/
theorem exists_buildFilename_eq_append (dir : Text) :
    ∃ before, ∀ name : Text, name ≠ [] → 47 ∉ name → buildFilename dir name = before ++ name := by
  have hbare : ∀ name : Text, 47 ∉ name → bare name = name ∧ name.rtakeWhile (· = 47) = [] := by
    intro name h
    have hslash : ∀ b ∈ name, b ≠ 47 := fun b hb he => h (he ▸ hb)
    have hdrop : name.rdropWhile (· = 47) = name := List.rdropWhile_eq_self_iff.mpr fun hne => by
      simpa using hslash _ (List.getLast_mem hne)
    have hhead : name.head? ≠ some 47 := fun hh => h (List.mem_of_mem_head? hh)
    refine ⟨(bare_of_head hhead).trans hdrop, ?_⟩
    have happend := List.rdropWhile_append_rtakeWhile (p := (· = 47)) (l := name)
    rw [hdrop] at happend
    exact List.append_right_eq_self.mp happend
  by_cases hdir : dir = []
  · exact ⟨[], fun name _ _ => by rw [buildFilename, if_pos hdir, List.nil_append]⟩
  · by_cases hb : bare dir = []
    · refine ⟨dir.takeWhile (· = 47), fun name hne h => ?_⟩
      obtain ⟨hname, htake⟩ := hbare name h
      rw [buildFilename, if_neg hdir, if_neg hne, hb, hname, htake]
      simp [hne]
    · refine ⟨dir.takeWhile (· = 47) ++ bare dir ++ [47], fun name hne h => ?_⟩
      obtain ⟨hname, htake⟩ := hbare name h
      rw [buildFilename, if_neg hdir, if_neg hne, hname, htake]
      simp [hne, hb, List.intercalate_cons_cons]

/-- Files of different names in one directory. -/
theorem buildFilename_inj {dir name name' : Text} (hne : name ≠ []) (hs : 47 ∉ name)
    (hne' : name' ≠ []) (hs' : 47 ∉ name') :
    buildFilename dir name = buildFilename dir name' ↔ name = name' := by
  obtain ⟨before, hbefore⟩ := exists_buildFilename_eq_append dir
  rw [hbefore name hne hs, hbefore name' hne' hs', List.append_cancel_left_eq]

end Path

end SingularityShell
