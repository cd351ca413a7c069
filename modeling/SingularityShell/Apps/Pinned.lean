import SingularityShell.Lib.Ascii
import SingularityShell.Lib.Lists
import SingularityShell.Lib.Rounding

/-!
# The pinned applications

The list of ids that the dock shows. An id may come from the user, from an installed application or
from a running window, and `AppSystem.get_app_info` finds the application that it stands for.

## Main definitions

* `Apps.Installed` — the applications, the policy that hides some, and lower case
* `Apps.Installed.getAppInfo` — the application that an id stands for
* `Apps.Installed.isPinned`, `Apps.Installed.run` — the test, and the requests
* `Apps.Installed.Meant` — what is meant
* `Apps.Installed.Spelled` — lists whose entries are spelled like the id

## Main results

* `Apps.Installed.isPinned_iff` — the test is one of each entry
* `Apps.Installed.oneEach_after` — no request adds a second entry of an application
* `Apps.Installed.meant_iff` — the requests do what is meant on lists that are spelled so
-/

namespace SingularityShell

namespace Apps

open Ascii Rounding

/-- What an id is looked up in. -/
structure Installed where
  /-- the ids of the list of applications, and the keys of the table -/
  ids : List Text
  /-- what the parental policy blocks -/
  hides : Text → Bool
  /-- `string.down` -/
  down : Text → Text

def suffix : Text := ofString ".desktop"

def dot : Text := ofString "."

/-- `s.replace("-", ".")` -/
def dashesToDots (s : Text) : Text := s.map fun b => if b = 45 then 46 else b

/-- `s.contains(part)` -/
def contains (s part : Text) : Bool := s.tails.any part.isPrefixOf

/-- One application of the list is what is searched for, both in lower case. -/
def answers (searchId id : Text) : Bool :=
  let searchDesktop := searchId ++ suffix
  let dotSearch := dashesToDots searchId
  (id == searchId || id == searchDesktop) ||
  (dot ++ searchDesktop).isSuffixOf id ||
  (searchId.contains 45 &&
    (id == dotSearch ++ suffix || (dot ++ dotSearch ++ suffix).isSuffixOf id)) ||
  (2 < searchId.length && contains id searchId &&
    ((searchId ++ dot).isPrefixOf id || (dot ++ searchDesktop).isSuffixOf id ||
      contains id (dot ++ searchId ++ dot)))

namespace Installed

variable (apps : Installed)

/-- `get_app_info`; an application is its id. -/
def getAppInfo (desktopId : Text) : Option Text :=
  if strip desktopId = [] ∨ apps.hides desktopId then none
  else if desktopId ∈ apps.ids then some desktopId
  else if !suffix.isSuffixOf desktopId ∧ desktopId ++ suffix ∈ apps.ids then
    some (desktopId ++ suffix)
  else apps.ids.find? fun id => answers (apps.down desktopId) (apps.down id)

/-- `is_pinned` -/
def isPinned (pinned : List Text) (desktopId : Text) : Bool :=
  if pinned.any (· == desktopId) then true
  else match apps.getAppInfo desktopId with
    | some canonical =>
      pinned.any fun pinnedId => pinnedId == canonical || apps.getAppInfo pinnedId == some canonical
    | none => false

end Installed

/-- What a request does to the list: nothing, a list is written to the settings, or an entry is
written behind the end of the new array, where its terminator belongs. -/
inductive Outcome where
  | unchanged
  | written (pinned : List Text)
  | overrun
  deriving DecidableEq

/-- The entries are put into a new array of that length. -/
def fill (length : ℕ) (entries : List Text) : Outcome :=
  if entries.length ≤ length then .written entries else .overrun

/-- The list afterwards. -/
def Outcome.after (pinned : List Text) : Outcome → Option (List Text)
  | .unchanged => some pinned
  | .written pinned' => some pinned'
  | .overrun => none

/-- An index that is brought into the list. -/
def position (index : ℤ) (length : ℕ) : ℕ := (clamp index 0 length).toNat

inductive Request where
  | pin
  | unpin
  | insert (index : ℤ)
  | move (newPos : ℤ)

namespace Installed

variable (apps : Installed) (pinned : List Text) (desktopId : Text)

/-- `pin_app` -/
def pinApp : Outcome :=
  if apps.isPinned pinned desktopId then .unchanged
  else fill (pinned.length + 1) (pinned ++ [desktopId])

/-- `unpin_app` -/
def unpinApp : Outcome :=
  if apps.isPinned pinned desktopId then
    fill (pinned.length - 1) (pinned.filter (· != desktopId))
  else .unchanged

/-- `insert_pinned_app` -/
def insertPinnedApp (index : ℤ) : Outcome :=
  if apps.isPinned pinned desktopId then .unchanged
  else fill (pinned.length + 1)
    (pinned.insertIdx (position index pinned.length) desktopId)

/-- `move_pinned_app` -/
def movePinnedApp (newPos : ℤ) : Outcome :=
  if apps.isPinned pinned desktopId ∧ desktopId ∈ pinned then
    let list := pinned.erase desktopId
    fill (list.length + 1) (list.insertIdx (position newPos list.length) desktopId)
  else .unchanged

def run : Request → Outcome
  | .pin => apps.pinApp pinned desktopId
  | .unpin => apps.unpinApp pinned desktopId
  | .insert index => apps.insertPinnedApp pinned desktopId index
  | .move newPos => apps.movePinnedApp pinned desktopId newPos

/-! ### What is meant -/

/-- The list has got the id once, and nothing else has changed. -/
def Adds (outcome : Outcome) : Prop :=
  ∃ list, outcome.after pinned = some list ∧ list.count desktopId = 1 ∧
    list.filter (· ≠ desktopId) = pinned

/-- An entry that made the id count as pinned is at the index, and the others are where they were
among each other. -/
def Moves (newPos : ℤ) (outcome : Outcome) : Prop :=
  ∃ list, outcome.after pinned = some list ∧ list.Perm pinned ∧
    ∃ entry k, pinned[k]? = some entry ∧ apps.isPinned [entry] desktopId ∧
      list[position newPos (pinned.length - 1)]? = some entry ∧
      list.eraseIdx (position newPos (pinned.length - 1)) = pinned.eraseIdx k

/-- The two entries are for one application. -/
def SameApp (p q : Text) : Prop :=
  p = q ∨ ∃ canonical, apps.getAppInfo p = some canonical ∧ apps.getAppInfo q = some canonical

def OneEach (list : List Text) : Prop := list.Pairwise fun p q => ¬apps.SameApp p q

/-- What is meant. -/
structure Meant : Prop where
  unpinned : apps.isPinned pinned desktopId →
    (apps.unpinApp pinned desktopId).after pinned =
        some (pinned.filter fun p => !apps.isPinned [p] desktopId) ∧
      apps.isPinned (pinned.filter fun p => !apps.isPinned [p] desktopId) desktopId = false
  added : ¬apps.isPinned pinned desktopId → Adds pinned desktopId (apps.pinApp pinned desktopId)
  inserted : ¬apps.isPinned pinned desktopId →
    ∀ index, Adds pinned desktopId (apps.insertPinnedApp pinned desktopId index)
  moved : apps.isPinned pinned desktopId →
    ∀ newPos, apps.Moves pinned desktopId newPos (apps.movePinnedApp pinned desktopId newPos)
  oneEach : apps.OneEach pinned → ∀ request list,
    (apps.run pinned desktopId request).after pinned = some list → apps.OneEach list

/-- The entries that make the id count as pinned are spelled like it. -/
def Spelled : Prop := ∀ p ∈ pinned, apps.isPinned [p] desktopId → p = desktopId

/-! ### The test -/

variable {apps : Installed} {pinned list : List Text} {desktopId p q : Text}

theorem isPinned_iff : apps.isPinned pinned desktopId = true ↔
    ∃ p ∈ pinned, p = desktopId ∨ ∃ canonical, apps.getAppInfo desktopId = some canonical ∧
      (p = canonical ∨ apps.getAppInfo p = some canonical) := by
  rw [isPinned]
  by_cases hany : pinned.any (· == desktopId) = true
  · rw [if_pos hany]
    obtain ⟨p, hp, he⟩ := List.any_eq_true.mp hany
    exact ⟨fun _ => ⟨p, hp, .inl (by simpa using he)⟩, fun _ => rfl⟩
  · rw [if_neg hany]
    have hne : ∀ p ∈ pinned, p ≠ desktopId := fun p hp he =>
      hany (List.any_eq_true.mpr ⟨p, hp, by simp [he]⟩)
    cases hinfo : apps.getAppInfo desktopId with
    | none =>
      simp only [Bool.false_eq_true, reduceCtorEq, false_and, exists_false, or_false, false_iff]
      rintro ⟨p, hp, he⟩
      exact hne p hp he
    | some canonical =>
      simp only [List.any_eq_true, Bool.or_eq_true, beq_iff_eq, Option.some.injEq, exists_eq_left']
      refine ⟨fun ⟨p, hp, h⟩ => ⟨p, hp, .inr h⟩, ?_⟩
      rintro ⟨p, hp, he | h⟩
      · exact absurd he (hne p hp)
      · exact ⟨p, hp, h⟩

/-- The test asks each entry by itself. -/
theorem isPinned_iff_exists : apps.isPinned pinned desktopId = true ↔
    ∃ p ∈ pinned, apps.isPinned [p] desktopId = true := by
  simp only [isPinned_iff, List.mem_singleton, exists_eq_left]

theorem isPinned_of_mem (h : desktopId ∈ pinned) : apps.isPinned pinned desktopId = true :=
  isPinned_iff.mpr ⟨desktopId, h, .inl rfl⟩

/-- An id that is not pinned is none of an application in the list. -/
theorem not_sameApp (h : ¬apps.isPinned pinned desktopId) (hp : p ∈ pinned) :
    ¬apps.SameApp p desktopId := by
  rintro (he | ⟨canonical, hinfo, hid⟩)
  · exact h (isPinned_iff.mpr ⟨p, hp, .inl he⟩)
  · exact h (isPinned_iff.mpr ⟨p, hp, .inr ⟨canonical, hid, .inr hinfo⟩⟩)

/-! ### One entry for each application -/

theorem SameApp.symm (h : apps.SameApp p q) : apps.SameApp q p := by
  obtain rfl | ⟨canonical, hp, hq⟩ := h
  · exact .inl rfl
  · exact .inr ⟨canonical, hq, hp⟩

theorem oneEach_perm (h : list.Perm pinned) : apps.OneEach list ↔ apps.OneEach pinned :=
  h.pairwise_iff fun hpq hqp => hpq hqp.symm

theorem oneEach_cons (h : apps.OneEach pinned) (hid : ¬apps.isPinned pinned desktopId) :
    apps.OneEach (desktopId :: pinned) :=
  List.pairwise_cons.mpr ⟨fun _ hp hsame => not_sameApp hid hp hsame.symm, h⟩

/-! ### What the requests write -/

theorem position_le {index : ℤ} {n : ℕ} : position index n ≤ n := by
  have h := clamp_le (x := index) (Int.natCast_nonneg n)
  rw [position]
  omega

theorem fill_of_le {length : ℕ} (h : list.length ≤ length) : fill length list = .written list :=
  if_pos h

theorem pinApp_eq (h : ¬apps.isPinned pinned desktopId) :
    apps.pinApp pinned desktopId = .written (pinned ++ [desktopId]) := by
  rw [pinApp, if_neg h, fill_of_le (by simp)]

theorem insertPinnedApp_eq {index : ℤ} (h : ¬apps.isPinned pinned desktopId) :
    apps.insertPinnedApp pinned desktopId index =
      .written (pinned.insertIdx (position index pinned.length) desktopId) := by
  rw [insertPinnedApp, if_neg h,
    fill_of_le (by rw [List.length_insertIdx_of_le_length position_le])]

theorem movePinnedApp_eq {newPos : ℤ} (h : desktopId ∈ pinned) :
    apps.movePinnedApp pinned desktopId newPos = .written ((pinned.erase desktopId).insertIdx
      (position newPos (pinned.length - 1)) desktopId) := by
  have hlen : (pinned.erase desktopId).length = pinned.length - 1 := List.length_erase_of_mem h
  rw [movePinnedApp, if_pos ⟨isPinned_of_mem h, h⟩]
  simp only [hlen]
  rw [fill_of_le]
  rw [List.length_insertIdx_of_le_length (hlen ▸ position_le), hlen]

/-- **No request adds a second entry of an application.** -/
theorem oneEach_after {request : Request} (h : apps.OneEach pinned)
    (hafter : (apps.run pinned desktopId request).after pinned = some list) :
    apps.OneEach list := by
  have hsame {outcome : Outcome} (ho : outcome = .unchanged)
      (ha : outcome.after pinned = some list) : apps.OneEach list := by
    rw [ho] at ha
    exact Option.some.inj ha ▸ h
  cases request with
  | pin =>
    by_cases hid : apps.isPinned pinned desktopId = true
    · exact hsame (if_pos hid) hafter
    · rw [run, pinApp_eq hid] at hafter
      obtain rfl := Option.some.inj hafter
      exact (oneEach_perm (List.perm_append_singleton _ _)).mpr (oneEach_cons h hid)
  | unpin =>
    by_cases hid : apps.isPinned pinned desktopId = true
    · rw [run, unpinApp, if_pos hid, fill] at hafter
      by_cases hlen : (pinned.filter (· != desktopId)).length ≤ pinned.length - 1
      · rw [if_pos hlen] at hafter
        obtain rfl := Option.some.inj hafter
        exact h.filter _
      · rw [if_neg hlen] at hafter
        cases hafter
    · exact hsame (if_neg hid) hafter
  | insert index =>
    by_cases hid : apps.isPinned pinned desktopId = true
    · exact hsame (if_pos hid) hafter
    · rw [run, insertPinnedApp_eq hid] at hafter
      obtain rfl := Option.some.inj hafter
      exact (oneEach_perm (List.perm_insertIdx _ _ position_le)).mpr (oneEach_cons h hid)
  | move newPos =>
    by_cases hmem : desktopId ∈ pinned
    · rw [run, movePinnedApp_eq hmem] at hafter
      obtain rfl := Option.some.inj hafter
      refine (oneEach_perm ((List.perm_insertIdx _ _ ?_).trans
        (List.perm_cons_erase hmem).symm)).mpr h
      rw [List.length_erase_of_mem hmem]
      exact position_le
    · exact hsame (if_neg fun hc => hmem hc.2) hafter

/-! ### The requests and what is meant -/

theorem adds_of_perm (hid : ¬apps.isPinned pinned desktopId)
    (hperm : list.Perm (desktopId :: pinned))
    (hfilter : list.filter (· ≠ desktopId) = pinned.filter (· ≠ desktopId)) :
    Adds pinned desktopId (.written list) := by
  have hmem : desktopId ∉ pinned := fun hc => hid (isPinned_of_mem hc)
  refine ⟨list, rfl, ?_, ?_⟩
  · rw [hperm.count_eq, List.count_cons_self, List.count_eq_zero_of_not_mem hmem]
  · rw [hfilter]
    refine List.filter_eq_self.mpr fun p hp => ?_
    have hne : p ≠ desktopId := fun he => hmem (he ▸ hp)
    simpa using hne

theorem moves_of_mem {newPos : ℤ} (h : desktopId ∈ pinned) :
    apps.Moves pinned desktopId newPos (apps.movePinnedApp pinned desktopId newPos) := by
  have hlen : position newPos (pinned.length - 1) ≤ (pinned.erase desktopId).length := by
    rw [List.length_erase_of_mem h]
    exact position_le
  rw [movePinnedApp_eq h]
  refine ⟨_, rfl, (List.perm_insertIdx _ _ hlen).trans (List.perm_cons_erase h).symm, desktopId,
    pinned.idxOf desktopId, List.getElem?_idxOf h, isPinned_of_mem (List.mem_singleton_self _), ?_,
    ?_⟩
  · rw [List.getElem?_insertIdx_self, if_pos hlen]
  · rw [List.eraseIdx_insertIdx_self]
    exact List.erase_eq_eraseIdx_of_idxOf rfl

/-- Unpinning does what is meant on a list that is spelled so. -/
theorem unpinApp_eq (h : apps.Spelled pinned desktopId) (hid : apps.isPinned pinned desktopId) :
    apps.unpinApp pinned desktopId =
      .written (pinned.filter fun p => !apps.isPinned [p] desktopId) := by
  have hfilter : pinned.filter (· != desktopId) =
      pinned.filter fun p => !apps.isPinned [p] desktopId := by
    refine List.filter_congr fun p hp => ?_
    by_cases he : p = desktopId
    · simp [he, isPinned_of_mem (List.mem_singleton_self desktopId)]
    · have hno : apps.isPinned [p] desktopId = false :=
        Bool.eq_false_iff.mpr fun hc => he (h p hp hc)
      simp [he, hno]
  obtain ⟨p, hp, hpid⟩ := isPinned_iff_exists.mp hid
  obtain rfl := h p hp hpid
  rw [unpinApp, if_pos hid, fill_of_le, hfilter]
  have hlt : (pinned.filter (· != p)).length < pinned.length :=
    List.length_filter_lt_length_iff_exists.mpr ⟨p, hp, by simp⟩
  omega

theorem meant_of_spelled (h : apps.Spelled pinned desktopId) : apps.Meant pinned desktopId where
  unpinned hid := by
    refine ⟨by rw [unpinApp_eq h hid]; rfl, Bool.eq_false_iff.mpr fun hc => ?_⟩
    obtain ⟨p, hp, hpid⟩ := isPinned_iff_exists.mp hc
    simp [hpid] at hp
  added hid := by
    rw [pinApp_eq hid]
    exact adds_of_perm hid (List.perm_append_singleton _ _) (by simp)
  inserted hid index := by
    rw [insertPinnedApp_eq hid]
    exact adds_of_perm hid (List.perm_insertIdx _ _ position_le)
      (Lists.filter_insertIdx (by simp) _ _)
  moved hid newPos := by
    obtain ⟨p, hp, hpid⟩ := isPinned_iff_exists.mp hid
    exact moves_of_mem (h p hp hpid ▸ hp)
  oneEach hone _ _ hafter := oneEach_after hone hafter

/-- **The requests do what is meant on lists that are spelled like the id.** -/
theorem meant_iff (apps : Installed) (pinned : List Text) (desktopId : Text) :
    apps.Meant pinned desktopId ↔ apps.Spelled pinned desktopId := by
  refine ⟨fun h p hp hpid => ?_, meant_of_spelled⟩
  by_contra hne
  have hid := isPinned_iff_exists.mpr ⟨p, hp, hpid⟩
  have hafter := (h.unpinned hid).1
  rw [unpinApp, if_pos hid, fill] at hafter
  by_cases hlen : (pinned.filter (· != desktopId)).length ≤ pinned.length - 1
  · -- the entry that is spelled otherwise stays
    rw [if_pos hlen] at hafter
    have hstays : p ∈ pinned.filter (· != desktopId) := by simp [hp, hne]
    rw [show pinned.filter (· != desktopId) = _ from Option.some.inj hafter] at hstays
    simp [hpid] at hstays
  · rw [if_neg hlen] at hafter
    cases hafter

/-- One application, and the lower case of its ids. -/
def nautilus : Installed where
  ids := [ofString "org.gnome.Nautilus.desktop"]
  hides _ := false
  down s := s.map fun b => if 65 ≤ b && b ≤ 90 then b + 32 else b

/-- A running window has no suffix. -/
theorem not_meant_nautilus : ¬nautilus.Meant nautilus.ids (ofString "org.gnome.Nautilus") := by
  intro h
  have hafter := (h.unpinned (by decide +kernel)).1
  have hrun : nautilus.unpinApp nautilus.ids (ofString "org.gnome.Nautilus") = .overrun := by
    decide +kernel
  rw [hrun] at hafter
  cases hafter

end Installed

end Apps

end SingularityShell
