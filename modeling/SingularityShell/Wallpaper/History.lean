import SingularityShell.Lib.Ascii
import SingularityShell.Lib.Tape
import SingularityShell.Lib.Transition

/-!
# The history of wallpapers

`WallpaperHistory` keeps the wallpapers that were shown in two stacks around the current one, and
writes them to a key file after each change.

## Main definitions

* `Wallpaper.History` — the stacks, and the file
* `Wallpaper.History.record`, `Wallpaper.History.goBack`, `Wallpaper.History.goForward`,
  `Wallpaper.History.reload` — what is done to it
* `Wallpaper.History.tape` — the list with a cursor that it stands for

## Main results

* `Wallpaper.History.tape_step` — one step is that of the list
* `Wallpaper.History.refines` — every run
-/

namespace SingularityShell

namespace Wallpaper

open Ascii Transition

/-- The group `History` of the file. -/
structure Saved where
  back : List Text
  forward : List Text
  current : Text
  deriving DecidableEq

structure History where
  back : List Text := []
  forward : List Text := []
  currentPath : Option Text := none
  maxEntries : ℕ
  /-- what the file holds, once there is one -/
  file : Option Saved := none
  deriving DecidableEq

namespace History

variable (h : History)

def size : ℕ := h.back.length + h.forward.length + if h.currentPath.isSome then 1 else 0

/-- The loop of `trim_to_limit`, which takes one entry away in each round. -/
def trimLoop : ℕ → History → History
  | 0, h => h
  | rounds + 1, h =>
    if h.size ≤ h.maxEntries then h
    else
      match h.back, h.forward with
      | _ :: back, _ => trimLoop rounds { h with back }
      | [], _ :: forward => trimLoop rounds { h with forward }
      | [], [] => h

def trimToLimit : History := trimLoop h.size h

def load : History :=
  match h.file with
  | none => h
  | some saved => trimToLimit { h with
      back := h.back ++ saved.back.filter (· ≠ [])
      forward := h.forward ++ saved.forward.filter (· ≠ [])
      currentPath := if saved.current ≠ [] then some saved.current else h.currentPath }

def save : History :=
  { h with file := some ⟨h.back, h.forward, h.currentPath.getD []⟩ }

/-- The constructor, for a file that holds something or is not there. -/
def new (maxEntries : ℤ) (file : Option Saved) : History :=
  load { maxEntries := (max 1 maxEntries).toNat, file }

def record (entry : Text) : History :=
  if entry = [] ∨ some entry = h.currentPath then h
  else
    save (trimToLimit { h with
      back := h.back ++ h.currentPath.toList
      currentPath := some entry
      forward := [] })

def canGoBack : Bool := h.currentPath.isSome && !h.back.isEmpty

def canGoForward : Bool := h.currentPath.isSome && !h.forward.isEmpty

/-- `go_back`, and what it returns. -/
def goBack : Option Text × History :=
  if !h.canGoBack then (none, h)
  else
    let current := h.back.getLast?
    (current, save { h with
      forward := h.forward ++ h.currentPath.toList
      currentPath := current
      back := h.back.dropLast })

/-- `go_forward`, and what it returns. -/
def goForward : Option Text × History :=
  if !h.canGoForward then (none, h)
  else
    let current := h.forward.getLast?
    (current, save { h with
      back := h.back ++ h.currentPath.toList
      currentPath := current
      forward := h.forward.dropLast })

/-- Another history is made from the file. -/
def reload : History := new h.maxEntries h.file

inductive Event where
  | record (entry : Text)
  | goBack
  | goForward
  | reload

def step (h : History) : Event → History
  | .record entry => h.record entry
  | .goBack => h.goBack.2
  | .goForward => h.goForward.2
  | .reload => h.reload

/-! ### The list -/

/-- The list with a cursor that a history stands for. -/
def tape : Tape Text := .ofStacks h.back h.forward h.currentPath

/-- What is meant. -/
def tapeStep (limit : ℕ) (t : Tape Text) : Event → Tape Text
  | .record entry => if entry = [] ∨ some entry = t.current then t else t.record limit entry
  | .goBack => t.goBack
  | .goForward => t.goForward
  | .reload => t

/-- What holds of a history that was used from the beginning. -/
structure Kept (h : History) : Prop where
  limit : 1 ≤ h.maxEntries
  size : h.size ≤ h.maxEntries
  empty : h.currentPath = none → h.back = [] ∧ h.forward = []
  proper : [] ∉ h.back ∧ [] ∉ h.forward ∧ some [] ≠ h.currentPath
  file : h.file = h.save.file ∨ h.file = none ∧ h.currentPath = none

variable {h : History} {entry a b : Text} {back forward : List Text}

/-- The loop takes the oldest entries away, of which there are enough. -/
theorem trimLoop_eq (rounds : ℕ) (hrounds : h.size - h.maxEntries ≤ rounds)
    (hback : h.size - h.maxEntries ≤ h.back.length) :
    trimLoop rounds h = { h with back := h.back.drop (h.size - h.maxEntries) } := by
  induction rounds generalizing h with
  | zero =>
    rw [Nat.le_zero.mp hrounds]
    rfl
  | succ rounds ih =>
    rw [trimLoop]
    by_cases hle : h.size ≤ h.maxEntries
    · rw [if_pos hle, Nat.sub_eq_zero_of_le hle]
      rfl
    · rw [if_neg hle]
      obtain ⟨c, back, hb⟩ : ∃ c back, h.back = c :: back := by
        refine List.exists_cons_of_ne_nil fun hnil => ?_
        rw [hnil, List.length_nil] at hback
        omega
      have hsize : h.size = ({ h with back } : History).size + 1 := by
        rw [size, size, hb, List.length_cons]
        dsimp only
        omega
      rw [hb, List.length_cons] at hback
      rw [hb]
      dsimp only
      rw [ih (by dsimp only; omega) (by dsimp only; omega), hsize, Nat.succ_sub (by omega),
        List.drop_succ_cons]

theorem trimToLimit_eq_self (hsize : h.size ≤ h.maxEntries) : h.trimToLimit = h := by
  rw [trimToLimit, trimLoop_eq h.size (Nat.sub_le _ _) (by omega), Nat.sub_eq_zero_of_le hsize]
  rfl

theorem canGoBack_iff :
    h.canGoBack = true ↔ ∃ back b a, h.back = back ++ [b] ∧ h.currentPath = some a := by
  rw [canGoBack]
  constructor
  · intro hc
    obtain ⟨hcurrent, hne⟩ : h.currentPath.isSome = true ∧ h.back ≠ [] := by simpa using hc
    obtain ⟨a, ha⟩ := Option.isSome_iff_exists.mp hcurrent
    exact ⟨h.back.dropLast, h.back.getLast hne, a, (List.dropLast_append_getLast hne).symm, ha⟩
  · rintro ⟨back, b, a, hb, ha⟩
    simp [hb, ha]

theorem canGoForward_iff :
    h.canGoForward = true ↔ ∃ forward b a, h.forward = forward ++ [b] ∧ h.currentPath = some a := by
  rw [canGoForward]
  constructor
  · intro hc
    obtain ⟨hcurrent, hne⟩ : h.currentPath.isSome = true ∧ h.forward ≠ [] := by simpa using hc
    obtain ⟨a, ha⟩ := Option.isSome_iff_exists.mp hcurrent
    exact ⟨h.forward.dropLast, h.forward.getLast hne, a,
      (List.dropLast_append_getLast hne).symm, ha⟩
  · rintro ⟨forward, b, a, hb, ha⟩
    simp [hb, ha]

/-! ### The operations -/

theorem record_eq (hnew : ¬(entry = [] ∨ some entry = h.currentPath)) (hk : Kept h) :
    h.record entry = save { h with
      back := (h.back ++ h.currentPath.toList).drop
        ((h.back ++ h.currentPath.toList).length + 1 - h.maxEntries)
      currentPath := some entry
      forward := [] } := by
  have hlimit := hk.limit
  rw [record, if_neg hnew, trimToLimit, trimLoop_eq _ (Nat.sub_le _ _)]
  · rfl
  · show (h.back ++ h.currentPath.toList).length + 0 + 1 - h.maxEntries ≤
      (h.back ++ h.currentPath.toList).length
    omega

theorem goBack_eq (hb : h.back = back ++ [b]) (ha : h.currentPath = some a) :
    h.goBack = (some b, save { h with
      forward := h.forward ++ [a], currentPath := some b, back := back }) := by
  rw [goBack, if_neg (by simp [canGoBack, hb, ha]), hb, ha]
  simp

theorem goForward_eq (hb : h.forward = forward ++ [b]) (ha : h.currentPath = some a) :
    h.goForward = (some b, save { h with
      back := h.back ++ [a], currentPath := some b, forward := forward }) := by
  rw [goForward, if_neg (by simp [canGoForward, hb, ha]), hb, ha]
  simp

theorem goBack_of_not (hc : ¬h.canGoBack = true) : h.goBack = (none, h) :=
  if_pos (by simpa using hc)

theorem goForward_of_not (hc : ¬h.canGoForward = true) : h.goForward = (none, h) :=
  if_pos (by simpa using hc)

theorem filter_ne_nil {stack : List Text} (hs : [] ∉ stack) : stack.filter (· ≠ []) = stack := by
  refine List.filter_eq_self.mpr fun entry hentry => decide_eq_true ?_
  rintro rfl
  exact hs hentry

theorem save_congr {h' : History} (hback : h'.back = h.back) (hforward : h'.forward = h.forward)
    (hcurrent : h'.currentPath = h.currentPath) (hmax : h'.maxEntries = h.maxEntries) :
    h'.save = h.save := by
  rw [save, save, hback, hforward, hcurrent, hmax]

theorem save_eq_self (hfile : h.file = h.save.file) : h.save = h := by
  have heq : h.save = { h with file := h.save.file } := rfl
  rw [heq, ← hfile]

/-- **The file.** A history that is made from the file is the one that has written it. -/
theorem reload_eq (hk : Kept h) : h.reload = h := by
  have hmax : (max 1 (h.maxEntries : ℤ)).toNat = h.maxEntries := by
    have hlimit := hk.limit
    omega
  rw [reload, new, hmax]
  rcases hk.file with hfile | ⟨hfile, hnone⟩
  · rw [hfile, save, load]
    dsimp only
    rw [filter_ne_nil hk.proper.1, filter_ne_nil hk.proper.2.1, List.nil_append, List.nil_append]
    have hcurrent : (if h.currentPath.getD [] ≠ [] then some (h.currentPath.getD []) else none) =
        h.currentPath := by
      cases hc : h.currentPath with
      | none => rfl
      | some a =>
        have ha : a ≠ [] := by
          rintro rfl
          exact hk.proper.2.2 hc.symm
        rw [Option.getD_some, if_pos ha]
    rw [hcurrent]
    exact (trimToLimit_eq_self (h := h.save) hk.size).trans (save_eq_self hfile)
  · obtain ⟨hback, hforward⟩ := hk.empty hnone
    rw [hfile, load]
    dsimp only
    cases h
    cases hback
    cases hforward
    cases hfile
    cases hnone
    rfl

/-! ### Runs -/

theorem Kept.save (hlimit : 1 ≤ h.maxEntries) (hsize : h.size ≤ h.maxEntries)
    (hsome : h.currentPath = some a) (hproper : [] ∉ h.back ∧ [] ∉ h.forward ∧ a ≠ []) :
    Kept h.save := by
  refine ⟨hlimit, hsize, fun hnone => ?_, ⟨hproper.1, hproper.2.1, fun hc => ?_⟩, .inl rfl⟩
  · cases hsome.symm.trans hnone
  · exact hproper.2.2 (Option.some.inj (hsome.symm.trans hc.symm))

theorem kept_new (maxEntries : ℤ) : Kept (new maxEntries none) := by
  have hlimit : 1 ≤ (max 1 maxEntries).toNat := by omega
  exact ⟨hlimit, Nat.zero_le _, fun _ => ⟨rfl, rfl⟩,
    ⟨List.not_mem_nil, List.not_mem_nil, fun hc => by cases hc⟩, .inr ⟨rfl, rfl⟩⟩

theorem kept_record (hk : Kept h) (entry : Text) : Kept (h.record entry) := by
  by_cases hnew : entry = [] ∨ some entry = h.currentPath
  · rw [record, if_pos hnew]
    exact hk
  · rw [record_eq hnew hk]
    have hlimit := hk.limit
    obtain ⟨hback, -, hcurrent⟩ := hk.proper
    refine .save hlimit ?_ rfl ⟨fun hc => ?_, List.not_mem_nil, fun hc => hnew (.inl hc)⟩
    · show (List.drop _ _).length + 0 + 1 ≤ h.maxEntries
      rw [List.length_drop]
      omega
    · rcases List.mem_append.mp (List.mem_of_mem_drop hc) with hc | hc
      · exact hback hc
      · exact hcurrent (Option.mem_toList.mp hc).symm

theorem kept_goBack (hk : Kept h) : Kept h.goBack.2 := by
  by_cases hc : h.canGoBack = true
  · obtain ⟨back, b, a, hb, ha⟩ := canGoBack_iff.mp hc
    obtain ⟨hback, hforward, hcurrent⟩ := hk.proper
    have hsize := hk.size
    rw [size, hb, ha, List.length_append] at hsize
    rw [hb] at hback
    rw [goBack_eq hb ha]
    refine .save hk.limit ?_ rfl ⟨fun hm => hback (List.mem_append_left _ hm), fun hm => ?_, ?_⟩
    · show back.length + (h.forward ++ [a]).length + 1 ≤ h.maxEntries
      rw [List.length_append]
      simpa [Nat.add_assoc, Nat.add_comm, Nat.add_left_comm] using hsize
    · rcases List.mem_append.mp hm with hm | hm
      · exact hforward hm
      · rw [← List.mem_singleton.mp hm] at ha
        exact hcurrent ha.symm
    · rintro rfl
      exact hback (by simp)
  · rw [goBack_of_not hc]
    exact hk

theorem kept_goForward (hk : Kept h) : Kept h.goForward.2 := by
  by_cases hc : h.canGoForward = true
  · obtain ⟨forward, b, a, hb, ha⟩ := canGoForward_iff.mp hc
    obtain ⟨hback, hforward, hcurrent⟩ := hk.proper
    have hsize := hk.size
    rw [size, hb, ha, List.length_append] at hsize
    rw [hb] at hforward
    rw [goForward_eq hb ha]
    refine .save hk.limit ?_ rfl ⟨fun hm => ?_, fun hm => hforward (List.mem_append_left _ hm), ?_⟩
    · show (h.back ++ [a]).length + forward.length + 1 ≤ h.maxEntries
      rw [List.length_append]
      simpa [Nat.add_assoc, Nat.add_comm, Nat.add_left_comm] using hsize
    · rcases List.mem_append.mp hm with hm | hm
      · exact hback hm
      · rw [← List.mem_singleton.mp hm] at ha
        exact hcurrent ha.symm
    · rintro rfl
      exact hforward (by simp)
  · rw [goForward_of_not hc]
    exact hk

theorem kept_step (hk : Kept h) (e : Event) : Kept (step h e) := by
  cases e with
  | record entry => exact kept_record hk entry
  | goBack => exact kept_goBack hk
  | goForward => exact kept_goForward hk
  | reload =>
    rw [step, reload_eq hk]
    exact hk

/-! ### The list -/

theorem Kept.current_tape (hk : Kept h) : h.tape.current = h.currentPath := by
  rw [tape]
  cases hc : h.currentPath with
  | none =>
    obtain ⟨hback, hforward⟩ := hk.empty hc
    rw [hback, hforward]
    rfl
  | some a => exact Tape.current_ofStacks

theorem tape_goBack (hk : Kept h) : h.goBack.2.tape = h.tape.goBack := by
  by_cases hc : h.canGoBack = true
  · obtain ⟨back, b, a, hb, ha⟩ := canGoBack_iff.mp hc
    have htape : h.tape = .ofStacks (back ++ [b]) h.forward (some a) := by rw [tape, hb, ha]
    rw [goBack_eq hb ha, htape, Tape.goBack_ofStacks]
    rfl
  · rw [goBack_of_not hc]
    have hback : h.back = [] := by
      cases hcurrent : h.currentPath with
      | none => exact (hk.empty hcurrent).1
      | some a => simpa [canGoBack, hcurrent] using hc
    rw [tape, hback, Tape.goBack_ofStacks_nil]

theorem tape_goForward (hk : Kept h) : h.goForward.2.tape = h.tape.goForward := by
  by_cases hc : h.canGoForward = true
  · obtain ⟨forward, b, a, hb, ha⟩ := canGoForward_iff.mp hc
    have htape : h.tape = .ofStacks h.back (forward ++ [b]) (some a) := by rw [tape, hb, ha]
    rw [goForward_eq hb ha, htape, Tape.goForward_ofStacks]
    rfl
  · rw [goForward_of_not hc]
    have hforward : h.forward = [] := by
      cases hcurrent : h.currentPath with
      | none => exact (hk.empty hcurrent).2
      | some a => simpa [canGoForward, hcurrent] using hc
    rw [tape, hforward, Tape.goForward_ofStacks_nil]

/-- **One step** is that of the list. -/
theorem tape_step (hk : Kept h) (e : Event) : (step h e).tape = tapeStep h.maxEntries h.tape e := by
  cases e with
  | record entry =>
    rw [step, tapeStep, hk.current_tape]
    by_cases hnew : entry = [] ∨ some entry = h.currentPath
    · rw [if_pos hnew, record, if_pos hnew]
    · have htape : h.tape = .ofStacks h.back h.forward h.currentPath := rfl
      rw [if_neg hnew, record_eq hnew hk, htape,
        Tape.record_ofStacks _ (fun hnone => (hk.empty hnone).2) hk.limit]
      rfl
  | goBack => exact tape_goBack hk
  | goForward => exact tape_goForward hk
  | reload =>
    rw [step, reload_eq hk]
    rfl

theorem maxEntries_step (hk : Kept h) (e : Event) : (step h e).maxEntries = h.maxEntries := by
  cases e with
  | record entry =>
    by_cases hnew : entry = [] ∨ some entry = h.currentPath
    · rw [step, record, if_pos hnew]
    · rw [step, record_eq hnew hk]
      rfl
  | goBack =>
    rw [step, goBack]
    split <;> rfl
  | goForward =>
    rw [step, goForward]
    split <;> rfl
  | reload => rw [step, reload_eq hk]

/-- A history shows a list with a cursor. -/
structure Shows (h : History) (t : Tape Text) : Prop where
  back : h.back = t.before
  current : h.currentPath = t.current
  forward : h.forward = t.after.reverse
  size : h.size = t.entries.length

theorem Kept.shows (hk : Kept h) : Shows h h.tape := by
  refine ⟨(Tape.before_ofStacks _).symm, hk.current_tape.symm, ?_, ?_⟩
  · cases hc : h.currentPath with
    | none =>
      obtain ⟨hback, hforward⟩ := hk.empty hc
      rw [tape, hc, hback, hforward]
      rfl
    | some a => rw [tape, hc, Tape.after_ofStacks, List.reverse_reverse]
  · rw [History.size, tape, Tape.ofStacks, List.length_append, List.length_append,
      List.length_reverse]
    cases h.currentPath with
    | none => rfl
    | some a => exact Nat.add_right_comm _ _ 1

/-- One step forward undoes one step back. -/
theorem goForward_goBack (hk : Kept h) (hc : h.canGoBack = true) : h.goBack.2.goForward.2 = h := by
  obtain ⟨back, b, a, hb, ha⟩ := canGoBack_iff.mp hc
  have hfile : h.file = h.save.file := hk.file.resolve_right fun hnone => by
    rw [ha] at hnone
    cases hnone.2
  rw [goBack_eq hb ha]
  dsimp only
  rw [goForward_eq rfl rfl]
  exact Eq.trans (save_congr (h := h) hb.symm rfl ha.symm rfl) (save_eq_self hfile)

theorem goBack_goForward (hk : Kept h) (hc : h.canGoForward = true) :
    h.goForward.2.goBack.2 = h := by
  obtain ⟨forward, b, a, hb, ha⟩ := canGoForward_iff.mp hc
  have hfile : h.file = h.save.file := hk.file.resolve_right fun hnone => by
    rw [ha] at hnone
    cases hnone.2
  rw [goForward_eq hb ha]
  dsimp only
  rw [goBack_eq rfl rfl]
  exact Eq.trans (save_congr (h := h) rfl hb.symm ha.symm rfl) (save_eq_self hfile)

theorem run_spec (maxEntries : ℤ) (events : List Event) :
    Kept (run step (new maxEntries none) events) ∧
      (run step (new maxEntries none) events).tape =
        run (tapeStep (max 1 maxEntries).toNat) {} events ∧
      (run step (new maxEntries none) events).maxEntries = (max 1 maxEntries).toNat := by
  induction events using List.reverseRecOn with
  | nil => exact ⟨kept_new maxEntries, rfl, rfl⟩
  | append_singleton events e ih =>
    obtain ⟨hk, htape, hmax⟩ := ih
    rw [run_append, run_append, run_cons, run_nil, run_cons, run_nil]
    refine ⟨kept_step hk e, ?_, (maxEntries_step hk e).trans hmax⟩
    rw [tape_step hk, htape, hmax]

/-- **The history of wallpapers.** After any operations a history shows the list that they make, is
no larger than its limit, and is what is found in its file; a step back and a step forward undo each
other. -/
theorem refines (maxEntries : ℤ) (events : List Event) :
    Shows (run step (new maxEntries none) events)
        (run (tapeStep (max 1 maxEntries).toNat) {} events) ∧
      ((run step (new maxEntries none) events).size : ℤ) ≤ max 1 maxEntries ∧
      ((run step (new maxEntries none) events).canGoBack = true →
        (run step (new maxEntries none) events).goBack.2.goForward.2 =
          run step (new maxEntries none) events) ∧
      ((run step (new maxEntries none) events).canGoForward = true →
        (run step (new maxEntries none) events).goForward.2.goBack.2 =
          run step (new maxEntries none) events) ∧
      (run step (new maxEntries none) events).reload = run step (new maxEntries none) events := by
  obtain ⟨hk, htape, hmax⟩ := run_spec maxEntries events
  rw [← htape]
  have hsize := hk.size
  exact ⟨hk.shows, by omega, goForward_goBack hk, goBack_goForward hk, reload_eq hk⟩

end History

end Wallpaper

end SingularityShell
