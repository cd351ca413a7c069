import SingularityShell.Wallpaper.Controller
import SingularityShell.Wallpaper.Schedule

/-!
# The choice of the user

The controller and the user write the same setting, and the controller hears of a choice only later.
The choice of the user wins in the runs in which nothing is written while a choice is not yet in
effect, and in which a change of the one key is not overtaken by a change of the other.

## Main definitions

* `Wallpaper.Controller.Permitted` — a picture may be written in a state
* `Wallpaper.Controller.Regular` — the events that let the choice win
* `Wallpaper.Controller.Base`, `Wallpaper.Controller.Held` — the invariant

## Main results

* `Wallpaper.Controller.kept_step` — the step lemma
* `Wallpaper.Controller.wins_of_regular` — the choice of the user wins
-/

namespace SingularityShell

namespace Wallpaper

open Ascii Binary64

namespace Controller

variable (lib : Library)

/-! ### Regular events -/

/-- A write does no harm: the last choice is no picture of the user, a wallpaper to which the
controller has reacted is the one that is loaded, and one that was set as a picture is already set
as the wallpaper. -/
def Permitted (s : State) : Prop :=
  ∀ c, s.choice = some c →
    ¬c.IsPicture lib ∧
      (c.Selects lib →
        (s.heard = true → s.current.isSome = true ∧ s.loadedUri = c.value) ∧
          (s.heard = false → c.key = .picture → s.dynamic = c.value))

/-- `refresh` writes at once only where a write does no harm. -/
def RefreshOk (env : Env) (s : State) : Prop :=
  ∀ wp, s.current = some wp → (immediate lib env wp).isSome = true → Permitted lib s

/-- A wallpaper is loaded: what is written at once does no harm, a render that is waited for is
still to come, and a picture that the user has chosen does not become an output of the controller.
-/
def LoadOk (env : Env) (s : State) : Prop :=
  ∀ wp, loadUri lib s.dynamic = some wp →
    ∀ t, t = { s with current := some wp, loadedUri := s.dynamic } →
      RefreshOk lib env t ∧
        (immediate lib env wp = none → target lib (shown env wp) = s.pendingTarget →
          ∃ r ∈ s.renders, r.serial = s.renderSerial ∧ r.state = shown env wp) ∧
        ∀ c, s.choice = some c → c.IsPicture lib → s.heard = false →
          isOurOutput lib t c.value = false

/-- No event writes a picture, or loads a wallpaper, to the harm of the last choice. A dynamic
wallpaper is not chosen as the picture that was written last, nor as the wallpaper while another
picture of the user has not been heard of. -/
def Regular (s : State) : Event → Prop
  | .pick .picture value => isDynamicUri lib value = true → value ≠ s.lastWritten
  | .pick .dynamic value =>
    .picture ∈ s.idle →
      s.picture = s.lastWritten ∨ (s.picture = value ∧ isDynamicUri lib value = true)
  | .react env =>
    match s.idle with
    | [] => True
    | .picture :: rest =>
      s.picture ≠ s.lastWritten → isDynamicUri lib s.picture = true → s.dynamic = s.picture →
        LoadOk lib env (hear .picture rest s)
    | .dynamic :: rest => LoadOk lib env (hear .dynamic rest s)
  | .refresh env => RefreshOk lib env s
  | .rendered serial _ => serial = s.renderSerial → (∃ r ∈ s.renders, r.serial = serial) →
    Permitted lib s

/-! ### The invariant -/

/-- A render of images of a wallpaper. -/
def Render.Of (wp : Wallpaper) (r : Render) : Prop :=
  IsImage wp r.state.fromImage ∧ IsImage wp r.state.toImage

/-- What holds of the fields of the controller also while it loads a wallpaper. -/
structure Outline (s : State) : Prop where
  loaded : ∀ wp, s.current = some wp → loadUri lib s.loadedUri = some wp
  unloaded : s.current = none → s.loadedUri = []
  serials : ∀ r ∈ s.renders, r.serial ≤ s.renderSerial
  distinct : ∀ r ∈ s.renders, ∀ r' ∈ s.renders, r.serial = r'.serial → r = r'
  queued : ∀ c, s.choice = some c → s.heard = false → c.key ∈ s.idle

/-- The render that will be written is of the wallpaper that is loaded. -/
structure Core (s : State) : Prop extends Outline lib s where
  live : ∀ r ∈ s.renders, r.serial = s.renderSerial → ∀ wp, s.current = some wp → r.Of wp

/-- The wallpaper that is set is loaded, unless a reaction to its change is outstanding. -/
structure Base (s : State) : Prop extends Core lib s where
  cleared : s.dynamic = [] → .dynamic ∈ s.idle ∨
    (s.loadedUri = [] ∧ ∀ r ∈ s.renders, r.serial ≠ s.renderSerial)
  synced : ∀ wp, loadUri lib s.dynamic = some wp → .dynamic ∈ s.idle ∨ s.loadedUri = s.dynamic

/-- A picture of the user is there, and no wallpaper is set or will be after the reaction. -/
structure HeldPicture (c : Choice) (s : State) : Prop where
  picture : s.picture = c.value
  unwritten : c.value ≠ s.lastWritten
  dynamic : s.dynamic = [] ∨ (s.heard = false ∧ isOurOutput lib s c.value = false)

/-- A wallpaper that was set as a picture, which the controller has not heard of. -/
structure Unheard (c : Choice) (s : State) : Prop where
  heard : s.heard = false
  key : c.key = .picture
  picture : s.picture = c.value
  unwritten : c.value ≠ s.lastWritten
  dynamic : s.dynamic ≠ c.value

/-- A wallpaper that is set, when no other picture is to be heard of. -/
structure Chosen (c : Choice) (s : State) : Prop where
  dynamic : s.dynamic = c.value
  picture : .picture ∈ s.idle →
    s.picture = s.lastWritten ∨ (s.picture = c.value ∧ isDynamicUri lib c.value = true)

/-- A picture of the wallpaper is there or will be written. -/
def Provided (c : Choice) (s : State) : Prop :=
  ∀ wp, loadUri lib c.value = some wp →
    .dynamic ∈ s.idle ∨ Shows lib wp s.picture ∨ (∃ r ∈ s.renders, r.serial = s.renderSerial) ∨
      (.picture ∈ s.idle ∧ s.picture = c.value ∧ c.value ≠ s.lastWritten ∧
        isDynamicUri lib c.value = true)

/-- The last choice is in effect, or will be. -/
def Held (s : State) : Prop :=
  ∀ c, s.choice = some c →
    (c.IsPicture lib → HeldPicture lib c s) ∧
      (c.Selects lib → Unheard c s ∨ (Chosen lib c s ∧ Provided lib c s))

def Logged (s : State) : Prop := ∀ m ∈ s.written, m.Ok lib

variable {lib} {s t : State} {env : Env} {wp : Wallpaper} {uri : Text}

/-! ### What is shown -/

theorem mem_images_of_frame {img : Text} (h : img ∈ wp.frames.map Frame.image) : img ∈ wp.images :=
  by
  rw [images, List.mem_eraseDups]
  split <;> split <;> simp [List.mem_map.mp h]

theorem mem_images_of_segment {s : Segment} (h : s ∈ wp.cycle) :
    s.fromImage ∈ wp.images ∧ s.toImage ∈ wp.images := by
  have hfrom : s.fromImage ∈ wp.cycle.flatMap fun s => [s.fromImage, s.toImage] :=
    List.mem_flatMap.mpr ⟨s, h, by simp⟩
  have hto : s.toImage ∈ wp.cycle.flatMap fun s => [s.fromImage, s.toImage] :=
    List.mem_flatMap.mpr ⟨s, h, by simp⟩
  rw [images, List.mem_eraseDups, List.mem_eraseDups]
  split <;> split <;> simp only [List.mem_append, hfrom, hto, or_true, true_or, and_self]

theorem light_mem_images (h : wp.light ≠ []) : wp.light ∈ wp.images := by
  rw [images, List.mem_eraseDups]
  rw [if_pos h]
  split <;> simp

theorem dark_mem_images (h : wp.dark ≠ []) : wp.dark ∈ wp.images := by
  rw [images, List.mem_eraseDups]
  rw [if_pos h]
  simp

/-- What is shown at a moment is nothing, or two images of the wallpaper. -/
theorem evaluate_images (wp : Wallpaper) (place : Place) (darkMode : Bool)
    (sinceMidnight sinceAnchor : ℤ) :
    let st := wp.evaluate place darkMode sinceMidnight sinceAnchor
    (st.fromImage = [] ∧ st.toImage = []) ∨ (st.fromImage ∈ wp.images ∧ st.toImage ∈ wp.images) :=
      by
  have hcycle : ∀ segs : List Segment, (∀ s ∈ segs, s.fromImage ∈ wp.images ∧
    s.toImage ∈ wp.images) →
      ∀ offset, let st := evaluateCycle segs offset
        (st.fromImage = [] ∧ st.toImage = []) ∨
          (st.fromImage ∈ wp.images ∧ st.toImage ∈ wp.images) := by
    intro segs hsegs offset
    by_cases hnil : segs = []
    · subst hnil
      exact .inl ⟨rfl, rfl⟩
    · exact .inr (evaluateCycle_images hnil hsegs offset)
  have hday : ∀ s ∈ wp.daySchedule place, s.fromImage ∈ wp.images ∧ s.toImage ∈ wp.images :=
    fun s hs => ⟨mem_images_of_frame (images_daySchedule hs).1,
      mem_images_of_frame (images_daySchedule hs).2⟩
  rw [evaluate]
  cases wp.kind with
  | time => exact hcycle _ hday _
  | solar => exact hcycle _ hday _
  | cycle => exact hcycle _ (fun s hs => mem_images_of_segment hs) _
  | appearance =>
    have hlight : wp.light = [] ∨ wp.light ∈ wp.images := by
      by_cases h : wp.light = []
      · exact .inl h
      · exact .inr (light_mem_images h)
    have hdark : wp.dark = [] ∨ wp.dark ∈ wp.images := by
      by_cases h : wp.dark = []
      · exact .inl h
      · exact .inr (dark_mem_images h)
    have himg : ∀ img, img = (if darkMode then (if wp.dark ≠ [] then wp.dark else wp.light)
        else if wp.light ≠ [] then wp.light else wp.dark) → img = [] ∨ img ∈ wp.images := by
      rintro img rfl
      split
      · split
        · exact hdark
        · exact hlight
      · split
        · exact hlight
        · exact hdark
    exact (himg _ rfl).imp (fun h => ⟨h, h⟩) fun h => ⟨h, h⟩

theorem quantized_images (steps : ℤ) (st : Wallpaper.State) :
    ((st.quantized steps).fromImage = st.fromImage ∨ (st.quantized steps).fromImage = st.toImage) ∧
      ((st.quantized steps).toImage = st.fromImage ∨ (st.quantized steps).toImage = st.toImage) :=
        by
  rw [State.quantized]
  dsimp only
  split
  · exact ⟨.inl rfl, .inl rfl⟩
  split
  · exact ⟨.inl rfl, .inl rfl⟩
  split
  · exact ⟨.inr rfl, .inr rfl⟩
  · exact ⟨.inl rfl, .inr rfl⟩

theorem shown_images (env : Env) (wp : Wallpaper) :
    IsImage wp (shown env wp).fromImage ∧ IsImage wp (shown env wp).toImage := by
  rw [shown]
  dsimp only
  split
  · exact ⟨.inr ⟨env.darkMode, rfl⟩, .inr ⟨env.darkMode, rfl⟩⟩
  · next hne =>
    obtain ⟨hfrom, hto⟩ := quantized_images 12
      (wp.evaluate env.place env.darkMode env.sinceMidnight env.sinceAnchor)
    rcases evaluate_images wp env.place env.darkMode env.sinceMidnight env.sinceAnchor with
      ⟨hfrom', hto'⟩ | ⟨hfrom', hto'⟩
    · rw [hfrom', hto', or_self] at hfrom
      exact absurd hfrom hne
    · refine ⟨.inl ?_, .inl ?_⟩
      · rcases hfrom with h | h <;> rw [h]
        · exact hfrom'
        · exact hto'
      · rcases hto with h | h <;> rw [h]
        · exact hfrom'
        · exact hto'

/-- What is written for a render, rendered or not, is of its wallpaper. -/
theorem Render.Of.shows {r : Render} (h : r.Of wp) :
    Shows lib wp (lib.uriOf (target lib r.state)) ∧ Shows lib wp (lib.uriOf r.state.singleImage) :=
      by
  refine ⟨.blend h.1 h.2, .image ?_⟩
  rw [State.singleImage]
  split
  · exact h.2
  · exact h.1

theorem shows_of_immediate (h : immediate lib env wp = some uri) : Shows lib wp uri := by
  have hof : Render.Of wp ⟨0, shown env wp⟩ := shown_images env wp
  rw [immediate] at h
  by_cases hblend : (!(shown env wp).isBlend) = true
  · rw [if_pos hblend] at h
    exact Option.some.inj h ▸ hof.shows.2
  · rw [if_neg hblend] at h
    split at h
    · exact Option.some.inj h ▸ hof.shows.1
    · exact nomatch h

/-! ### Steps of the controller -/

/-- The fields of the controller, the key of the wallpaper and the choice stay, and nothing
outstanding is dropped. -/
structure Same (s t : State) : Prop where
  current : t.current = s.current
  dynamic : t.dynamic = s.dynamic
  loadedUri : t.loadedUri = s.loadedUri
  renderSerial : t.renderSerial = s.renderSerial
  renders : t.renders = s.renders
  choice : t.choice = s.choice
  heard : t.heard = s.heard
  idle : ∀ k ∈ s.idle, k ∈ t.idle

theorem Core.same (h : Core lib s) (hst : Same s t) : Core lib t where
  loaded := by
    rw [hst.current, hst.loadedUri]
    exact h.loaded
  unloaded := by
    rw [hst.current, hst.loadedUri]
    exact h.unloaded
  serials := by
    rw [hst.renders, hst.renderSerial]
    exact h.serials
  distinct := by
    rw [hst.renders]
    exact h.distinct
  live := by
    rw [hst.renders, hst.renderSerial, hst.current]
    exact h.live
  queued c hc hheard := hst.idle _ (h.queued c (hst.choice ▸ hc) (hst.heard ▸ hheard))

theorem Base.same (h : Base lib s) (hst : Same s t) : Base lib t where
  toCore := h.toCore.same hst
  cleared := by
    rw [hst.dynamic, hst.loadedUri, hst.renders, hst.renderSerial]
    exact fun hd => (h.cleared hd).imp_left (hst.idle _)
  synced := by
    rw [hst.dynamic, hst.loadedUri]
    exact fun wp hwp => (h.synced wp hwp).imp_left (hst.idle _)

theorem same_writeUri (uri : Text) (s : State) : Same s (writeUri uri s) := by
  rw [writeUri]
  split
  · exact ⟨rfl, rfl, rfl, rfl, rfl, rfl, rfl, fun _ => id⟩
  · exact ⟨rfl, rfl, rfl, rfl, rfl, rfl, rfl, fun _ => List.mem_append_left _⟩

theorem writeUri_picture (uri : Text) (s : State) :
    (writeUri uri s).picture = uri ∧ (writeUri uri s).lastWritten = uri := by
  rw [writeUri]
  split
  · exact ⟨‹_›, rfl⟩
  · exact ⟨rfl, rfl⟩

theorem mem_written {m : Write} (h : m ∈ (writeUri uri s).written) :
    m ∈ s.written ∨ m = ⟨s.choice, s.heard, uri⟩ := by
  rw [writeUri] at h
  split at h
  · exact .inl h
  · exact (List.mem_append.mp h).imp_right List.mem_singleton.mp

/-- What `refresh` does. -/
theorem refresh_cases (lib : Library) (env : Env) (s : State) :
    (refresh lib env s = s ∧ ∀ wp, s.current = some wp →
      immediate lib env wp = none ∧ target lib (shown env wp) = s.pendingTarget) ∨
    (∃ wp uri, s.current = some wp ∧ immediate lib env wp = some uri ∧ refresh lib env s =
      writeUri uri { s with renderSerial := s.renderSerial + 1, pendingTarget := [] }) ∨
    ∃ wp, s.current = some wp ∧ immediate lib env wp = none ∧ refresh lib env s = { s with
      pendingTarget := target lib (shown env wp)
      renderSerial := s.renderSerial + 1
      renders := s.renders ++ [⟨s.renderSerial + 1, shown env wp⟩] } := by
  rw [refresh]
  cases hcurrent : s.current with
  | none => exact .inl ⟨rfl, nofun⟩
  | some wp =>
    dsimp only
    cases himmediate : immediate lib env wp with
    | some uri => exact .inr (.inl ⟨wp, uri, rfl, himmediate, rfl⟩)
    | none =>
      dsimp only
      by_cases htarget : target lib (shown env wp) = s.pendingTarget
      · rw [if_pos htarget]
        exact .inl ⟨rfl, fun wp' hwp' => Option.some.inj hwp' ▸ ⟨himmediate, htarget⟩⟩
      · rw [if_neg htarget]
        exact .inr (.inr ⟨wp, rfl, himmediate, rfl⟩)

theorem Outline.bump (h : Outline lib s) :
    Core lib { s with renderSerial := s.renderSerial + 1, pendingTarget := [] } where
  loaded := h.loaded
  unloaded := h.unloaded
  serials r hr := Nat.le_succ_of_le (h.serials r hr)
  distinct := h.distinct
  live r hr hserial := absurd hserial (Nat.ne_of_lt (Nat.lt_succ_of_le (h.serials r hr)))
  queued := h.queued

theorem Outline.render (h : Outline lib s) (env : Env) (hcurrent : s.current = some wp) :
    Core lib { s with
    pendingTarget := target lib (shown env wp)
    renderSerial := s.renderSerial + 1
    renders := s.renders ++ [⟨s.renderSerial + 1, shown env wp⟩] } where
  loaded := h.loaded
  unloaded := h.unloaded
  serials r hr := by
    rcases List.mem_append.mp hr with hr | hr
    · exact Nat.le_succ_of_le (h.serials r hr)
    · rw [List.mem_singleton.mp hr]
  distinct := by
    intro r hr r' hr' hserial
    rcases List.mem_append.mp hr with hr | hr <;> rcases List.mem_append.mp hr' with hr' | hr'
    · exact h.distinct r hr r' hr' hserial
    · rw [List.mem_singleton.mp hr'] at hserial
      exact absurd hserial (Nat.ne_of_lt (Nat.lt_succ_of_le (h.serials r hr)))
    · rw [List.mem_singleton.mp hr] at hserial
      exact absurd hserial.symm (Nat.ne_of_lt (Nat.lt_succ_of_le (h.serials r' hr')))
    · rw [List.mem_singleton.mp hr, List.mem_singleton.mp hr']
  live r hr hserial wp' hwp' := by
    rcases List.mem_append.mp hr with hr | hr
    · exact absurd hserial (Nat.ne_of_lt (Nat.lt_succ_of_le (h.serials r hr)))
    · obtain rfl := Option.some.inj (hcurrent.symm.trans hwp')
      rw [List.mem_singleton.mp hr]
      exact shown_images env wp
  queued := h.queued

theorem core_refresh (env : Env) (h : Core lib s) : Core lib (refresh lib env s) := by
  rcases refresh_cases lib env s with ⟨heq, -⟩ | ⟨wp, uri, -, -, heq⟩ | ⟨wp, hcurrent, -, heq⟩
  · rw [heq]
    exact h
  · rw [heq]
    exact h.bump.same (same_writeUri uri _)
  · rw [heq]
    exact h.render env hcurrent

/-- The keys and the choice after `refresh`. -/
theorem refresh_frame (lib : Library) (env : Env) (s : State) :
    (refresh lib env s).dynamic = s.dynamic ∧ (refresh lib env s).loadedUri = s.loadedUri ∧
      (refresh lib env s).choice = s.choice ∧ (refresh lib env s).heard = s.heard ∧
      (refresh lib env s).current = s.current ∧ ∀ k ∈ s.idle, k ∈ (refresh lib env s).idle := by
  rcases refresh_cases lib env s with ⟨heq, -⟩ | ⟨wp, uri, -, -, heq⟩ | ⟨wp, hcurrent, -, heq⟩
  · rw [heq]
    exact ⟨rfl, rfl, rfl, rfl, rfl, fun _ => id⟩
  · rw [heq]
    have hsame := same_writeUri uri { s with renderSerial := s.renderSerial + 1, pendingTarget :=
      [] }
    exact ⟨hsame.dynamic, hsame.loadedUri, hsame.choice, hsame.heard, hsame.current, hsame.idle⟩
  · rw [heq]
    exact ⟨rfl, rfl, rfl, rfl, rfl, fun _ => id⟩

/-- Where a wallpaper is loaded, its name is not empty. -/
theorem loadUri_nil (lib : Library) : loadUri lib [] = none := if_pos rfl

theorem base_refresh (env : Env) (h : Base lib s) : Base lib (refresh lib env s) where
  toCore := core_refresh env h.toCore
  cleared hd := by
    obtain ⟨hdynamic, hloaded, -, -, -, hidle⟩ := refresh_frame lib env s
    rw [hdynamic] at hd
    rcases h.cleared hd with hqueued | ⟨hempty, hnone⟩
    · exact .inl (hidle _ hqueued)
    · cases hcurrent : s.current with
      | none =>
        have heq : refresh lib env s = s := by rw [refresh, hcurrent]
        rw [heq]
        exact .inr ⟨hempty, hnone⟩
      | some wp =>
        have hwp := h.loaded wp hcurrent
        rw [hempty, loadUri_nil] at hwp
        exact nomatch hwp
  synced wp hwp := by
    obtain ⟨hdynamic, hloaded, -, -, -, hidle⟩ := refresh_frame lib env s
    rw [hdynamic] at hwp ⊢
    rw [hloaded]
    exact (h.synced wp hwp).imp_left (hidle _)

/-- What `load_active` does. -/
theorem loadActive_cases (env : Env) (h : Outline lib s) :
    (s.dynamic = [] ∧ loadActive lib env s =
      { s with current := none, loadedUri := [], renderSerial := s.renderSerial + 1 }) ∨
    (s.dynamic ≠ [] ∧ loadUri lib s.dynamic = none ∧
      loadActive lib env s = { s with current := none, loadedUri := [] }) ∨
    ∃ wp, loadUri lib s.dynamic = some wp ∧
      loadActive lib env s = refresh lib env { s with current := some wp, loadedUri :=
        s.dynamic } := by
  rw [loadActive]
  by_cases hempty : s.dynamic = []
  · rw [if_pos hempty]
    exact .inl ⟨hempty, rfl⟩
  rw [if_neg hempty]
  refine .inr ?_
  by_cases hload : s.dynamic ≠ s.loadedUri ∨ s.current.isNone = true
  · rw [if_pos hload]
    cases hwp : loadUri lib s.dynamic with
    | none => exact .inl ⟨hempty, rfl, rfl⟩
    | some wp => exact .inr ⟨wp, rfl, rfl⟩
  · rw [if_neg hload]
    obtain ⟨hsame, hcurrent⟩ := not_or.mp hload
    rw [Option.isNone_iff_eq_none] at hcurrent
    obtain ⟨wp, hwp⟩ := Option.ne_none_iff_exists'.mp hcurrent
    have hdynamic : s.dynamic = s.loadedUri := not_not.mp hsame
    have heta : ∀ current loadedUri, current = s.current → loadedUri = s.loadedUri →
        { s with current, loadedUri } = s := by
      rintro _ _ rfl rfl
      rfl
    refine .inr ⟨wp, hdynamic ▸ h.loaded wp hwp, ?_⟩
    rw [heta _ _ hwp.symm hdynamic]

/-- A wallpaper is loaded. -/
theorem Outline.load (h : Outline lib s) (hwp : loadUri lib s.dynamic = some wp) :
    Outline lib { s with current := some wp, loadedUri := s.dynamic } where
  loaded _ hwp' := Option.some.inj hwp' ▸ hwp
  unloaded := nofun
  serials := h.serials
  distinct := h.distinct
  queued := h.queued

/-- The renders that are waited for are of the wallpaper that is loaded. -/
theorem live_of_fresh (h : Outline lib s) (env : Env)
    (hfresh : ∃ r ∈ s.renders, r.serial = s.renderSerial ∧ r.state = shown env wp) {r : Render}
    (hr : r ∈ s.renders) (hserial : r.serial = s.renderSerial) : r.Of wp := by
  obtain ⟨r', hr', hserial', hstate⟩ := hfresh
  rw [h.distinct r hr r' hr' (hserial.trans hserial'.symm), Render.Of, hstate]
  exact shown_images env wp

theorem core_load (env : Env) (h : Outline lib s) (hwp : loadUri lib s.dynamic = some wp)
    (hok : LoadOk lib env s) :
    Core lib (refresh lib env { s with current := some wp, loadedUri := s.dynamic }) := by
  have hload := h.load hwp
  rcases refresh_cases lib env { s with current := some wp, loadedUri := s.dynamic } with
    ⟨heq, hwait⟩ | ⟨wp', uri, hcurrent, -, heq⟩ | ⟨wp', hcurrent, -, heq⟩
  · rw [heq]
    obtain ⟨himmediate, htarget⟩ := hwait wp rfl
    obtain ⟨-, hfresh, -⟩ := hok wp hwp _ rfl
    refine ⟨hload, fun r hr hserial wp' hwp' => Option.some.inj hwp' ▸ ?_⟩
    exact live_of_fresh h env (hfresh himmediate htarget) hr hserial
  · rw [heq]
    exact hload.bump.same (same_writeUri uri _)
  · rw [heq]
    exact hload.render env hcurrent

theorem base_loadActive (env : Env) (h : Outline lib s) (hok : LoadOk lib env s) :
    Base lib (loadActive lib env s) := by
  rcases loadActive_cases env h with ⟨hempty, heq⟩ | ⟨hne, hnone, heq⟩ | ⟨wp, hwp, heq⟩
  · rw [heq]
    have hcore : Core lib { s with
        current := none
        loadedUri := []
        renderSerial := s.renderSerial + 1 } := by
      refine ⟨⟨nofun, fun _ => rfl, h.bump.serials, h.distinct, h.queued⟩, fun _ _ _ _ hwp => ?_⟩
      exact nomatch hwp
    refine ⟨hcore, fun _ => .inr ⟨rfl, fun r hr => ?_⟩, fun wp hwp => ?_⟩
    · exact Nat.ne_of_lt (Nat.lt_succ_of_le (h.serials r hr))
    · have hnil : loadUri lib s.dynamic = none := by rw [hempty, loadUri_nil]
      exact nomatch hnil.symm.trans hwp
  · rw [heq]
    refine ⟨⟨⟨nofun, fun _ => rfl, h.serials, h.distinct, h.queued⟩,
      fun _ _ _ _ hwp => nomatch hwp⟩,
      fun hempty => absurd hempty hne, fun wp hwp => nomatch hnone.symm.trans hwp⟩
  · rw [heq]
    obtain ⟨hdynamic, hloaded, -⟩ :=
      refresh_frame lib env { s with current := some wp, loadedUri := s.dynamic }
    refine ⟨core_load env h hwp hok, fun hempty => ?_,
      fun wp' _ => .inr (hloaded.trans hdynamic.symm)⟩
    rw [hdynamic] at hempty
    have hempty' : s.dynamic = [] := hempty
    rw [hempty', loadUri_nil] at hwp
    exact nomatch hwp

/-! ### What is written -/

/-- The last choice is in effect or will be, but for the picture of a wallpaper. -/
def HeldBut (lib : Library) (s : State) : Prop :=
  ∀ c, s.choice = some c →
    (c.IsPicture lib → HeldPicture lib c s) ∧ (c.Selects lib → Unheard c s ∨ Chosen lib c s)

theorem Held.but (h : Held lib s) : HeldBut lib s :=
  fun c hc => ⟨(h c hc).1, fun hsel => ((h c hc).2 hsel).imp_right And.left⟩

theorem held_writeUri (h : Outline lib s)
    (hsynced : ∀ wp, loadUri lib s.dynamic = some wp → .dynamic ∈ s.idle ∨ s.loadedUri = s.dynamic)
    (hheld : HeldBut lib s) (hpermitted : Permitted lib s)
    (hshows : ∀ wp, s.current = some wp → Shows lib wp uri) : Held lib (writeUri uri s) := by
  have hsame := same_writeUri uri s
  obtain ⟨hpicture, hwritten⟩ := writeUri_picture uri s
  intro c hc
  rw [hsame.choice] at hc
  obtain ⟨hno, hselects⟩ := hpermitted c hc
  refine ⟨fun hyes => absurd hyes hno, fun hsel => ?_⟩
  rcases (hheld c hc).2 hsel with hunheard | hset
  · exact absurd ((hselects hsel).2 hunheard.heard hunheard.key) hunheard.dynamic
  refine .inr ⟨⟨hsame.dynamic.trans hset.dynamic, fun _ => .inl (hpicture.trans hwritten.symm)⟩, ?_⟩
  intro wp hwp
  rcases hsynced wp (hset.dynamic ▸ hwp) with hqueued | hloaded
  · exact .inl (hsame.idle _ hqueued)
  · refine .inr (.inl ?_)
    rw [hpicture]
    rw [hset.dynamic] at hloaded
    cases hcurrent : s.current with
    | none =>
      rw [← hloaded, h.unloaded hcurrent, loadUri_nil] at hwp
      exact nomatch hwp
    | some wp' =>
      have hwp' := h.loaded wp' hcurrent
      rw [hloaded, hwp] at hwp'
      exact Option.some.inj hwp' ▸ hshows wp' hcurrent

theorem logged_writeUri (h : Outline lib s) (hlog : Logged lib s) (hpermitted : Permitted lib s)
    (hshows : ∀ wp, s.current = some wp → Shows lib wp uri) : Logged lib (writeUri uri s) := by
  intro m hm
  rcases mem_written hm with hm | rfl
  · exact hlog m hm
  intro hheard c hc
  obtain ⟨hno, hselects⟩ := hpermitted c hc
  refine ⟨hno, fun hsel => ?_⟩
  obtain ⟨hsome, hloaded⟩ := (hselects hsel).1 hheard
  obtain ⟨wp, hwp⟩ := Option.isSome_iff_exists.mp hsome
  exact ⟨wp, hloaded ▸ h.loaded wp hwp, hshows wp hwp⟩

/-- `refresh` keeps the choice, where the picture of a wallpaper is provided when a render is waited
for. -/
theorem held_refresh (h : Outline lib s)
    (hsynced : ∀ wp, loadUri lib s.dynamic = some wp → .dynamic ∈ s.idle ∨ s.loadedUri = s.dynamic)
    (hheld : HeldBut lib s) (hlog : Logged lib s) (hok : RefreshOk lib env s)
    (hprovided : (∀ wp, s.current = some wp →
        immediate lib env wp = none ∧ target lib (shown env wp) = s.pendingTarget) →
      ∀ c, s.choice = some c → c.Selects lib → Chosen lib c s → Provided lib c s) :
    Held lib (refresh lib env s) ∧ Logged lib (refresh lib env s) := by
  rcases refresh_cases lib env s with ⟨heq, hwait⟩ | ⟨wp, uri, hcurrent, himmediate, heq⟩ |
    ⟨wp, hcurrent, -, heq⟩
  · rw [heq]
    refine ⟨fun c hc => ⟨(hheld c hc).1, fun hsel => ?_⟩, hlog⟩
    exact ((hheld c hc).2 hsel).imp_right fun hset => ⟨hset, hprovided hwait c hc hsel hset⟩
  · rw [heq]
    have hpermitted : Permitted lib s := hok wp hcurrent (by rw [himmediate]; rfl)
    have hshows : ∀ wp', s.current = some wp' → Shows lib wp' uri := fun wp' hwp' =>
      Option.some.inj (hcurrent.symm.trans hwp') ▸ shows_of_immediate himmediate
    have hbumped : HeldBut lib { s with renderSerial := s.renderSerial + 1, pendingTarget :=
      [] } := by
      refine fun c hc => ⟨fun hyes => ?_, fun hsel => ((hheld c hc).2 hsel).imp ?_ ?_⟩
      · obtain ⟨h₁, h₂, h₃⟩ := (hheld c hc).1 hyes
        exact ⟨h₁, h₂, h₃⟩
      · rintro ⟨h₁, h₂, h₃, h₄, h₅⟩
        exact ⟨h₁, h₂, h₃, h₄, h₅⟩
      · rintro ⟨h₁, h₂⟩
        exact ⟨h₁, h₂⟩
    exact ⟨held_writeUri h.bump.toOutline hsynced hbumped hpermitted hshows,
      logged_writeUri h.bump.toOutline hlog hpermitted hshows⟩
  · rw [heq]
    refine ⟨fun c hc => ⟨fun hyes => ?_, fun hsel => ((hheld c hc).2 hsel).imp ?_ ?_⟩, hlog⟩
    · obtain ⟨h₁, h₂, h₃⟩ := (hheld c hc).1 hyes
      exact ⟨h₁, h₂, h₃⟩
    · rintro ⟨h₁, h₂, h₃, h₄, h₅⟩
      exact ⟨h₁, h₂, h₃, h₄, h₅⟩
    · rintro ⟨h₁, h₂⟩
      refine ⟨⟨h₁, h₂⟩, fun _ _ => .inr (.inr (.inl ?_))⟩
      exact ⟨_, List.mem_append_right _ (List.mem_singleton_self _), rfl⟩

/-- Without a wallpaper, fewer pictures are outputs of the controller. -/
theorem isOurOutput_unloaded {v : Text} (h : isOurOutput lib s v = false) :
    isOurOutput lib { s with current := none, loadedUri := [] } v = false := by
  rw [isOurOutput, Bool.or_eq_false_iff] at h ⊢
  refine ⟨h.1, ?_⟩
  obtain ⟨-, hpath⟩ := h
  cases hp : lib.pathOf v with
  | none => rfl
  | some path =>
    rw [hp] at hpath
    dsimp only at hpath ⊢
    rw [Bool.or_eq_false_iff] at hpath ⊢
    exact ⟨hpath.1, rfl⟩

theorem held_loadActive (h : Outline lib s) (hheld : HeldBut lib s) (hlog : Logged lib s)
    (hok : LoadOk lib env s) :
    Held lib (loadActive lib env s) ∧ Logged lib (loadActive lib env s) := by
  rcases loadActive_cases env h with ⟨hempty, heq⟩ | ⟨hne, hnone, heq⟩ | ⟨wp, hwp, heq⟩
  · rw [heq]
    refine ⟨fun c hc => ⟨fun hyes => ?_, fun hsel => ((hheld c hc).2 hsel).imp ?_ ?_⟩, hlog⟩
    · obtain ⟨h₁, h₂, -⟩ := (hheld c hc).1 hyes
      exact ⟨h₁, h₂, .inl hempty⟩
    · rintro ⟨h₁, h₂, h₃, h₄, h₅⟩
      exact ⟨h₁, h₂, h₃, h₄, h₅⟩
    · rintro ⟨h₁, h₂⟩
      refine ⟨⟨h₁, h₂⟩, fun wp hwp => ?_⟩
      rw [← h₁, hempty, loadUri_nil] at hwp
      exact nomatch hwp
  · rw [heq]
    refine ⟨fun c hc => ⟨fun hyes => ?_, fun hsel => ((hheld c hc).2 hsel).imp ?_ ?_⟩, hlog⟩
    · obtain ⟨h₁, h₂, h₃⟩ := (hheld c hc).1 hyes
      exact ⟨h₁, h₂, h₃.imp_right fun hown => ⟨hown.1, isOurOutput_unloaded hown.2⟩⟩
    · rintro ⟨h₁, h₂, h₃, h₄, h₅⟩
      exact ⟨h₁, h₂, h₃, h₄, h₅⟩
    · rintro ⟨h₁, h₂⟩
      refine ⟨⟨h₁, h₂⟩, fun wp hwp => ?_⟩
      rw [← h₁, hnone] at hwp
      exact nomatch hwp
  · rw [heq]
    obtain ⟨hrefresh, hfresh, hown⟩ := hok wp hwp _ rfl
    refine held_refresh (h.load hwp) (fun _ _ => .inr rfl) ?_ hlog hrefresh ?_
    · refine fun c hc => ⟨fun hyes => ?_, fun hsel => ((hheld c hc).2 hsel).imp ?_ ?_⟩
      · obtain ⟨h₁, h₂, h₃⟩ := (hheld c hc).1 hyes
        refine ⟨h₁, h₂, .inr ?_⟩
        rcases h₃ with hempty | ⟨hheard, -⟩
        · rw [hempty, loadUri_nil] at hwp
          exact nomatch hwp
        · exact ⟨hheard, hown c hc hyes hheard⟩
      · rintro ⟨h₁, h₂, h₃, h₄, h₅⟩
        exact ⟨h₁, h₂, h₃, h₄, h₅⟩
      · rintro ⟨h₁, h₂⟩
        exact ⟨h₁, h₂⟩
    · intro hwait c _ _ _ _ _
      obtain ⟨himmediate, htarget⟩ := hwait wp rfl
      obtain ⟨r, hr, hserial, -⟩ := hfresh himmediate htarget
      exact .inr (.inr (.inl ⟨r, hr, hserial⟩))

/-! ### Reactions -/

theorem hear_heard {key : Key} {rest : List Key} (h : (hear key rest s).heard = false) :
    s.heard = false ∧ ∀ c, s.choice = some c → c.key ≠ key := by
  obtain ⟨hheard, hkey⟩ := Bool.or_eq_false_iff.mp h
  refine ⟨hheard, fun c hc heq => ?_⟩
  rw [hc] at hkey
  simp [heq] at hkey

theorem outline_hear {key : Key} {rest : List Key} (h : Outline lib s)
    (hidle : s.idle = key :: rest) :
    Outline lib (hear key rest s) where
  loaded := h.loaded
  unloaded := h.unloaded
  serials := h.serials
  distinct := h.distinct
  queued c hc hheard := by
    obtain ⟨hunheard, hkey⟩ := hear_heard hheard
    have hqueued := h.queued c hc hunheard
    rw [hidle] at hqueued
    exact (List.mem_cons.mp hqueued).resolve_left (hkey c hc)

/-- A reaction to a change of the picture leaves those to changes of the wallpaper outstanding. -/
theorem base_hear {rest : List Key} (h : Base lib s) (hidle : s.idle = .picture :: rest) :
    Base lib (hear .picture rest s) := by
  have hrest : Key.dynamic ∈ s.idle → Key.dynamic ∈ rest := by
    intro hmem
    rw [hidle] at hmem
    exact (List.mem_cons.mp hmem).resolve_left nofun
  exact ⟨⟨outline_hear h.toOutline hidle, h.live⟩, fun hd => (h.cleared hd).imp_left hrest,
    fun wp hwp => (h.synced wp hwp).imp_left hrest⟩

/-- The reaction to a change of the wallpaper. -/
theorem kept_dynamic {rest : List Key} (hbase : Base lib s) (hheld : Held lib s)
    (hlog : Logged lib s)
    (hidle : s.idle = .dynamic :: rest) (hok : LoadOk lib env (hear .dynamic rest s)) :
    Base lib (loadActive lib env (hear .dynamic rest s)) ∧
      Held lib (loadActive lib env (hear .dynamic rest s)) ∧
      Logged lib (loadActive lib env (hear .dynamic rest s)) := by
  have houtline := outline_hear hbase.toOutline hidle
  refine ⟨base_loadActive env houtline hok, held_loadActive houtline ?_ hlog hok⟩
  have hkeep : ∀ c, s.choice = some c → c.key = .picture → s.heard = false →
      (hear .dynamic rest s).heard = false := by
    intro c hc hkey hunheard
    show (s.heard || (s.choice.map Choice.key == some .dynamic)) = false
    rw [hunheard, hc]
    simp [hkey]
  refine fun c hc =>
    ⟨fun hyes => ?_, fun hsel => (((hheld c hc).2 hsel).imp_right And.left).imp ?_ ?_⟩
  · obtain ⟨h₁, h₂, h₃⟩ := (hheld c hc).1 hyes
    exact ⟨h₁, h₂, h₃.imp_right fun hown => ⟨hkeep c hc hyes.1 hown.1, hown.2⟩⟩
  · rintro ⟨h₁, h₂, h₃, h₄, h₅⟩
    exact ⟨hkeep c hc h₂ h₁, h₂, h₃, h₄, h₅⟩
  · rintro ⟨h₁, h₂⟩
    refine ⟨h₁, fun hmem => h₂ ?_⟩
    rw [hidle]
    exact List.mem_cons_of_mem _ hmem

/-- The wallpaper is changed by the controller. -/
theorem base_setDynamic (h : Base lib s) (value : Text) :
    Base lib { s with dynamic := value, idle := s.idle ++ [.dynamic] } where
  toCore := ⟨⟨h.loaded, h.unloaded, h.serials, h.distinct,
    fun c hc hheard => List.mem_append_left _ (h.queued c hc hheard)⟩, h.live⟩
  cleared _ := .inl (List.mem_append_right _ (List.mem_singleton_self _))
  synced _ _ := .inl (List.mem_append_right _ (List.mem_singleton_self _))

/-- What `on_picture_changed` does. -/
theorem onPictureChanged_cases (lib : Library) (env : Env) (s : State) :
    (s.picture = s.lastWritten ∧ onPictureChanged lib env s = s) ∨
    (s.picture ≠ s.lastWritten ∧ isDynamicUri lib s.picture = true ∧
      ((s.dynamic = s.picture ∧ onPictureChanged lib env s = loadActive lib env s) ∨
        onPictureChanged lib env s =
          { s with dynamic := s.picture, idle := s.idle ++ [.dynamic] })) ∨
    (s.picture ≠ s.lastWritten ∧ ¬isDynamicUri lib s.picture = true ∧
      (onPictureChanged lib env s = { s with dynamic := [], idle := s.idle ++ [.dynamic] } ∨
        ((s.dynamic = [] ∨ isOurOutput lib s s.picture = true) ∧
          onPictureChanged lib env s = s))) := by
  rw [onPictureChanged]
  by_cases hsame : s.picture = s.lastWritten
  · rw [if_pos hsame]
    exact .inl ⟨hsame, rfl⟩
  rw [if_neg hsame]
  by_cases huri : isDynamicUri lib s.picture = true
  · rw [if_pos huri]
    refine .inr (.inl ⟨hsame, huri, ?_⟩)
    by_cases hset : s.dynamic = s.picture
    · rw [if_neg (not_not_intro hset)]
      exact .inl ⟨hset, rfl⟩
    · rw [if_pos hset]
      exact .inr rfl
  · rw [if_neg huri]
    refine .inr (.inr ⟨hsame, huri, ?_⟩)
    by_cases hclear : s.dynamic ≠ [] ∧ (!isOurOutput lib s s.picture) = true
    · rw [if_pos hclear]
      exact .inl rfl
    · rw [if_neg hclear]
      refine .inr ⟨?_, rfl⟩
      by_contra hno
      obtain ⟨hne, hown⟩ := not_or.mp hno
      exact hclear ⟨hne, by rw [Bool.eq_false_iff.mpr hown]; rfl⟩

/-- The reaction to a change of the picture. -/
theorem kept_picture {rest : List Key} (hbase : Base lib s) (hheld : Held lib s)
    (hlog : Logged lib s)
    (hidle : s.idle = .picture :: rest)
    (hok : s.picture ≠ s.lastWritten → isDynamicUri lib s.picture = true → s.dynamic = s.picture →
      LoadOk lib env (hear .picture rest s)) :
    Base lib (onPictureChanged lib env (hear .picture rest s)) ∧
      Held lib (onPictureChanged lib env (hear .picture rest s)) ∧
      Logged lib (onPictureChanged lib env (hear .picture rest s)) := by
  have hheard := base_hear hbase hidle
  have hmem : ∀ k ∈ rest, k ∈ s.idle := fun k hk => by
    rw [hidle]
    exact List.mem_cons_of_mem _ hk
  have hqueued : Key.picture ∈ s.idle := by
    rw [hidle]
    exact List.mem_cons_self
  rcases onPictureChanged_cases lib env (hear .picture rest s) with ⟨hsame, heq⟩ |
    ⟨hne, huri, hcases⟩ | ⟨hne, huri, hcases⟩
  · -- The controller wrote the picture itself.
    rw [heq]
    refine ⟨hheard, fun c hc => ⟨fun hyes => ?_, fun hsel => ?_⟩, hlog⟩
    · obtain ⟨h₁, h₂, -⟩ := (hheld c hc).1 hyes
      exact absurd (h₁.symm.trans hsame) h₂
    · rcases (hheld c hc).2 hsel with ⟨-, -, h₁, h₂, -⟩ | ⟨⟨h₁, h₂⟩, hprovided⟩
      · exact absurd (h₁.symm.trans hsame) h₂
      · refine .inr ⟨⟨h₁, fun hp => h₂ (hmem _ hp)⟩, fun wp hwp => ?_⟩
        rcases hprovided wp hwp with hd | hshows | hlive | ⟨-, hp, hne, -⟩
        · rw [hidle] at hd
          exact .inl ((List.mem_cons.mp hd).resolve_left nofun)
        · exact .inr (.inl hshows)
        · exact .inr (.inr (.inl hlive))
        · exact absurd (hp.symm.trans hsame) hne
  · -- The picture is a wallpaper, which is loaded when it is set already, and else is set.
    have hnotPicture : ∀ c, s.choice = some c → ¬c.IsPicture lib := fun c hc hyes => by
      obtain ⟨h₁, -, -⟩ := (hheld c hc).1 hyes
      have huri' : isDynamicUri lib s.picture = true := huri
      rw [h₁, hyes.2.1] at huri'
      exact nomatch huri'
    rcases hcases with ⟨hset, heq⟩ | heq
    · rw [heq]
      have hload := hok hne huri hset
      refine ⟨base_loadActive env hheard.toOutline hload,
        held_loadActive hheard.toOutline ?_ hlog hload⟩
      refine fun c hc => ⟨fun hyes => absurd hyes (hnotPicture c hc), fun hsel => ?_⟩
      rcases (hheld c hc).2 hsel with ⟨-, -, h₁, -, h₂⟩ | ⟨⟨h₁, h₂⟩, -⟩
      · exact absurd (hset.trans h₁) h₂
      · exact .inr ⟨h₁, fun hp => h₂ (hmem _ hp)⟩
    · rw [heq]
      refine ⟨base_setDynamic hheard s.picture, fun c hc => ?_, hlog⟩
      refine ⟨fun hyes => absurd hyes (hnotPicture c hc), fun hsel => .inr ?_⟩
      have hvalue : s.picture = c.value := by
        rcases (hheld c hc).2 hsel with ⟨-, -, h₁, -, -⟩ | ⟨⟨h₁, h₂⟩, -⟩
        · exact h₁
        · exact ((h₂ hqueued).resolve_left hne).1
      refine ⟨⟨hvalue, fun _ => .inr ⟨hvalue, hvalue ▸ huri⟩⟩, fun _ _ => .inl ?_⟩
      exact List.mem_append_right _ (List.mem_singleton_self _)
  · -- The picture is none, and the wallpaper is no longer set unless the picture is of it.
    have hnotSelects : ∀ c, s.choice = some c → ¬c.Selects lib := fun c hc hsel => by
      rcases (hheld c hc).2 hsel with ⟨-, hkey, h₁, -, -⟩ | ⟨⟨-, h₂⟩, -⟩
      · rcases hsel with hd | hd
        · exact nomatch hkey.symm.trans hd
        · exact huri (h₁ ▸ hd)
      · obtain ⟨h₁, hd⟩ := (h₂ hqueued).resolve_left hne
        exact huri (h₁ ▸ hd)
    rcases hcases with heq | ⟨hkept, heq⟩
    · rw [heq]
      refine ⟨base_setDynamic hheard [], fun c hc => ⟨fun hyes => ?_, fun hsel => ?_⟩, hlog⟩
      · obtain ⟨h₁, h₂, -⟩ := (hheld c hc).1 hyes
        exact ⟨h₁, h₂, .inl rfl⟩
      · exact absurd hsel (hnotSelects c hc)
    · rw [heq]
      refine ⟨hheard, fun c hc => ⟨fun hyes => ?_, fun hsel => ?_⟩, hlog⟩
      · obtain ⟨h₁, h₂, h₃⟩ := (hheld c hc).1 hyes
        refine ⟨h₁, h₂, .inl ?_⟩
        rcases h₃ with hempty | ⟨-, hown⟩
        · exact hempty
        · rw [← h₁] at hown
          exact hkept.resolve_right fun hyes => nomatch hown.symm.trans hyes
      · exact absurd hsel (hnotSelects c hc)

/-! ### Renders -/

theorem base_dropped (h : Base lib s) (serial : ℕ) (pendingTarget : Text) : Base lib
    { s with renders := s.renders.filter (·.serial ≠ serial), pendingTarget } := by
  have hsub : ∀ r ∈ s.renders.filter (·.serial ≠ serial), r ∈ s.renders :=
    fun r hr => List.mem_of_mem_filter hr
  refine ⟨⟨⟨h.loaded, h.unloaded, fun r hr => h.serials r (hsub r hr),
    fun r hr r' hr' => h.distinct r (hsub r hr) r' (hsub r' hr'), h.queued⟩,
    fun r hr => h.live r (hsub r hr)⟩, fun hd => ?_, h.synced⟩
  exact (h.cleared hd).imp_right fun h => ⟨h.1, fun r hr => h.2 r (hsub r hr)⟩

theorem heldBut_dropped (h : HeldBut lib s) (serial : ℕ) (pendingTarget : Text) : HeldBut lib
    { s with renders := s.renders.filter (·.serial ≠ serial), pendingTarget } := by
  refine fun c hc => ⟨fun hyes => ?_, fun hsel => ((h c hc).2 hsel).imp ?_ ?_⟩
  · obtain ⟨h₁, h₂, h₃⟩ := (h c hc).1 hyes
    exact ⟨h₁, h₂, h₃⟩
  · rintro ⟨h₁, h₂, h₃, h₄, h₅⟩
    exact ⟨h₁, h₂, h₃, h₄, h₅⟩
  · rintro ⟨h₁, h₂⟩
    exact ⟨h₁, h₂⟩

/-- A render that is not waited for is finished. -/
theorem held_dropped (h : Held lib s) {serial : ℕ} (hserial : serial ≠ s.renderSerial)
    (pendingTarget : Text) : Held lib
      { s with renders := s.renders.filter (·.serial ≠ serial), pendingTarget } := by
  have hbut := heldBut_dropped h.but serial pendingTarget
  refine fun c hc => ⟨(hbut c hc).1, fun hsel => ?_⟩
  refine ((hbut c hc).2 hsel).imp_right fun hset => ⟨hset, fun wp hwp => ?_⟩
  rcases (h c hc).2 hsel with hunheard | ⟨-, hprovided⟩
  · exact absurd hset.dynamic hunheard.dynamic
  rcases hprovided wp hwp with h | h | ⟨r, hr, hlive⟩ | h
  · exact .inl h
  · exact .inr (.inl h)
  · refine .inr (.inr (.inl ⟨r, List.mem_filter.mpr ⟨hr, ?_⟩, hlive⟩))
    exact decide_eq_true fun heq => hserial (heq.symm.trans hlive)
  · exact .inr (.inr (.inr h))

/-- What the end of a render does. -/
theorem rendered_cases (lib : Library) (r : Render) (ok : Bool) (s : State) :
    ∃ pendingTarget,
      (r.serial ≠ s.renderSerial ∧ rendered lib r ok s = { s with pendingTarget }) ∨
        (r.serial = s.renderSerial ∧ ∃ uri, (∀ wp, r.Of wp → Shows lib wp uri) ∧
          rendered lib r ok s = writeUri uri { s with pendingTarget }) := by
  obtain ⟨pendingTarget, hpending⟩ : ∃ pendingTarget, (if s.pendingTarget = target lib r.state then
      { s with pendingTarget := [] } else s) = { s with pendingTarget } := by
    split
    · exact ⟨[], rfl⟩
    · exact ⟨s.pendingTarget, rfl⟩
  refine ⟨pendingTarget, ?_⟩
  rw [rendered, hpending]
  dsimp only
  by_cases hserial : r.serial = s.renderSerial
  · rw [if_neg (not_not_intro hserial)]
    refine .inr ⟨hserial, ?_⟩
    cases ok with
    | true => exact ⟨_, fun wp h => h.shows.1, rfl⟩
    | false => exact ⟨_, fun wp h => h.shows.2, rfl⟩
  · rw [if_pos hserial]
    exact .inl ⟨hserial, rfl⟩

theorem kept_rendered (hbase : Base lib s) (hheld : Held lib s) (hlog : Logged lib s) {r : Render}
    (ok : Bool) (hr : r ∈ s.renders) (hok : r.serial = s.renderSerial → Permitted lib s)
    (ht : t = rendered lib r ok { s with renders := s.renders.filter (·.serial ≠ r.serial) }) :
    Base lib t ∧ Held lib t ∧ Logged lib t := by
  rw [ht]
  obtain ⟨pendingTarget, ⟨hserial, heq⟩ | ⟨hserial, uri, hshows, heq⟩⟩ :=
    rendered_cases lib r ok { s with renders := s.renders.filter (·.serial ≠ r.serial) }
  · rw [heq]
    exact ⟨base_dropped hbase r.serial pendingTarget, held_dropped hheld hserial pendingTarget,
      hlog⟩
  · rw [heq]
    have hdropped := base_dropped hbase r.serial pendingTarget
    have hpermitted := hok hserial
    have hof : ∀ wp, s.current = some wp → Shows lib wp uri :=
      fun wp hwp => hshows wp (hbase.live r hr hserial wp hwp)
    exact ⟨hdropped.same (same_writeUri uri _),
      held_writeUri hdropped.toOutline hdropped.synced
        (heldBut_dropped hheld.but r.serial pendingTarget) hpermitted hof,
      logged_writeUri hdropped.toOutline hlog hpermitted hof⟩

/-! ### Choices -/

theorem kept_pick (hbase : Base lib s) (hlog : Logged lib s) {key : Key}
    {value : Text} (hok : Regular lib s (.pick key value)) :
    Base lib (pick lib key value s) ∧ Held lib (pick lib key value s) ∧
      Logged lib (pick lib key value s) := by
  have hmem : ∀ {k key : Key}, k ∈ s.idle → k ∈ s.idle ++ [key] := fun h => List.mem_append_left _ h
  have hlast : ∀ key : Key, key ∈ s.idle ++ [key] :=
    fun key => List.mem_append_right _ (List.mem_singleton_self _)
  cases key with
  | picture =>
    refine ⟨⟨⟨⟨hbase.loaded, hbase.unloaded, hbase.serials, hbase.distinct, ?_⟩, hbase.live⟩,
      fun hd => (hbase.cleared hd).imp_left hmem, fun wp hwp =>
        (hbase.synced wp hwp).imp_left hmem⟩,
      fun c hc => ?_, hlog⟩
    · intro c hc _
      rw [← Option.some.inj hc]
      exact hlast .picture
    rw [← Option.some.inj hc]
    refine ⟨fun hyes => ?_, fun hsel => ?_⟩
    · have hown : isOurOutput lib s value = false := hyes.2.2
      refine ⟨rfl, fun heq => ?_, .inr ⟨rfl, hown⟩⟩
      rw [isOurOutput, Bool.or_eq_false_iff] at hown
      exact absurd heq (of_decide_eq_false hown.1)
    · have huri : isDynamicUri lib value = true := hsel.resolve_left nofun
      have hne : value ≠ s.lastWritten := hok huri
      by_cases hset : s.dynamic = value
      · exact .inr ⟨⟨hset, fun _ => .inr ⟨rfl, huri⟩⟩,
          fun _ _ => .inr (.inr (.inr ⟨hlast .picture, rfl, hne, huri⟩))⟩
      · exact .inl ⟨rfl, rfl, rfl, hne, hset⟩
  | dynamic =>
    refine ⟨⟨⟨⟨hbase.loaded, hbase.unloaded, hbase.serials, hbase.distinct, ?_⟩, hbase.live⟩,
      fun _ => .inl (hlast .dynamic), fun _ _ => .inl (hlast .dynamic)⟩, fun c hc => ?_, hlog⟩
    · intro c hc _
      rw [← Option.some.inj hc]
      exact hlast .dynamic
    rw [← Option.some.inj hc]
    refine ⟨fun hyes => (nomatch hyes.1), fun _ => .inr ⟨⟨rfl, fun hp => ?_⟩,
      fun _ _ => .inl (hlast _)⟩⟩
    exact hok ((List.mem_append.mp hp).resolve_right fun h => nomatch List.mem_singleton.mp h)

/-! ### The step -/

theorem kept_step (h : Base lib s ∧ Held lib s ∧ Logged lib s) {e : Event} (hok : Regular lib s e) :
    Base lib (step lib s e) ∧ Held lib (step lib s e) ∧ Logged lib (step lib s e) := by
  obtain ⟨hbase, hheld, hlog⟩ := h
  cases e with
  | pick key value => exact kept_pick hbase hlog hok
  | react env =>
    simp only [step]
    simp only [Regular] at hok
    cases hidle : s.idle with
    | nil => exact ⟨hbase, hheld, hlog⟩
    | cons key rest =>
      rw [hidle] at hok
      cases key with
      | picture => exact kept_picture hbase hheld hlog hidle hok
      | dynamic => exact kept_dynamic hbase hheld hlog hidle hok
  | refresh env =>
    refine ⟨base_refresh env hbase, held_refresh hbase.toOutline hbase.synced hheld.but hlog hok ?_⟩
    intro _ c hc hsel hset
    rcases (hheld c hc).2 hsel with hunheard | ⟨-, hprovided⟩
    · exact absurd hset.dynamic hunheard.dynamic
    · exact hprovided
  | rendered serial ok =>
    simp only [step]
    cases hfind : s.renders.find? (·.serial = serial) with
    | none => exact ⟨hbase, hheld, hlog⟩
    | some r =>
      have hr : r ∈ s.renders := List.mem_of_find?_eq_some hfind
      have hserial : r.serial = serial := by simpa using List.find?_some hfind
      dsimp only
      rw [← hserial]
      exact kept_rendered hbase hheld hlog ok hr
        (fun hlive => hok (hserial.symm.trans hlive) ⟨r, hr, hserial⟩) rfl

/-! ### Runs -/

theorem Outline.init (picture dynamic : Text) : Outline lib { picture, dynamic } :=
  ⟨nofun, fun _ => rfl, List.forall_mem_nil _, List.forall_mem_nil _, nofun⟩

theorem target_ne_nil (st : Wallpaper.State) : target lib st ≠ [] := by
  rw [target]
  simp [ofString]

theorem choice_loadActive (env : Env) (h : Outline lib s) :
    (loadActive lib env s).choice = s.choice ∧ (loadActive lib env s).dynamic = s.dynamic := by
  rcases loadActive_cases env h with ⟨-, heq⟩ | ⟨-, -, heq⟩ | ⟨wp, -, heq⟩
  · rw [heq]
    exact ⟨rfl, rfl⟩
  · rw [heq]
    exact ⟨rfl, rfl⟩
  · rw [heq]
    have hframe := refresh_frame lib env { s with current := some wp, loadedUri := s.dynamic }
    exact ⟨hframe.2.2.1, hframe.1⟩

/-- Where nothing was chosen, only the renders that are waited for matter. -/
theorem loadOk_of_none (hchoice : s.choice = none)
    (h : ∀ wp, loadUri lib s.dynamic = some wp → immediate lib env wp = none →
      target lib (shown env wp) = s.pendingTarget →
        ∃ r ∈ s.renders, r.serial = s.renderSerial ∧ r.state = shown env wp) : LoadOk lib env s :=
          by
  intro wp hwp u hu
  refine ⟨fun _ _ _ c hc => ?_, h wp hwp, fun c hc => nomatch hchoice.symm.trans hc⟩
  rw [hu] at hc
  exact nomatch hchoice.symm.trans hc

theorem kept_start (lib : Library) (env : Env) (picture dynamic : Text) :
    Base lib (start lib env picture dynamic) ∧ Held lib (start lib env picture dynamic) ∧
      Logged lib (start lib env picture dynamic) := by
  obtain ⟨s, hs⟩ : ∃ s : State, s = { picture, dynamic } := ⟨_, rfl⟩
  have houtline : Outline lib s := hs ▸ Outline.init picture dynamic
  have hnone : s.choice = none := by rw [hs]
  have hload : LoadOk lib env s := loadOk_of_none hnone fun wp _ _ htarget => by
    rw [hs] at htarget
    exact absurd htarget (target_ne_nil _)
  obtain ⟨t, ht⟩ : ∃ t, t = loadActive lib env s := ⟨_, rfl⟩
  have hbase : Base lib t := ht ▸ base_loadActive env houtline hload
  have hlog : Logged lib t := by
    rw [ht]
    refine (held_loadActive houtline (fun c hc => nomatch hnone.symm.trans hc) ?_ hload).2
    rw [hs]
    exact List.forall_mem_nil _
  obtain ⟨hchoice, hdynamic⟩ := choice_loadActive env houtline
  have hnone' : t.choice = none := by rw [ht, hchoice, hnone]
  have hheld : ∀ u : State, u.choice = t.choice → Held lib u :=
    fun u hu c hc => nomatch (hu.trans hnone').symm.trans hc
  have hload' : LoadOk lib env t := loadOk_of_none hnone' fun wp hwp himmediate htarget => by
    rw [ht, hdynamic] at hwp
    rcases loadActive_cases env houtline with ⟨hempty, -⟩ | ⟨-, hfail, -⟩ | ⟨wp', hwp', heq⟩
    · rw [hempty, loadUri_nil] at hwp
      exact nomatch hwp
    · exact nomatch hfail.symm.trans hwp
    · obtain rfl := Option.some.inj (hwp'.symm.trans hwp)
      rw [ht, heq]
      rcases refresh_cases lib env { s with current := some wp', loadedUri := s.dynamic } with
        ⟨-, hwait⟩ | ⟨_, uri, hcurrent, hwrite, -⟩ | ⟨_, hcurrent, -, heq'⟩
      · have hempty := (hwait wp' rfl).2
        rw [hs] at hempty
        exact absurd hempty (target_ne_nil _)
      · rw [← Option.some.inj hcurrent] at hwrite
        exact nomatch himmediate.symm.trans hwrite
      · rw [heq', ← Option.some.inj hcurrent]
        exact ⟨_, List.mem_append_right _ (List.mem_singleton_self _), rfl, rfl⟩
  have hstart : start lib env picture dynamic = onPictureChanged lib env t := by rw [ht, hs]; rfl
  rw [hstart]
  rcases onPictureChanged_cases lib env t with ⟨-, heq⟩ | ⟨-, -, ⟨-, heq⟩ | heq⟩ |
    ⟨-, -, heq | ⟨-, heq⟩⟩
  · rw [heq]
    exact ⟨hbase, hheld t rfl, hlog⟩
  · rw [heq]
    exact ⟨base_loadActive env hbase.toOutline hload', held_loadActive hbase.toOutline
      (fun c hc => nomatch hnone'.symm.trans hc) hlog hload'⟩
  · rw [heq]
    exact ⟨base_setDynamic hbase _, hheld _ rfl, hlog⟩
  · rw [heq]
    exact ⟨base_setDynamic hbase _, hheld _ rfl, hlog⟩
  · rw [heq]
    exact ⟨hbase, hheld t rfl, hlog⟩

theorem Held.wins (hbase : Base lib s) (h : Held lib s) : Wins lib s := by
  intro hidle hrenders c hc
  have hheard : s.heard ≠ false := fun hunheard => by
    have hqueued := hbase.queued c hc hunheard
    rw [hidle] at hqueued
    exact nomatch hqueued
  refine ⟨fun hyes => ?_, fun hsel wp hwp => ?_⟩
  · obtain ⟨h₁, -, h₂⟩ := (h c hc).1 hyes
    exact ⟨h₁, h₂.resolve_right fun hno => hheard hno.1⟩
  · obtain ⟨hset, hprovided⟩ := ((h c hc).2 hsel).resolve_left fun hno => hheard hno.heard
    refine ⟨hset.dynamic, ?_⟩
    rcases hprovided wp hwp with hd | hshows | ⟨r, hr, -⟩ | ⟨hp, -⟩
    · rw [hidle] at hd
      exact nomatch hd
    · exact hshows
    · rw [hrenders] at hr
      exact nomatch hr
    · rw [hidle] at hp
      exact nomatch hp

/-- **The choice of the user wins**, and what is written after the reaction to it is of the
wallpaper chosen, in every run in which no write or load comes to its harm. -/
theorem wins_of_regular (lib : Library) (env : Env) (picture dynamic : Text) {events : List Event}
    (h : Transition.Guarded (step lib) (Regular lib) (start lib env picture dynamic) events) :
    Wins lib (run lib env picture dynamic events) ∧
      ∀ m ∈ (run lib env picture dynamic events).written, m.Ok lib := by
  have hkept : Base lib (run lib env picture dynamic events) ∧
      Held lib (run lib env picture dynamic events) ∧
      Logged lib (run lib env picture dynamic events) :=
    h.invariant (P := fun s => Base lib s ∧ Held lib s ∧ Logged lib s)
      (fun _ _ hs he => kept_step hs he) (kept_start lib env picture dynamic)
  exact ⟨hkept.2.1.wins hkept.1, hkept.2.2⟩

/-- A wallpaper with one image for light themes. -/
def oneImage : Wallpaper where
  kind := .appearance
  light := ofString "/light.png"

/-- Paths are their own URIs, and one of them is a wallpaper. -/
def oneWallpaper : Library where
  pathOf := some
  uriOf := id
  isDynamicPath path := path = ofString "/d"
  load path := if path = ofString "/d" then some oneImage else none
  cacheDir := ofString "/cache"
  digest _ := []

/-- Midnight, with an empty cache. -/
def midnight : Env where
  place := nowhere
  darkMode := false
  sinceMidnight := 0
  sinceAnchor := 0
  cached _ := false

/-- The wallpaper is chosen, then a picture. -/
def twoChoices : List Event :=
  [.pick .dynamic (ofString "/d"), .react midnight, .react midnight,
    .pick .picture (ofString "/p.png"), .react midnight, .react midnight]

theorem regular_dynamic {rest : List Key} (hidle : s.idle = .dynamic :: rest)
    (hok : LoadOk lib env (hear .dynamic rest s)) : Regular lib s (.react env) := by
  simp only [Regular, hidle]
  exact hok

/-- The reaction to a picture that is no wallpaper loads nothing. -/
theorem regular_picture {rest : List Key} (hidle : s.idle = .picture :: rest)
    (huri : s.picture = s.lastWritten ∨ isDynamicUri lib s.picture = false) :
    Regular lib s (.react env) := by
  simp only [Regular, hidle]
  rcases huri with huri | huri
  · exact fun hne => absurd huri hne
  · exact fun _ hyes => nomatch huri.symm.trans hyes

theorem regular_twoChoices : Transition.Guarded (step oneWallpaper) (Regular oneWallpaper)
    (start oneWallpaper midnight [] []) twoChoices := by
  have hchoice : LoadOk oneWallpaper midnight (hear .dynamic []
      (step oneWallpaper (start oneWallpaper midnight [] []) (.pick .dynamic (ofString "/d")))) :=
        by
    intro wp hwp t ht
    have hwp' : oneImage = wp := Option.some.inj hwp
    refine ⟨fun _ _ _ c hc => ?_, fun h => ?_, fun c hc hyes => ?_⟩
    · rw [ht] at hc
      have hc' : (⟨.dynamic, ofString "/d", false⟩ : Choice) = c := by
        rw [← Option.some.inj hc]
        decide +kernel
      rw [ht, ← hc']
      exact ⟨fun hyes => (nomatch hyes.1), fun _ => ⟨fun _ => ⟨rfl, rfl⟩,
        fun _ hkey => (nomatch hkey)⟩⟩
    · rw [← hwp'] at h
      exact absurd h (by decide +kernel)
    · rw [← Option.some.inj hc] at hyes
      exact nomatch hyes.1
  have hnothing : LoadOk oneWallpaper midnight (hear .dynamic [] (run oneWallpaper midnight [] []
      [.pick .dynamic (ofString "/d"), .react midnight, .react midnight,
        .pick .picture (ofString "/p.png"), .react midnight])) := by
    intro wp hwp
    have hempty : (run oneWallpaper midnight [] [] [.pick .dynamic (ofString "/d"), .react midnight,
        .react midnight, .pick .picture (ofString "/p.png"), .react midnight]).dynamic = [] := by
      decide +kernel
    have hnil : loadUri oneWallpaper [] = some wp := hempty ▸ hwp
    exact nomatch (loadUri_nil _).symm.trans hnil
  refine ⟨fun h => absurd h (by decide +kernel), regular_dynamic (by decide +kernel) hchoice,
    regular_picture (show _ = [Key.picture] by decide +kernel) (.inl (by decide +kernel)),
    fun h => absurd h (by decide +kernel),
    regular_picture (show _ = [Key.picture] by decide +kernel) (.inr (by decide +kernel)),
    regular_dynamic (by decide +kernel) hnothing, trivial⟩

theorem wins_twoChoices : Wins oneWallpaper (run oneWallpaper midnight [] [] twoChoices) ∧
    ∀ m ∈ (run oneWallpaper midnight [] [] twoChoices).written, m.Ok oneWallpaper :=
  wins_of_regular oneWallpaper midnight [] [] regular_twoChoices

/-- The wallpaper is shown, a picture is chosen, and there is a tick before the controller hears of
it. -/
def tickBetween : List Event :=
  [.react midnight, .pick .picture (ofString "/p.png"), .refresh midnight, .react midnight,
    .react midnight]

theorem not_wins : ¬∀ lib env picture dynamic events,
    Wins lib (run lib env picture dynamic events) := by
  intro h
  have hlast := h oneWallpaper midnight [] (ofString "/d") tickBetween (by decide +kernel)
    (List.length_eq_zero_iff.mp (by decide +kernel)) ⟨.picture, ofString "/p.png", false⟩
    (by decide +kernel)
  have hpicture := (hlast.1 ⟨rfl, by decide +kernel, rfl⟩).1
  exact absurd hpicture (by decide +kernel)

end Controller

end Wallpaper

end SingularityShell
