import SingularityShell.Lib.Ascii
import SingularityShell.Lib.Binary64
import SingularityShell.Lib.Machine
import SingularityShell.Lib.Weighted

/-!
# The next wallpaper of a rotation

`regard` of `core/wallpaper_rotator.vala` narrows the pictures of a collection to those of the
wanted size and shape, and `pick_candidates` chooses among them by a random number, with a larger
weight for favorites. The weights are added up in an `int`.

## Main definitions

* `Wallpaper.Rotation.regard`, `Wallpaper.Rotation.pickCandidates` — the functions
* `Wallpaper.Rotation.Regards` — what is regarded
* `Wallpaper.Rotation.Picks` — what is picked, by one number and by as many as there are units
* `Wallpaper.Rotation.Manageable` — the total weight suits its type

## Main results

* `Wallpaper.Rotation.regards` — whatever is wanted, the right pictures are regarded
* `Wallpaper.Rotation.picks_iff` — the headline: exactly the manageable choices are fair
-/

namespace SingularityShell

namespace Wallpaper

namespace Rotation

open Ascii Binary64 Machine

/-- `WallpaperCandidate`, as far as the rotation looks at it -/
structure WallpaperCandidate where
  uri : Text
  width : ℤ
  height : ℤ
  deriving DecidableEq

/-! ### Sizes and shapes -/

/-- `candidate.width >= min_width && candidate.height >= min_height` -/
def sufficient (minWidth minHeight : ℤ) (c : WallpaperCandidate) : Bool :=
  c.width ≥ minWidth && c.height ≥ minHeight

/-- `ASPECT_TOLERANCE` -/
def aspectTolerance : ℚ := fl (15 / 100)

/-- The loop over the shapes, in doubles. No quotient with a target that is no number is within the
tolerance. -/
def matchesAspect (target : Double) (c : WallpaperCandidate) : Bool :=
  match target with
  | .num target =>
    if c.width ≤ 0 ∨ c.height ≤ 0 then false
    else fl (|fl (fl (c.width / c.height) - target)| / target) ≤ aspectTolerance
  | _ => false

/-- `target_aspect <= 0.0` -/
def nonpositive : Double → Bool
  | .nan => false
  | .inf negative => negative
  | .num x => x ≤ 0

/-- `WallpaperRotator.regard` -/
def regard (candidates : List WallpaperCandidate) (minWidth minHeight : ℤ) (matchAspect : Bool)
    (targetAspect : Double) : List WallpaperCandidate :=
  let sized := candidates.filter (sufficient minWidth minHeight)
  let sized := if sized.length = 0 ∧ candidates.length > 0 then candidates else sized
  if !matchAspect || nonpositive targetAspect then sized
  else
    let matched := sized.filter (matchesAspect targetAspect)
    if matched.length = 0 then sized else matched

/-! ### Weights -/

section
variable (getPath : Text → Option Text) (favorFavorites : Bool) (favorites : Option (List Text))

/-- `is_favorite` of the path of a candidate -/
def favorite (c : WallpaperCandidate) : Bool :=
  match favorites, getPath c.uri with
  | some favorites, some path => favorFavorites && (path ≠ [] && path ∈ favorites)
  | _, _ => false

/-- `FAVORITE_WEIGHT` -/
def favoriteWeight : ℕ := 3

def weight (c : WallpaperCandidate) : ℕ :=
  if favorite getPath favorFavorites favorites c then favoriteWeight else 1

/-- The candidates among which a picture is picked. -/
def choicesOf (candidates : List WallpaperCandidate) (current : Option Text) :
    List WallpaperCandidate :=
  candidates.filter fun c => candidates.length = 1 || some c.uri ≠ current

/-- The loop that adds up the weights. -/
def totalWeight (choices : List WallpaperCandidate) : ℤ :=
  choices.foldl (fun total c => wrap32 (total + weight getPath favorFavorites favorites c)) 0

/-- The loop that subtracts the weights again. -/
def walk : List WallpaperCandidate → ℤ → Option Text
  | [], _ => none
  | c :: choices, selected =>
    if selected < weight getPath favorFavorites favorites c then some c.uri
    else walk choices (wrap32 (selected - weight getPath favorFavorites favorites c))

/-- The number that the second loop begins with. The remainder is that of unsigned numbers, and
there is none for zero. -/
def selectedOf (choices : List WallpaperCandidate) (roll : ℕ) : Option ℤ :=
  let total := (totalWeight getPath favorFavorites favorites choices % 2 ^ 32).toNat
  if total = 0 then none else some (wrap32 (roll % total : ℕ))

/-- `WallpaperRotator.pick_candidates`; the outer option is empty when the division fails. -/
def pickCandidates (candidates : List WallpaperCandidate) (current : Option Text) (roll : ℕ) :
    Option (Option Text) :=
  match choicesOf candidates current with
  | [] => some (candidates.head?.map (·.uri))
  | first :: rest => do
    let selected ← selectedOf getPath favorFavorites favorites (first :: rest) roll
    return some ((walk getPath favorFavorites favorites (first :: rest) selected).getD first.uri)

end

/-! ### What is meant -/

section
variable (candidates : List WallpaperCandidate) (minWidth minHeight : ℤ) (matchAspect : Bool)
  (targetAspect : Double)

/-- The candidate is large enough, or none is. -/
def Sized (c : WallpaperCandidate) : Prop :=
  sufficient minWidth minHeight c = true ∨ ∀ d ∈ candidates, sufficient minWidth minHeight d = false

/-- The candidate has the shape that is wanted, or none of those of the right size has. -/
def Shaped (c : WallpaperCandidate) : Prop :=
  matchAspect = true → nonpositive targetAspect = false → matchesAspect targetAspect c = true ∨
    ∀ d ∈ candidates, Sized candidates minWidth minHeight d → matchesAspect targetAspect d = false

/-- The candidates of the right size and shape in order, with all their copies. -/
structure Regards (result : List WallpaperCandidate) : Prop where
  sublist : result.Sublist candidates
  keeps : candidates.filter (· ∈ result) = result
  mem_iff : ∀ c, c ∈ result ↔ c ∈ candidates ∧ Sized candidates minWidth minHeight c ∧
    Shaped candidates minWidth minHeight matchAspect targetAspect c
  nil_iff : result = [] ↔ candidates = []

end

section
variable (getPath : Text → Option Text) (favorFavorites : Bool) (favorites : Option (List Text))

/-- The choices with their weights. -/
def weighted (choices : List WallpaperCandidate) : List (Text × ℕ) :=
  choices.map fun c => (c.uri, weight getPath favorFavorites favorites c)

/-- The sum of the weights. -/
def total (choices : List WallpaperCandidate) : ℕ :=
  (choices.map (weight getPath favorFavorites favorites)).sum

/-- Something is picked unless there is nothing, it is not the current picture when there is another
one, the walk finds it, and over as many consecutive numbers as there are units, each choice is
picked as often as it weighs. -/
structure Picks (candidates : List WallpaperCandidate) (current : Option Text) : Prop where
  null : ∀ roll < 2 ^ 32,
    pickCandidates getPath favorFavorites favorites candidates current roll = some none ↔
      candidates = []
  other : ∀ roll < 2 ^ 32, ∀ uri,
    pickCandidates getPath favorFavorites favorites candidates current roll = some (some uri) →
      (∃ c ∈ candidates, some c.uri ≠ current) → (∃ c ∈ candidates, c.uri = uri) ∧
        some uri ≠ current
  found : choicesOf candidates current ≠ [] → ∀ roll < 2 ^ 32, ∃ selected uri,
    selectedOf getPath favorFavorites favorites (choicesOf candidates current) roll =
      some selected ∧
    walk getPath favorFavorites favorites (choicesOf candidates current) selected = some uri
  fair : choicesOf candidates current ≠ [] → ∀ start,
    start + total getPath favorFavorites favorites (choicesOf candidates current) ≤ 2 ^ 32 →
    ∀ uri, ((List.range (total getPath favorFavorites favorites
        (choicesOf candidates current))).map fun i =>
      pickCandidates getPath favorFavorites favorites candidates current (start + i)).count
        (some (some uri)) =
      (((choicesOf candidates current).filter (·.uri = uri)).map
        (weight getPath favorFavorites favorites)).sum

/-- The sum of the weights does not vanish in 32 bits. If it fits in 32 bits without a sign, the
units that do not fit in an `int` are those of the picture that is first among the choices; there
are none when the sum is at most `2 ^ 31`. -/
def Manageable (candidates : List WallpaperCandidate) (current : Option Text) : Prop :=
  ∀ first rest, choicesOf candidates current = first :: rest →
    total getPath favorFavorites favorites (first :: rest) % 2 ^ 32 ≠ 0 ∧
    (total getPath favorFavorites favorites (first :: rest) < 2 ^ 32 →
      ∀ uri ∈ (Weighted.units
        (weighted getPath favorFavorites favorites (first :: rest))).drop (2 ^ 31),
        first.uri = uri)

end

/-! ### Regarding -/

theorem filter_length_eq_zero {α : Type*} {l : List α} {p : α → Bool} :
    (l.filter p).length = 0 ↔ ∀ a ∈ l, p a = false := by
  rw [List.length_eq_zero_iff, List.filter_eq_nil_iff]
  exact forall₂_congr fun a _ => by rw [Bool.not_eq_true]

/-- A filter that keeps all when nothing passes it. -/
def narrow {α : Type*} (p : α → Bool) (l : List α) : List α :=
  if (l.filter p).length = 0 then l else l.filter p

section
variable {α : Type*} (p : α → Bool) (l : List α)

theorem mem_narrow (a : α) :
    a ∈ narrow p l ↔ a ∈ l ∧ (p a = true ∨ ∀ b ∈ l, p b = false) := by
  rw [narrow]
  split_ifs with h
  · rw [filter_length_eq_zero] at h
    exact ⟨fun ha => ⟨ha, Or.inr h⟩, And.left⟩
  · rw [filter_length_eq_zero] at h
    rw [List.mem_filter]
    exact and_congr_right fun _ => (or_iff_left h).symm

theorem narrow_eq_filter : ∃ q : α → Bool, narrow p l = l.filter q := by
  rw [narrow]
  split_ifs
  · exact ⟨fun _ => true, (List.filter_eq_self.mpr fun _ _ => rfl).symm⟩
  · exact ⟨p, rfl⟩

theorem narrow_eq_nil : narrow p l = [] ↔ l = [] := by
  rw [narrow]
  split_ifs with h
  · rfl
  · rw [← List.length_eq_zero_iff]
    refine ⟨fun h0 => absurd h0 h, fun h0 => ?_⟩
    rw [h0]
    rfl

end

section
variable (candidates : List WallpaperCandidate) (minWidth minHeight : ℤ) (matchAspect : Bool)
  (targetAspect : Double)

theorem regard_eq : regard candidates minWidth minHeight matchAspect targetAspect =
    if !matchAspect || nonpositive targetAspect then
      narrow (sufficient minWidth minHeight) candidates
    else narrow (matchesAspect targetAspect)
      (narrow (sufficient minWidth minHeight) candidates) := by
  have hsized : (if (candidates.filter (sufficient minWidth minHeight)).length = 0 ∧
      candidates.length > 0 then candidates
      else candidates.filter (sufficient minWidth minHeight)) =
        narrow (sufficient minWidth minHeight) candidates := by
    cases candidates with
    | nil => rfl
    | cons c candidates =>
      rw [narrow]
      exact if_congr (and_iff_left (Nat.succ_pos _)) rfl rfl
  rw [regard, hsized]
  rfl

/-- **Whatever is wanted, the right pictures are regarded.** -/
theorem regards : Regards candidates minWidth minHeight matchAspect targetAspect
    (regard candidates minWidth minHeight matchAspect targetAspect) := by
  obtain ⟨p, hp⟩ := narrow_eq_filter (sufficient minWidth minHeight) candidates
  obtain ⟨q, hq⟩ := narrow_eq_filter (matchesAspect targetAspect) (candidates.filter p)
  have hfilter : ∃ r : WallpaperCandidate → Bool,
      regard candidates minWidth minHeight matchAspect targetAspect = candidates.filter r := by
    rw [regard_eq, hp, hq]
    split_ifs
    · exact ⟨p, rfl⟩
    · exact ⟨fun c => q c && p c, List.filter_filter⟩
  obtain ⟨r, hr⟩ := hfilter
  refine ⟨?_, ?_, fun c => ?_, ?_⟩
  · rw [hr]
    exact List.filter_sublist
  · rw [hr]
    refine List.filter_congr fun c hc => ?_
    rw [Bool.eq_iff_iff, decide_eq_true_iff, List.mem_filter]
    exact and_iff_right hc
  · have hsized : ∀ c, c ∈ narrow (sufficient minWidth minHeight) candidates ↔
        c ∈ candidates ∧ Sized candidates minWidth minHeight c := mem_narrow _ _
    rw [regard_eq]
    split_ifs with hany
    · rw [hsized]
      refine and_congr_right fun _ => (and_iff_left fun hmatch hpos => ?_).symm
      rw [hmatch, hpos] at hany
      exact absurd hany (by decide)
    · rw [mem_narrow, hsized, and_assoc]
      rw [Bool.or_eq_true, not_or, Bool.not_eq_true', Bool.not_eq_false, Bool.not_eq_true] at hany
      refine and_congr_right fun _ => and_congr_right fun _ => ?_
      rw [Shaped, forall_prop_of_true hany.1, forall_prop_of_true hany.2]
      refine or_congr_right (forall_congr' fun d => ?_)
      rw [hsized, and_imp]
  · rw [regard_eq]
    split_ifs
    · exact narrow_eq_nil _ _
    · rw [narrow_eq_nil, narrow_eq_nil]

end

/-! ### Picking -/

section
variable (getPath : Text → Option Text) (favorFavorites : Bool) (favorites : Option (List Text))
  {candidates : List WallpaperCandidate} {current : Option Text}

theorem weight_pos (c : WallpaperCandidate) : 0 < weight getPath favorFavorites favorites c := by
  rw [weight]
  split_ifs <;> decide

theorem total_eq_length (choices : List WallpaperCandidate) :
    total getPath favorFavorites favorites choices =
      (Weighted.units (weighted getPath favorFavorites favorites choices)).length := by
  rw [Weighted.length_units, weighted, List.map_map]
  rfl

/-- The first loop has the total in 32 bits. -/
theorem totalWeight_emod (choices : List WallpaperCandidate) :
    totalWeight getPath favorFavorites favorites choices % 2 ^ 32 =
      (total getPath favorFavorites favorites choices % 2 ^ 32 : ℕ) := by
  have hfold : ∀ (choices : List WallpaperCandidate) (a : ℤ),
      choices.foldl (fun t c => wrap32 (t + weight getPath favorFavorites favorites c)) a % 2 ^ 32 =
        (a + total getPath favorFavorites favorites choices) % 2 ^ 32 := by
    intro choices
    induction choices with
    | nil => exact fun a => by simp [total]
    | cons c choices ih =>
      intro a
      rw [List.foldl_cons, ih, total, total, List.map_cons, List.sum_cons, wrap32, Int.bmod_def]
      omega
  rw [totalWeight, hfold]
  omega

/-- The second loop finds the choice that has a unit. -/
theorem walk_eq (choices : List WallpaperCandidate) {n : ℕ} (hn : n < 2 ^ 31) :
    walk getPath favorFavorites favorites choices n =
      (Weighted.units (weighted getPath favorFavorites favorites choices))[n]? := by
  induction choices generalizing n with
  | nil => rfl
  | cons c choices ih =>
    rw [walk, weighted, List.map_cons, Weighted.getElem?_units_cons]
    by_cases h : n < weight getPath favorFavorites favorites c
    · rw [if_pos (by exact_mod_cast h), if_pos h]
    · rw [if_neg (by exact_mod_cast h), if_neg h, wrap32_eq (by omega) (by omega),
        show (n : ℤ) - weight getPath favorFavorites favorites c =
          (n - weight getPath favorFavorites favorites c : ℕ) by omega]
      exact ih (by omega)

/-- It finds the first one for a negative number. -/
theorem walk_of_neg (first : WallpaperCandidate) (rest : List WallpaperCandidate) {selected : ℤ}
    (h : selected < 0) :
    walk getPath favorFavorites favorites (first :: rest) selected = some first.uri := by
  rw [walk, if_pos (by omega)]

/-- What a number becomes between the loops. -/
theorem selectedOf_eq (choices : List WallpaperCandidate) (roll : ℕ) :
    selectedOf getPath favorFavorites favorites choices roll =
      if total getPath favorFavorites favorites choices % 2 ^ 32 = 0 then none
      else some (wrap32
        (roll % (total getPath favorFavorites favorites choices % 2 ^ 32) : ℕ)) := by
  rw [selectedOf, totalWeight_emod, Int.toNat_natCast]

/-- The unit that a number chooses, as far as it fits in an `int`. -/
def chosen (us : List Text) (r : ℕ) : Option Text := if r < 2 ^ 31 then us[r]? else us.head?

section
variable (first : WallpaperCandidate) (rest : List WallpaperCandidate)

theorem head?_units : (Weighted.units
    (weighted getPath favorFavorites favorites (first :: rest))).head? = some first.uri := by
  rw [List.head?_eq_getElem?, weighted, List.map_cons, Weighted.getElem?_units_cons,
    if_pos (weight_pos getPath favorFavorites favorites first)]

theorem total_pos : 0 < total getPath favorFavorites favorites (first :: rest) := by
  rw [total, List.map_cons, List.sum_cons]
  exact Nat.add_pos_left (weight_pos getPath favorFavorites favorites first) _

variable {first rest} (hchoices : choicesOf candidates current = first :: rest)
include hchoices

/-- Both loops together. -/
theorem walk_selected (hwrap : total getPath favorFavorites favorites (first :: rest) % 2 ^ 32 ≠ 0)
    (roll : ℕ) : ∃ selected uri,
      selectedOf getPath favorFavorites favorites (first :: rest) roll = some selected ∧
      walk getPath favorFavorites favorites (first :: rest) selected = some uri ∧
      pickCandidates getPath favorFavorites favorites candidates current roll = some (some uri) ∧
      chosen (Weighted.units (weighted getPath favorFavorites favorites (first :: rest)))
        (roll % (total getPath favorFavorites favorites (first :: rest) % 2 ^ 32)) = some uri := by
  obtain ⟨n, hn⟩ : ∃ n, roll % (total getPath favorFavorites favorites (first :: rest) % 2 ^ 32) =
    n := ⟨_, rfl⟩
  have hlt := Nat.mod_lt roll (Nat.pos_of_ne_zero hwrap)
  have hmod := Nat.mod_lt (total getPath favorFavorites favorites (first :: rest))
    (show 0 < 2 ^ 32 by omega)
  have hle := Nat.mod_le (total getPath favorFavorites favorites (first :: rest)) (2 ^ 32)
  have hselected := selectedOf_eq getPath favorFavorites favorites (first :: rest) roll
  rw [if_neg hwrap, hn] at hselected
  rw [hn] at hlt ⊢
  have hpick : ∀ uri, walk getPath favorFavorites favorites (first :: rest) (wrap32 n) = some uri →
      pickCandidates getPath favorFavorites favorites candidates current roll =
        some (some uri) := by
    intro uri huri
    rw [pickCandidates, hchoices]
    dsimp only
    rw [hselected, Option.bind_eq_bind, Option.bind_some, huri]
    rfl
  by_cases hsmall : n < 2 ^ 31
  · have hwalk : walk getPath favorFavorites favorites (first :: rest) (wrap32 n) =
        (Weighted.units (weighted getPath favorFavorites favorites (first :: rest)))[n]? := by
      rw [wrap32_eq (by omega) (by omega), walk_eq _ _ _ _ hsmall]
    have hlength : n < (Weighted.units
        (weighted getPath favorFavorites favorites (first :: rest))).length := by
      rw [← total_eq_length]
      omega
    rw [List.getElem?_eq_getElem hlength] at hwalk
    refine ⟨_, _, hselected, hwalk, hpick _ hwalk, ?_⟩
    rw [chosen, if_pos hsmall, List.getElem?_eq_getElem hlength]
  · have hneg : wrap32 n < 0 := by
      rw [wrap32_of_ge (by omega) (by omega)]
      omega
    have hwalk := walk_of_neg getPath favorFavorites favorites first rest hneg
    refine ⟨_, _, hselected, hwalk, hpick _ hwalk, ?_⟩
    rw [chosen, if_neg hsmall, head?_units]

theorem ne_nil_of_choices : candidates ≠ [] := by
  rintro rfl
  exact List.cons_ne_nil _ _ hchoices.symm

end

/-- How often a picture is among the units. -/
theorem count_units_weighted (choices : List WallpaperCandidate) (uri : Text) :
    (Weighted.units (weighted getPath favorFavorites favorites choices)).count uri =
      ((choices.filter (·.uri = uri)).map (weight getPath favorFavorites favorites)).sum := by
  rw [Weighted.count_units, weighted, List.filter_map, List.map_map]
  exact congrArg List.sum (congrArg _ (List.filter_congr fun c _ => by
    rw [Bool.eq_iff_iff, Function.comp_apply, beq_iff_eq, decide_eq_true_iff]))

/-- The walk ends at one of the choices. -/
theorem mem_of_walk {choices : List WallpaperCandidate} {selected : ℤ} {uri : Text}
    (h : walk getPath favorFavorites favorites choices selected = some uri) :
    ∃ c ∈ choices, c.uri = uri := by
  induction choices generalizing selected with
  | nil => exact absurd h (Option.some_ne_none uri).symm
  | cons c choices ih =>
    rw [walk] at h
    split_ifs at h with hlt
    · exact ⟨c, List.mem_cons_self, Option.some_inj.mp h⟩
    · obtain ⟨d, hd, hdu⟩ := ih h
      exact ⟨d, List.mem_cons_of_mem _ hd, hdu⟩

/-- What is picked is one of the choices when there are any. -/
theorem mem_of_pickCandidates {first : WallpaperCandidate} {rest : List WallpaperCandidate}
    (hchoices : choicesOf candidates current = first :: rest) {roll : ℕ} {result : Option Text}
    (h : pickCandidates getPath favorFavorites favorites candidates current roll = some result) :
    ∃ c ∈ choicesOf candidates current, result = some c.uri := by
  rw [pickCandidates, hchoices] at h
  obtain ⟨selected, -, hresult⟩ := Option.bind_eq_some_iff.mp h
  rw [hchoices]
  obtain rfl := Option.some_inj.mp hresult
  cases hwalk : walk getPath favorFavorites favorites (first :: rest) selected with
  | none => exact ⟨first, List.mem_cons_self, rfl⟩
  | some uri =>
    obtain ⟨c, hc, rfl⟩ := mem_of_walk _ _ _ hwalk
    exact ⟨c, hc, rfl⟩

/-- Nothing is picked exactly when there is nothing. -/
theorem pickCandidates_eq_none_iff (roll : ℕ) :
    pickCandidates getPath favorFavorites favorites candidates current roll = some none ↔
      candidates = [] := by
  cases hchoices : choicesOf candidates current with
  | nil =>
    rw [pickCandidates, hchoices]
    cases candidates <;> simp
  | cons first rest =>
    refine ⟨fun h => ?_, fun h => absurd h (ne_nil_of_choices hchoices)⟩
    obtain ⟨c, -, hc⟩ := mem_of_pickCandidates _ _ _ hchoices h
    exact absurd hc (Option.some_ne_none _).symm

/-- The current picture is not picked when there is another one. -/
theorem pickCandidates_ne_current {roll : ℕ} {uri : Text}
    (h : pickCandidates getPath favorFavorites favorites candidates current roll = some (some uri))
    (hother : ∃ c ∈ candidates, some c.uri ≠ current) :
    (∃ c ∈ candidates, c.uri = uri) ∧ some uri ≠ current := by
  obtain ⟨d, hd, hdu⟩ := hother
  have hmem : d ∈ choicesOf candidates current :=
    List.mem_filter.mpr ⟨hd, Bool.or_eq_true_iff.mpr (Or.inr (decide_eq_true hdu))⟩
  obtain ⟨first, rest, hchoices⟩ := List.exists_cons_of_ne_nil (List.ne_nil_of_mem hmem)
  obtain ⟨c, hc, hcu⟩ := mem_of_pickCandidates _ _ _ hchoices h
  obtain rfl := Option.some_inj.mp hcu
  obtain ⟨hcand, hc⟩ := List.mem_filter.mp hc
  refine ⟨⟨c, hcand, rfl⟩, ?_⟩
  rcases Bool.or_eq_true_iff.mp hc with hone | hne
  · obtain ⟨e, rfl⟩ := List.length_eq_one_iff.mp (of_decide_eq_true hone)
    rw [List.mem_singleton.mp hcand, ← List.mem_singleton.mp hd]
    exact hdu
  · exact of_decide_eq_true hne

/-! ### Fairness -/

section
variable {first : WallpaperCandidate} {rest : List WallpaperCandidate}
  (hchoices : choicesOf candidates current = first :: rest)
include hchoices

/-- What consecutive numbers pick. -/
theorem map_pickCandidates
    (hlt : total getPath favorFavorites favorites (first :: rest) < 2 ^ 32) (start : ℕ) :
    ((List.range (total getPath favorFavorites favorites (first :: rest))).map fun i =>
      pickCandidates getPath favorFavorites favorites candidates current (start + i)) =
      (((List.range (total getPath favorFavorites favorites (first :: rest))).map fun i =>
        chosen (Weighted.units (weighted getPath favorFavorites favorites (first :: rest)))
          ((start + i) % total getPath favorFavorites favorites (first :: rest))).map some) := by
  have hpos := total_pos getPath favorFavorites favorites first rest
  have hmod := Nat.mod_eq_of_lt hlt
  rw [List.map_map]
  refine List.map_congr_left fun i _ => ?_
  obtain ⟨selected, uri, -, -, hpick, hchosen⟩ := walk_selected getPath favorFavorites
    favorites hchoices (by omega) (start + i)
  rw [hmod] at hchosen
  rw [hpick, Function.comp_apply, hchosen]

/-- A fair choice leaves no unit of another picture to the numbers that do not fit. -/
theorem forall_mem_drop_of_fair
    (hlt : total getPath favorFavorites favorites (first :: rest) < 2 ^ 32)
    (hfair : ((List.range (total getPath favorFavorites favorites (first :: rest))).map fun i =>
        pickCandidates getPath favorFavorites favorites candidates current (0 + i)).count
          (some (some first.uri)) =
      (((first :: rest).filter (·.uri = first.uri)).map
        (weight getPath favorFavorites favorites)).sum) :
    ∀ uri ∈ (Weighted.units
      (weighted getPath favorFavorites favorites (first :: rest))).drop (2 ^ 31),
      first.uri = uri := by
  have htotal := total_eq_length getPath favorFavorites favorites (first :: rest)
  have hhead := head?_units getPath favorFavorites favorites first rest
  rw [map_pickCandidates _ _ _ hchoices hlt, ← count_units_weighted,
    List.count_map_of_injective _ _ (Option.some_injective _)] at hfair
  obtain ⟨us, hus⟩ : ∃ us, us = Weighted.units
    (weighted getPath favorFavorites favorites (first :: rest)) := ⟨_, rfl⟩
  rw [← hus] at htotal hhead hfair ⊢
  rw [htotal] at hfair
  have hmap : ((List.range us.length).map fun i => chosen us ((0 + i) % us.length)) =
      (us.take (2 ^ 31) ++ List.replicate (us.length - 2 ^ 31) first.uri).map some := by
    refine List.ext_getElem (by simp; omega) fun i h h' => ?_
    have hi : i < us.length := by simpa using h
    rw [List.getElem_map, List.getElem_map, List.getElem_range, Nat.zero_add,
      Nat.mod_eq_of_lt hi, chosen]
    by_cases hsmall : i < 2 ^ 31
    · have htake : i < (us.take (2 ^ 31)).length := by
        rw [List.length_take]
        omega
      rw [if_pos hsmall, List.getElem_append_left htake, List.getElem_take,
        List.getElem?_eq_getElem hi]
    · have htake : (us.take (2 ^ 31)).length ≤ i := by
        rw [List.length_take]
        omega
      rw [if_neg hsmall, List.getElem_append_right htake, List.getElem_replicate, hhead]
  rw [hmap, List.count_map_of_injective _ _ (Option.some_injective _)] at hfair
  exact Weighted.forall_mem_drop_of_count hfair

/-- A manageable choice is fair. -/
theorem fair_of_manageable
    (hlt : total getPath favorFavorites favorites (first :: rest) < 2 ^ 32)
    (hdrop : ∀ uri ∈ (Weighted.units
      (weighted getPath favorFavorites favorites (first :: rest))).drop (2 ^ 31),
      first.uri = uri) (start : ℕ) (uri : Text) :
    ((List.range (total getPath favorFavorites favorites (first :: rest))).map fun i =>
      pickCandidates getPath favorFavorites favorites candidates current (start + i)).count
        (some (some uri)) =
      (((first :: rest).filter (·.uri = uri)).map
        (weight getPath favorFavorites favorites)).sum := by
  have htotal := total_eq_length getPath favorFavorites favorites (first :: rest)
  have hhead := head?_units getPath favorFavorites favorites first rest
  rw [map_pickCandidates _ _ _ hchoices hlt, ← count_units_weighted,
    List.count_map_of_injective _ _ (Option.some_injective _)]
  obtain ⟨us, hus⟩ : ∃ us, us = Weighted.units
    (weighted getPath favorFavorites favorites (first :: rest)) := ⟨_, rfl⟩
  rw [← hus] at htotal hhead hdrop ⊢
  rw [htotal]
  have hchosen : ∀ r < us.length, chosen us r = us[r]? := by
    intro r hr
    rw [chosen]
    split_ifs with hsmall
    · rfl
    · have hindex : 2 ^ 31 + (r - 2 ^ 31) = r := by omega
      have hmem : us[r] ∈ us.drop (2 ^ 31) := by
        refine List.mem_of_getElem? (i := r - 2 ^ 31) ?_
        rw [List.getElem?_drop, hindex, List.getElem?_eq_getElem hr]
      rw [hhead, List.getElem?_eq_getElem hr, ← hdrop _ hmem]
  have hpos : 0 < us.length := htotal ▸ total_pos getPath favorFavorites favorites first rest
  rw [← Weighted.count_window us start uri]
  refine congrArg _ (List.map_congr_left fun i _ => hchosen _ (Nat.mod_lt _ hpos))

end

variable (candidates current)

/-- **Exactly the manageable choices are fair**, whatever is regarded before. In particular all
whose weights add up to `2 ^ 31` at most are. -/
theorem picks_iff :
    ((∀ minWidth minHeight matchAspect targetAspect,
        Regards candidates minWidth minHeight matchAspect targetAspect
          (regard candidates minWidth minHeight matchAspect targetAspect)) ∧
      Picks getPath favorFavorites favorites candidates current) ↔
    Manageable getPath favorFavorites favorites candidates current := by
  constructor
  · rintro ⟨-, hpicks⟩ first rest hchoices
    have hne : choicesOf candidates current ≠ [] := by
      rw [hchoices]
      exact List.cons_ne_nil _ _
    obtain ⟨selected, uri, hselected, -⟩ := hpicks.found hne 0 (by omega)
    rw [hchoices, selectedOf_eq] at hselected
    refine ⟨fun hzero => ?_, fun hlt => ?_⟩
    · rw [if_pos hzero] at hselected
      exact absurd hselected.symm (Option.some_ne_none _)
    · have hfair := hpicks.fair hne 0 (by rw [hchoices]; omega) first.uri
      rw [hchoices] at hfair
      exact forall_mem_drop_of_fair getPath favorFavorites favorites hchoices hlt hfair
  · intro hmanageable
    refine ⟨regards candidates, fun roll _ => pickCandidates_eq_none_iff _ _ _ roll,
      fun roll _ uri h => pickCandidates_ne_current _ _ _ h, fun hne roll _ => ?_,
      fun hne start hstart uri => ?_⟩
    · obtain ⟨first, rest, hchoices⟩ := List.exists_cons_of_ne_nil hne
      obtain ⟨hwrap, -⟩ := hmanageable first rest hchoices
      obtain ⟨selected, uri, hselected, hwalk, -⟩ :=
        walk_selected getPath favorFavorites favorites hchoices hwrap roll
      rw [hchoices]
      exact ⟨selected, uri, hselected, hwalk⟩
    · obtain ⟨first, rest, hchoices⟩ := List.exists_cons_of_ne_nil hne
      obtain ⟨hwrap, hdrop⟩ := hmanageable first rest hchoices
      rw [hchoices] at hstart ⊢
      have hlt : total getPath favorFavorites favorites (first :: rest) < 2 ^ 32 := by
        refine lt_of_le_of_ne (by omega) fun heq => hwrap ?_
        rw [heq, Nat.mod_self]
      exact fair_of_manageable getPath favorFavorites favorites hchoices hlt (hdrop hlt) start uri

end

/-! ### A choice that is not fair -/

/-- The path of a local file whose name needs no escapes. -/
def localPath (uri : Text) : Option Text := some (uri.drop 7)

def plainPicture : WallpaperCandidate := ⟨ofString "file:///a", 1920, 1080⟩

def favoritePicture : WallpaperCandidate := ⟨ofString "file:///b", 1920, 1080⟩

/-- A picture, and another one that is a favorite and `n` times in the collection. -/
def crowd (n : ℕ) : List WallpaperCandidate := plainPicture :: List.replicate n favoritePicture

/-- The favorites of the crowd. -/
def crowdFavorites : Option (List Text) := some [ofString "/b"]

/-- The numbers from `2 ^ 31` on become negative and pick the first picture. -/
theorem not_picks_of_crowd {n : ℕ} (hlow : 2 ^ 31 ≤ n * 3) (hhigh : 1 + n * 3 < 2 ^ 32) :
    ¬ Picks localPath true crowdFavorites (crowd n) none := by
  intro hpicks
  have hplain : weight localPath true crowdFavorites plainPicture = 1 := by decide +kernel
  have hfavorite : weight localPath true crowdFavorites favoritePicture = 3 := by decide +kernel
  have hchoices : choicesOf (crowd n) none = plainPicture :: List.replicate n favoritePicture :=
    List.filter_eq_self.mpr fun c _ =>
      Bool.or_eq_true_iff.mpr (Or.inr (decide_eq_true (Option.some_ne_none _)))
  have hrest : total localPath true crowdFavorites (List.replicate n favoritePicture) = n * 3 := by
    rw [total, List.map_replicate, List.sum_replicate_nat, hfavorite]
  have htotal : total localPath true crowdFavorites
      (plainPicture :: List.replicate n favoritePicture) = 1 + n * 3 := by
    rw [← hrest, total, List.map_cons, List.sum_cons, hplain, total]
  have hfair := hpicks.fair (by rw [hchoices]; exact List.cons_ne_nil _ _) 0
    (by rw [hchoices, htotal]; omega) plainPicture.uri
  rw [hchoices] at hfair
  have hdrop := forall_mem_drop_of_fair localPath true crowdFavorites hchoices
    (htotal ▸ hhigh) hfair
  obtain ⟨us, hus⟩ : ∃ us, us = Weighted.units (weighted localPath true crowdFavorites
    (List.replicate n favoritePicture)) := ⟨_, rfl⟩
  have hall : ∀ uri ∈ us, uri = favoritePicture.uri := by
    intro uri huri
    rw [hus, Weighted.units, weighted, List.map_replicate] at huri
    obtain ⟨c, hc, huri⟩ := List.mem_flatMap.mp huri
    rw [List.eq_of_mem_replicate huri, List.eq_of_mem_replicate hc]
  have hlength : us.length = n * 3 := by
    rw [hus, ← total_eq_length, hrest]
  have hunits : Weighted.units (weighted localPath true crowdFavorites
      (plainPicture :: List.replicate n favoritePicture)) = plainPicture.uri :: us := by
    rw [weighted, List.map_cons, Weighted.units_cons, hplain, ← weighted, ← hus,
      List.replicate_one, List.singleton_append]
  obtain ⟨uri, hmem⟩ : ∃ uri, uri ∈ us.drop (2 ^ 31 - 1) :=
    List.exists_mem_of_length_pos (by rw [List.length_drop]; omega)
  have hshift : uri ∈ (plainPicture.uri :: us).drop (2 ^ 31) := by
    rw [← Nat.succ_pred_eq_of_pos (show 0 < 2 ^ 31 by omega), List.drop_succ_cons]
    exact hmem
  have hplain_eq := hdrop uri (hunits ▸ hshift)
  rw [hall _ (List.mem_of_mem_drop hmem)] at hplain_eq
  exact absurd hplain_eq (by decide +kernel)

theorem not_picks_crowd : ¬ ((∀ minWidth minHeight matchAspect targetAspect,
      Regards (crowd 715827883) minWidth minHeight matchAspect targetAspect
        (regard (crowd 715827883) minWidth minHeight matchAspect targetAspect)) ∧
    Picks localPath true crowdFavorites (crowd 715827883) none) := by
  rintro ⟨-, hpicks⟩
  exact not_picks_of_crowd (by omega) (by omega) hpicks

end Rotation

end Wallpaper

end SingularityShell
