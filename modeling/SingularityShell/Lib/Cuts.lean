import Mathlib

/-!
# Cutting a box along a scale

A box that is tiled in the units of a scale, and the same tiling after the units of the scale were
placed on another line, in order but with any distances. Whatever the distances are, the tiles meet
without a gap and without an overlap, since two tiles that meet are cut at the same unit.

## Main definitions

* `Cuts.Box` — a box that is open at its right and at its lower edge
* `Cuts.Tiled` — boxes that are disjoint and cover another one
* `Cuts.Box.map` — a box whose edges are placed on other lines

## Main results

* `Cuts.exists_unit` — every point between the ends of a scale is in one unit
* `Cuts.Tiled.map` — a tiling survives the placement of the units
-/

namespace SingularityShell

namespace Cuts

/-- A box that is open at its right and at its lower edge. -/
structure Box (β : Type*) where
  left : β
  right : β
  top : β
  bottom : β

/-- The box with its edges placed on other lines. -/
def Box.map {β γ : Type*} (f g : β → γ) (b : Box β) : Box γ :=
  ⟨f b.left, f b.right, g b.top, g b.bottom⟩

variable {β : Type*} [LinearOrder β]

def Box.Mem (b : Box β) (p q : β) : Prop := b.left ≤ p ∧ p < b.right ∧ b.top ≤ q ∧ q < b.bottom

/-- The boxes are disjoint, and together they have the points of another box. -/
structure Tiled (boxes : List (Box β)) (whole : Box β) : Prop where
  disjoint : boxes.Pairwise fun a b => ∀ p q, ¬ (a.Mem p q ∧ b.Mem p q)
  cover : ∀ p q, (∃ b ∈ boxes, b.Mem p q) ↔ whole.Mem p q

/-- An edge between the boxes. -/
theorem Box.not_mem_of_apart {a b : Box β} (h : a.right ≤ b.left ∨ b.right ≤ a.left ∨
    a.bottom ≤ b.top ∨ b.bottom ≤ a.top) (p q : β) : ¬ (a.Mem p q ∧ b.Mem p q) := by
  rintro ⟨⟨hal, har, hat, hab⟩, ⟨hbl, hbr, hbt, hbb⟩⟩
  rcases h with h | h | h | h
  · exact absurd (har.trans_le (h.trans hbl)) (lt_irrefl p)
  · exact absurd (hbr.trans_le (h.trans hal)) (lt_irrefl p)
  · exact absurd (hab.trans_le (h.trans hbt)) (lt_irrefl q)
  · exact absurd (hbb.trans_le (h.trans hat)) (lt_irrefl q)

/-- The square of `n` units in both directions. -/
def square (n : ℤ) : Box ℤ := ⟨0, n, 0, n⟩

/-- The edges of the box are units of a scale. -/
structure Box.Within (n : ℤ) (b : Box ℤ) : Prop where
  left : b.left ∈ Set.Icc 0 n
  right : b.right ∈ Set.Icc 0 n
  top : b.top ∈ Set.Icc 0 n
  bottom : b.bottom ∈ Set.Icc 0 n

section
variable {n : ℤ} {f g : ℤ → β} (hf : MonotoneOn f (Set.Icc 0 n)) (hg : MonotoneOn g (Set.Icc 0 n))
include hf

/-- **Every point is in one unit.** Comparing a point with the units of a scale is comparing the
unit it is in. -/
theorem exists_unit {p : β} (h0 : f 0 ≤ p) (hn : p < f n) (hpos : 0 ≤ n) :
    ∃ u, 0 ≤ u ∧ u < n ∧ ∀ c ∈ Set.Icc 0 n, f c ≤ p ↔ c ≤ u := by
  obtain ⟨u, ⟨⟨hu0, hun⟩, hup⟩, hmax⟩ := Int.exists_greatest_of_bdd
    (P := fun c => c ∈ Set.Icc 0 n ∧ f c ≤ p) ⟨n, fun c hc => hc.1.2⟩
    ⟨0, ⟨le_refl 0, hpos⟩, h0⟩
  have hne : u ≠ n := fun he => absurd hn (not_lt.mpr (he ▸ hup))
  refine ⟨u, hu0, by omega, fun c hc => ⟨fun hcp => hmax c ⟨hc, hcp⟩, fun hcu => ?_⟩⟩
  exact (hf hc ⟨hu0, hun⟩ hcu).trans hup

include hg

/-- What a point is in depends on the units it is in. -/
theorem exists_units {p q : β} (hpos : 0 ≤ n) (hmem : ((square n).map f g).Mem p q) :
    ∃ u v, (square n).Mem u v ∧ ∀ b : Box ℤ, b.Within n → ((b.map f g).Mem p q ↔ b.Mem u v) := by
  obtain ⟨hl, hr, ht, hb⟩ := hmem
  obtain ⟨u, hu0, hun, hu⟩ := exists_unit hf hl hr hpos
  obtain ⟨v, hv0, hvn, hv⟩ := exists_unit hg ht hb hpos
  refine ⟨u, v, ⟨hu0, hun, hv0, hvn⟩, fun b hwithin => ?_⟩
  have hright : p < f b.right ↔ u < b.right := by
    rw [← not_le, hu _ hwithin.right, not_le]
  have hbottom : q < g b.bottom ↔ v < b.bottom := by
    rw [← not_le, hv _ hwithin.bottom, not_le]
  exact and_congr (hu _ hwithin.left) (and_congr hright (and_congr (hv _ hwithin.top) hbottom))

/-- **A tiling survives the placement of the units.** -/
theorem Tiled.map {boxes : List (Box ℤ)} (hpos : 0 ≤ n) (h : Tiled boxes (square n))
    (hwithin : ∀ b ∈ boxes, b.Within n) :
    Tiled (boxes.map (Box.map f g)) ((square n).map f g) := by
  have hmem_whole : ∀ b ∈ boxes, ∀ p q, (b.map f g).Mem p q → ((square n).map f g).Mem p q := by
    rintro b hb p q ⟨hl, hr, ht, hbot⟩
    have hzero : (0 : ℤ) ∈ Set.Icc 0 n := ⟨le_refl 0, hpos⟩
    have hlast : n ∈ Set.Icc 0 n := ⟨hpos, le_refl n⟩
    obtain ⟨hbl, hbr, hbt, hbb⟩ := hwithin b hb
    exact ⟨(hf hzero hbl hbl.1).trans hl, hr.trans_le (hf hbr hlast hbr.2),
      (hg hzero hbt hbt.1).trans ht, hbot.trans_le (hg hbb hlast hbb.2)⟩
  constructor
  · rw [List.pairwise_map]
    refine h.disjoint.imp_of_mem fun {a b} ha hb hab p q => ?_
    rintro ⟨hap, hbp⟩
    obtain ⟨u, v, -, huv⟩ := exists_units hf hg hpos (hmem_whole a ha p q hap)
    exact hab u v ⟨(huv a (hwithin a ha)).mp hap, (huv b (hwithin b hb)).mp hbp⟩
  · intro p q
    constructor
    · rintro ⟨_, hmap, hbp⟩
      obtain ⟨b, hb, rfl⟩ := List.mem_map.mp hmap
      exact hmem_whole b hb p q hbp
    · intro hpq
      obtain ⟨u, v, hsquare, huv⟩ := exists_units hf hg hpos hpq
      obtain ⟨b, hb, hbu⟩ := (h.cover u v).mpr hsquare
      exact ⟨b.map f g, List.mem_map_of_mem hb, (huv b (hwithin b hb)).mpr hbu⟩

end

end Cuts

end SingularityShell
