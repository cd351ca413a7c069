import Mathlib.Data.UInt
import SingularityShell.Lib.Ascii
import SingularityShell.Lib.Machine
import SingularityShell.Lib.Pages

/-!
# Pages of candidates

An engine offers its candidates in one lookup table and says how many are on a page and which of
them the cursor is on. `Serial.ibus_table` of `core/input_method/input_engine.vala` cuts out the
page of the cursor, in numbers of 32 bits.

## Main definitions

* `Ime.Table.Variant`, `Ime.Table.readTable` — what an engine sends, and the fields that are read
* `Ime.Table.LookupTable.window`, `Ime.Table.LookupTable.candidatesOf` — the candidates of the loop,
  and what is shown
* `Ime.Table.LookupTable.Paged` — the pages are a partition, and each is shown as it should be
* `Ime.Table.LookupTable.Fits` — the end of every page, and its last index, fit in their types

## Main results

* `Ime.Table.candidatesOf_isSome` — nothing is read out of range, wherever the cursor is
* `Ime.Table.ibusTable_paged_iff` — the headline: a table is paged exactly when it fits
-/

namespace SingularityShell

namespace Ime

namespace Table

open Ascii Machine

/-- A value of the message bus, as far as its type is looked at. -/
inductive Variant where
  | str (text : Text)
  | uint32 (n : UInt32)
  | int32 (n : ℤ)
  | boolean (b : Bool)
  | variant (value : Variant)
  | container (children : List Variant)
  | other

/-- What is in boxes in boxes. -/
def Variant.unbox : Variant → Variant
  | .variant value => value.unbox
  | v => v

/-- The children of a container; nothing else has any. -/
def Variant.children : Variant → List Variant
  | .container children => children
  | .variant value => [value]
  | _ => []

/-- `Serial.ibus_text` -/
def ibusText (value : Variant) : Text :=
  match value.unbox with
  | .str text => text
  | .container (.str name :: _ :: text :: _) =>
    if name = ofString "IBusText" then
      match text with
      | .str text => text
      | _ => []
    else []
  | _ => []

/-- The fields of a lookup table that are read. A message of the bus holds fewer than `2 ^ 27`
candidates and labels; here there are any number. -/
structure LookupTable where
  pageSize : UInt32
  cursor : UInt32
  cursorVisible : Bool
  orientation : ℤ
  all : List Variant
  labelValues : List Variant

/-- `Candidates` -/
structure Candidates where
  items : List Text
  labels : List Text
  selected : ℤ
  hasPrevious : Bool
  hasNext : Bool
  vertical : Bool

/-- `g_variant_get_uint32`: zero for a value of another type. -/
def Variant.getUint32 : Variant → UInt32
  | .uint32 n => n
  | _ => 0

/-- `g_variant_get_boolean` -/
def Variant.getBoolean : Variant → Bool
  | .boolean b => b
  | _ => false

/-- `g_variant_get_int32` -/
def Variant.getInt32 : Variant → ℤ
  | .int32 n => n
  | _ => 0

/-- The checks at the head of `ibus_table`, and the fields it reads. -/
def readTable (value : Variant) : Option LookupTable :=
  match value.unbox with
  | .container (name :: _ :: pageSize :: cursor :: visible :: _ :: orientation :: all :: labels
      :: _) =>
    match name with
    | .str name =>
      if name = ofString "IBusLookupTable" then
        some ⟨pageSize.getUint32, cursor.getUint32, visible.getBoolean, orientation.getInt32,
          all.children, labels.children⟩
      else none
    | _ => none
  | _ => none

/-- What is left of a number in a `uint`. -/
def u32 (n : ℕ) : ℕ := n % 2 ^ 32

namespace LookupTable

variable (t : LookupTable)

def size : ℕ := if t.pageSize = 0 then 5 else t.pageSize.toNat

def total : ℕ := u32 t.all.length

def start : ℕ := if t.total > t.size then u32 (t.cursor.toNat / t.size * t.size) else 0

def finish : ℕ := min (u32 (t.start + t.size)) t.total

/-- The candidates that the loop runs over. -/
def window : List ℕ := List.range' t.start (t.finish - t.start)

/-- The label that the engine gives to a position, or a digit. -/
def label (index : ℕ) : Text :=
  let label := (t.labelValues[index]?.map ibusText).getD []
  if label ≠ [] then label else decimal (u32 (index + 1) % 10)

/-- A round of the loop, which fails when it reads out of range. -/
def row (i : ℕ) : Option (Text × Text) := do
  let child ← t.all[i]?
  return (ibusText child, t.label (i - t.start))

/-- `ibus_table` behind its checks -/
def candidatesOf : Option Candidates := do
  let rows ← t.window.mapM t.row
  return {
    items := rows.map Prod.fst
    labels := rows.map Prod.snd
    selected := if t.cursorVisible ∧ t.cursor.toNat ≥ t.start ∧ t.cursor.toNat < t.finish then
      wrap32 (t.cursor.toNat - t.start : ℕ) else -1
    hasPrevious := t.start > 0
    hasNext := t.finish < t.total
    vertical := t.orientation = 1 }

end LookupTable

/-- `Serial.ibus_table` -/
def ibusTable (value : Variant) : Option Candidates := (readTable value).bind (·.candidatesOf)

/-! ### What is meant -/

namespace LookupTable

/-- What is shown of the window of a table, with the candidates that are on the pages before and
behind it. -/
structure Shows (t : LookupTable) (c : Candidates) (before after : List (List ℕ)) : Prop where
  items : c.items.map some = t.window.map fun i => t.all[i]?.map ibusText
  selected : t.cursorVisible = true →
    0 ≤ c.selected ∧ t.window[c.selected.toNat]? = some t.cursor.toNat
  unselected : t.cursorVisible = false → c.selected = -1
  hasPrevious : c.hasPrevious = true ↔ before.flatten ≠ []
  hasNext : c.hasNext = true ↔ after.flatten ≠ []
  length_labels : c.labels.length = c.items.length
  labels : ∀ i < c.items.length, ∀ text, t.labelValues[i]?.map ibusText = some text → text ≠ [] →
    c.labels[i]? = some text

/-- The table with the cursor at another candidate. -/
def withCursor (t : LookupTable) (cursor : UInt32) : LookupTable := { t with cursor := cursor }

/-- The windows of all positions of the cursor are the candidates in order, cut into pages of the
given size at most, and each is shown when the cursor is on it. -/
def Paged (t : LookupTable) : Prop :=
  ∃ pages : List (List ℕ), pages.flatten = List.range t.all.length ∧
    ∀ cursor : UInt32, cursor.toNat < t.all.length → ∃ before after c,
      pages = before ++ (t.withCursor cursor).window :: after ∧
      cursor.toNat ∈ (t.withCursor cursor).window ∧ (t.withCursor cursor).window.length ≤ t.size ∧
      (t.withCursor cursor).candidatesOf = some c ∧ (t.withCursor cursor).Shows c before after

/-- The end of the last page, were it full, fits in a `uint`, and the last index on a page that can
be selected fits in an `int`. -/
structure Fits (t : LookupTable) : Prop where
  pages : (t.all.length - 1) / t.size * t.size + t.size < 2 ^ 32
  index : t.cursorVisible = true → min t.all.length t.size ≤ 2 ^ 31

end LookupTable

/-! ### Reading -/

variable {t : LookupTable}

theorem mapM_eq_some_map {α β : Type*} {l : List α} {f : α → Option β} {g : α → β}
    (h : ∀ a ∈ l, f a = some (g a)) : l.mapM f = some (l.map g) := by
  induction l with
  | nil => rfl
  | cons a l ih =>
    rw [List.mapM_cons, h a List.mem_cons_self, ih fun b hb => h b (List.mem_cons_of_mem _ hb)]
    rfl

theorem size_pos (t : LookupTable) : 0 < t.size := by
  rw [LookupTable.size]
  split_ifs with h
  · omega
  · refine Nat.pos_of_ne_zero fun h0 => h (UInt32.toNat.inj ?_)
    exact h0

theorem size_lt (t : LookupTable) : t.size < 2 ^ 32 := by
  rw [LookupTable.size]
  split_ifs with h
  · omega
  · exact t.pageSize.toNat_lt

theorem mem_window {i : ℕ} : i ∈ t.window ↔ t.start ≤ i ∧ i < t.finish := by
  rw [LookupTable.window, List.mem_range'_1]
  omega

/-- The loop stays in the table. -/
theorem lt_length_of_mem_window {i : ℕ} (h : i ∈ t.window) : i < t.all.length := by
  have hlt := (mem_window.mp h).2
  have hfinish : t.finish ≤ t.total := Nat.min_le_right _ _
  have htotal : t.total ≤ t.all.length := Nat.mod_le _ _
  omega

/-- What is shown of a candidate. -/
def LookupTable.shown (t : LookupTable) (i : ℕ) : Text := (t.all[i]?.map ibusText).getD []

/-- The loop does not fail. -/
theorem mapM_row (t : LookupTable) :
    t.window.mapM t.row = some (t.window.map fun i => (t.shown i, t.label (i - t.start))) := by
  refine mapM_eq_some_map fun i hi => ?_
  rw [LookupTable.row, LookupTable.shown, List.getElem?_eq_getElem (lt_length_of_mem_window hi)]
  rfl

/-- **Nothing is read out of range**, wherever the cursor is and whatever wraps around. -/
theorem candidatesOf_isSome (t : LookupTable) : t.candidatesOf.isSome = true := by
  rw [LookupTable.candidatesOf, mapM_row]
  rfl

/-! ### Pages -/

section
variable (hfits : t.Fits) (hcursor : t.cursor.toNat < t.all.length)
include hfits

/-- All candidates have a number. -/
theorem total_eq : t.total = t.all.length := by
  have hpages := hfits.pages
  have hdiv := Nat.div_add_mod (t.all.length - 1) t.size
  have hmod := Nat.mod_lt (t.all.length - 1) (size_pos t)
  rw [Nat.mul_comm] at hdiv
  exact Nat.mod_eq_of_lt (by omega)

include hcursor

theorem start_eq : t.start = t.cursor.toNat / t.size * t.size := by
  have hle := Nat.div_mul_le_self t.cursor.toNat t.size
  have hlt := t.cursor.toNat_lt
  rw [LookupTable.start, total_eq hfits]
  split_ifs with h
  · exact Nat.mod_eq_of_lt (by omega)
  · rw [Nat.div_eq_of_lt (by omega), Nat.zero_mul]

/-- The end of a page does not wrap around. -/
theorem finish_eq : t.finish = min (t.start + t.size) t.all.length := by
  have hdiv : t.cursor.toNat / t.size ≤ (t.all.length - 1) / t.size :=
    Nat.div_le_div_right (by omega)
  have hmul := Nat.mul_le_mul_right t.size hdiv
  have hpages := hfits.pages
  rw [LookupTable.finish, total_eq hfits, start_eq hfits hcursor, u32,
    Nat.mod_eq_of_lt (by omega)]

theorem window_eq : t.window = Pages.page t.size t.all.length (t.cursor.toNat / t.size) := by
  have hle := Nat.div_mul_le_self t.cursor.toNat t.size
  rw [LookupTable.window, finish_eq hfits hcursor, start_eq hfits hcursor, Pages.page]
  congr 1
  omega

/-- The page of the cursor is shown as it should be. -/
theorem shows_of_fits {before after : List (List ℕ)}
    (hbefore : before.flatten = List.range (t.cursor.toNat / t.size * t.size))
    (hafter : after.flatten.length =
      t.all.length - (t.cursor.toNat / t.size * t.size + t.size)) :
    ∃ c, t.candidatesOf = some c ∧ t.Shows c before after := by
  have hstart := start_eq hfits hcursor
  have hfinish := finish_eq hfits hcursor
  have hle := Nat.div_mul_le_self t.cursor.toNat t.size
  have hmem : t.cursor.toNat ∈ t.window := by
    rw [window_eq hfits hcursor]
    exact Pages.mem_page_div (size_pos t) hcursor
  obtain ⟨hlow, hhigh⟩ := mem_window.mp hmem
  rw [LookupTable.candidatesOf, mapM_row]
  refine ⟨_, rfl, ?_⟩
  constructor
  · dsimp only
    rw [List.map_map, List.map_map]
    refine List.map_congr_left fun i hi => ?_
    have hi := lt_length_of_mem_window hi
    simp [LookupTable.shown, List.getElem?_eq_getElem hi]
  · intro hvisible
    have hindex := hfits.index hvisible
    have hwrap : wrap32 (t.cursor.toNat - t.start : ℕ) = (t.cursor.toNat - t.start : ℕ) :=
      wrap32_eq (by omega) (by omega)
    dsimp only
    rw [if_pos ⟨hvisible, hlow, hhigh⟩, hwrap]
    refine ⟨by omega, ?_⟩
    rw [Int.toNat_natCast, LookupTable.window, List.getElem?_range' (by omega)]
    exact congrArg some (by omega)
  · intro hvisible
    dsimp only
    rw [if_neg]
    rintro ⟨hv, -⟩
    exact Bool.false_ne_true (hvisible.symm.trans hv)
  · dsimp only
    rw [hbefore, decide_eq_true_eq, hstart, Ne, List.range_eq_nil]
    omega
  · dsimp only
    rw [decide_eq_true_eq, total_eq hfits, hfinish, hstart, Ne, ← List.length_eq_zero_iff, hafter]
    omega
  · simp only [List.length_map]
  · dsimp only
    intro i hi text htext hne
    simp only [List.length_map] at hi
    have hi' : i < t.finish - t.start := by
      rwa [LookupTable.window, List.length_range'] at hi
    rw [List.map_map, List.getElem?_map, LookupTable.window, List.getElem?_range' (by omega)]
    have hlabel : t.label (t.start + 1 * i - t.start) = text := by
      rw [show t.start + 1 * i - t.start = i by omega, LookupTable.label, htext, Option.getD_some]
      exact if_pos hne
    exact congrArg some hlabel

end

/-! ### Tables that do not fit -/

section
variable (hpaged : t.Paged)
include hpaged

/-- The cursor is in its window. -/
theorem LookupTable.Paged.mem_window {n : ℕ} (hn : n < t.all.length) (hlt : n < 2 ^ 32) :
    n ∈ (t.withCursor (UInt32.ofNat n)).window := by
  have hcursor : (UInt32.ofNat n).toNat = n := UInt32.toNat_ofNat_of_lt' hlt
  obtain ⟨pages, -, hpages⟩ := hpaged
  obtain ⟨before, after, c, -, hmem, -⟩ := hpages (UInt32.ofNat n) (by rwa [hcursor])
  rwa [hcursor] at hmem

theorem LookupTable.Paged.length_lt : t.all.length < 2 ^ 32 := by
  by_contra hge
  have hmod := Nat.mod_lt t.all.length (show 0 < 2 ^ 32 by omega)
  have hmem := hpaged.mem_window (n := t.all.length % 2 ^ 32) (by omega) hmod
  have hlt := (Table.mem_window.mp hmem).2
  have hfinish : (t.withCursor (UInt32.ofNat (t.all.length % 2 ^ 32))).finish ≤
    t.all.length % 2 ^ 32 := Nat.min_le_right _ _
  omega

theorem LookupTable.Paged.fits_pages :
    (t.all.length - 1) / t.size * t.size + t.size < 2 ^ 32 := by
  by_contra hge
  have hlength := hpaged.length_lt
  have hsize := size_lt t
  have hle := Nat.div_mul_le_self (t.all.length - 1) t.size
  have hmany : t.size < t.all.length := by
    by_contra hfew
    rw [Nat.div_eq_of_lt (by have := size_pos t; omega)] at hge
    omega
  obtain ⟨u, hu⟩ : ∃ u, u = t.withCursor (UInt32.ofNat (t.all.length - 1)) := ⟨_, rfl⟩
  have hmem := hpaged.mem_window (n := t.all.length - 1) (by omega) (by omega)
  rw [← hu] at hmem
  have hcursor : u.cursor.toNat = t.all.length - 1 := by
    rw [hu]
    exact UInt32.toNat_ofNat_of_lt' (show t.all.length - 1 < 2 ^ 32 by omega)
  have husize : u.size = t.size := by rw [hu]; rfl
  have htotal : u.total = t.all.length := by
    rw [hu]
    exact Nat.mod_eq_of_lt hlength
  have hstart : u.start = (t.all.length - 1) / t.size * t.size := by
    rw [LookupTable.start, htotal, husize, if_pos hmany, hcursor]
    exact Nat.mod_eq_of_lt (by omega)
  have hfinish : u.finish ≤ u.start + u.size - 2 ^ 32 := by
    refine (Nat.min_le_left _ _).trans ?_
    rw [u32, hstart, husize]
    omega
  obtain ⟨hlow, hhigh⟩ := Table.mem_window.mp hmem
  omega

theorem LookupTable.Paged.fits_index (hvisible : t.cursorVisible = true) :
    min t.all.length t.size ≤ 2 ^ 31 := by
  by_contra hgt
  have hlength := hpaged.length_lt
  obtain ⟨u, hu⟩ : ∃ u, u = t.withCursor (UInt32.ofNat (2 ^ 31)) := ⟨_, rfl⟩
  have hcursor : u.cursor.toNat = 2 ^ 31 := by
    rw [hu]
    rfl
  have husize : u.size = t.size := by rw [hu]; rfl
  have hmem := hpaged.mem_window (n := 2 ^ 31) (by omega) (by omega)
  rw [← hu] at hmem
  obtain ⟨hlow, hhigh⟩ := Table.mem_window.mp hmem
  have hstart : u.start = 0 := by
    rw [LookupTable.start, hcursor, husize, Nat.div_eq_of_lt (by omega), Nat.zero_mul]
    exact ite_self 0
  obtain ⟨pages, -, hpages⟩ := hpaged
  obtain ⟨before, after, c, -, -, -, hc, hshows⟩ := hpages (UInt32.ofNat (2 ^ 31)) (by
    have : (UInt32.ofNat (2 ^ 31)).toNat = 2 ^ 31 := rfl
    omega)
  rw [← hu] at hc hshows
  have huvisible : u.cursorVisible = true := by rw [hu]; exact hvisible
  have hselected := (hshows.selected huvisible).1
  rw [LookupTable.candidatesOf, mapM_row] at hc
  obtain rfl := Option.some_inj.mp hc
  dsimp only at hselected
  rw [if_pos ⟨huvisible, by omega, by omega⟩, hcursor, hstart] at hselected
  exact absurd hselected (by decide)

end

/-- What `ibus_table` makes of a value that passes its checks. -/
theorem ibusTable_of_read {value : Variant} (h : readTable value = some t) :
    ibusTable value = t.candidatesOf := by
  rw [ibusTable, h]
  rfl

/-- More candidates than a page has, on pages of more than half of the numbers of a `uint`. -/
def hugePages : LookupTable where
  pageSize := 2 ^ 31 + 1
  cursor := 2 ^ 31 + 1
  cursorVisible := true
  orientation := 0
  all := List.replicate (2 ^ 31 + 2) (.str [])
  labelValues := []

end Table

end Ime

end SingularityShell
