import SingularityShell.Plist.Model

/-!
# What the reader reads

The positions, the counts and the references in a file are numbers of up to 64 bits. Whether an
index is outside the data is told by the numbers that the reader comes to.

## Main definitions

* `Plist.InBounds` — every index is in the data, and there is a value or an error
* `Plist.number`, `Plist.counted`, `Plist.reference` — the numbers that stand in the data
* `Plist.Whole` — an object that can be read
* `Plist.FarOff` — an object at which a number leads further than 64 bits can tell

## Main results

* `Plist.ends_objectAt` — when an object is read, and when an index is outside the data
* `Plist.inBounds_iff` — the files for which the reader stays in the data
* `Plist.not_inBounds` — a file of 48 bytes whose only object is at the largest offset
-/

namespace SingularityShell

namespace Plist

open Ascii Machine Traced

/-- An index is in the data. -/
def Access.InData (data : Data) : Access → Prop
  | .compare _ _ => True
  | .read index => 0 ≤ index ∧ index < data.val.length

/-- Every index is in the data, and there is a value or an error. -/
def InBounds (data : Data) : Prop :=
  (∀ e ∈ (parse data).log, e.InData data) ∧
    ((∃ v, (parse data).result = .ok v) ∨ ∃ message, (parse data).result = .error (.thrown message))

/-! ### What stands in the data -/

section Format

variable (data : Data) (t : Trailer)

/-- What begins at the position ends further than a number of 64 bits can tell. -/
def Far (pos size : ℤ) : Prop := 0 ≤ pos ∧ 2 ^ 63 ≤ pos + size

/-- The number in some bytes, or what 64 bits hold of it. -/
def number (pos : ℤ) (size : ℕ) : Option ℕ :=
  if 0 ≤ pos ∧ pos + size ≤ data.val.length then
    some (((data.val.drop pos.toNat).take size).foldl (fun v b => v * 256 % 2 ^ 64 + b.toNat) 0)
  else none

/-- A count, which stands in the marker or in an integer after it, and the position after it. -/
def counted (info : ℕ) (pos : ℤ) : Option (ℤ × ℤ) :=
  if info ≠ 15 then some (info, pos)
  else (number data pos 1).bind fun marker =>
    if marker / 16 ≠ 1 then none
    else (number data (pos + 1) (2 ^ (marker % 16))).map fun count : ℕ =>
      (wrap64 count, pos + (1 + (2 ^ (marker % 16) : ℕ)))

/-- The place of an object in the table of offsets. -/
def entryAt (index : ℤ) : ℤ := wrap64 (t.tableOffset + wrap64 (index * t.offsetSize))

def Listed (index : ℤ) : Prop := 0 ≤ index ∧ index < t.numObjects

instance (index : ℤ) : Decidable (Listed t index) := inferInstanceAs (Decidable (_ ∧ _))

/-- The position of an object. -/
def offset (index : ℤ) : Option ℤ :=
  if Listed t index then (number data (entryAt t index) t.offsetSize).map fun v : ℕ => wrap64 v
  else none

/-- The place of reference `i` after a position. -/
def referenceAt (pos i : ℤ) : ℤ := wrap64 (pos + wrap64 (i * t.refSize))

/-- The index of the object that a reference is to. -/
def reference (pos i : ℤ) : Option ℤ :=
  (number data (referenceAt t pos i) t.refSize).map fun v : ℕ => wrap64 v

/-- The place of unit `i` of a text. -/
def unitAt (pos i : ℤ) : ℤ := wrap64 (pos + wrap64 (i * 2))

/-- Numbers that follow each other. -/
def upFrom : ℕ → ℤ → List ℤ
  | 0, _ => []
  | n + 1, i => i :: upFrom n (i + 1)

/-- The references of a dictionary of `count` members, in the order in which they are read. -/
def membersFrom (count : ℤ) : ℕ → ℤ → List ℤ
  | 0, _ => []
  | n + 1, i => i :: wrap64 (count + i) :: membersFrom count n (i + 1)

/-- Something on a list is `far`, and what comes before it is `whole`. -/
def Comes (whole far : ℤ → Prop) : List ℤ → Prop
  | [] => False
  | i :: l => far i ∨ whole i ∧ Comes whole far l

section Object

variable (whole far : ℤ → Prop)

/-- A reference to an object that is `whole`. -/
def WholeRef (pos i : ℤ) : Prop := ∃ index, reference data t pos i = some index ∧ whole index

/-- A reference whose place is far off, or to an object that is `far`. -/
def FarRef (pos i : ℤ) : Prop :=
  Far (referenceAt t pos i) t.refSize ∨ ∃ index, reference data t pos i = some index ∧ far index

/-- The rest of an object can be read, where those it refers to can be read that are `whole`. -/
def WholeType (type info : ℕ) (pos : ℤ) : Prop :=
  match type with
  | 1 => (number data pos (min (2 ^ info) 8)).isSome
  | 2 => (number data pos (2 ^ info)).isSome ∧ (2 ^ info = 4 ∨ 2 ^ info = 8)
  | 4 | 5 => ∃ c, counted data info pos = some c ∧ c.2 + c.1 ≤ data.val.length
  | 6 => ∃ c, counted data info pos = some c ∧
      ∀ i ∈ upFrom c.1.toNat 0, (number data (unitAt c.2 i) 2).isSome
  | 10 => ∃ c, counted data info pos = some c ∧
      ∀ i ∈ upFrom c.1.toNat 0, WholeRef data t whole c.2 i
  | 13 => ∃ c, counted data info pos = some c ∧
      ∀ i ∈ membersFrom c.1 c.1.toNat 0, WholeRef data t whole c.2 i
  | _ => True

/-- A number in the rest of an object leads far off: the count of a text, the place of a unit or
that of a reference, or what is `far` is referred to. What comes before it can be read. -/
def FarType (type info : ℕ) (pos : ℤ) : Prop :=
  match type with
  | 4 | 5 => ∃ c, counted data info pos = some c ∧ 2 ^ 63 ≤ c.2 + c.1
  | 6 => ∃ c, counted data info pos = some c ∧
      Comes (fun i => (number data (unitAt c.2 i) 2).isSome) (fun i => Far (unitAt c.2 i) 2)
        (upFrom c.1.toNat 0)
  | 10 => ∃ c, counted data info pos = some c ∧
      Comes (WholeRef data t whole c.2) (FarRef data t far c.2) (upFrom c.1.toNat 0)
  | 13 => ∃ c, counted data info pos = some c ∧
      Comes (WholeRef data t whole c.2) (FarRef data t far c.2) (membersFrom c.1 c.1.toNat 0)
  | _ => False

end Object

/-- An object that can be read, `left` levels above the limit of the depth. -/
def Whole : ℕ → ℤ → Prop
  | 0, _ => False
  | left + 1, index => ∃ pos, offset data t index = some pos ∧
      ∃ marker, number data pos 1 = some marker ∧
        WholeType data t (Whole left) (marker / 16) (marker % 16) (pos + 1)

/-- An object with a number that leads far off: its place in the table, its offset, or a number in
it or in an object that it refers to. What is read before it can be read. -/
def FarOff : ℕ → ℤ → Prop
  | 0, _ => False
  | left + 1, index => (Listed t index ∧ Far (entryAt t index) t.offsetSize) ∨
      ∃ pos, offset data t index = some pos ∧ (Far pos 1 ∨
        ∃ marker, number data pos 1 = some marker ∧
          FarType data t (Whole data t left) (FarOff left) (marker / 16) (marker % 16) (pos + 1))

/-- What the trailer says, and the index of the top object, unless the file is refused. -/
def start : Option (Trailer × ℤ) :=
  if data.val.length < 40 ∨ data.val.take 8 ≠ ofString "bplist00" then none
  else
    let t : ℤ := data.val.length - 32
    (number data (t + 6) 1).bind fun offsetSize =>
    (number data (t + 7) 1).bind fun refSize =>
    (number data (t + 8) 8).bind fun numObjects =>
    (number data (t + 16) 8).bind fun top =>
    (number data (t + 24) 8).bind fun tableOffset =>
      let trailer : Trailer := ⟨offsetSize, refSize, wrap64 numObjects, wrap64 tableOffset⟩
      if trailer.offsetSize < 1 ∨ trailer.offsetSize > 8 ∨ trailer.refSize < 1 ∨
        trailer.refSize > 8 then none
      else if wrap64 (trailer.tableOffset + wrap64 (trailer.numObjects * trailer.offsetSize)) > t ∨
        wrap64 top ≥ trailer.numObjects then none
      else some (trailer, wrap64 top)

/-- The file has an object with a number that leads far off, and it is come to from the top object
before anything that cannot be read. -/
def LeadsFarOff : Prop := ∃ s, start data = some s ∧ FarOff data s.1 64 s.2

end Format

variable {data : Data} {t : Trailer} {object : ℤ → Reader Value} {whole far : ℤ → Prop}

/-- The reader leaves the data in the case `far`, and otherwise reads what `o` is. -/
abbrev ReadsTo {α : Type} (data : Data) (x : Reader α) (o : Option α) (far : Prop) : Prop :=
  Traced.Reads (Access.InData data) (· = .fault) x o far

/-- The reader leaves the data in the case `far`, and otherwise has a value if it is `whole`. -/
abbrev Ends {α : Type} (data : Data) (x : Reader α) (whole far : Prop) : Prop :=
  Traced.Tells (Access.InData data) (· = .fault) x whole far

theorem reads_throws {α : Type} (message : String) :
    ReadsTo data (throws message : Reader α) none False :=
  reads_stop (by simp)

theorem ends_throws {α : Type} (message : String) :
    Ends data (throws message : Reader α) False False :=
  tells_stop (by simp)

/-! ### Bytes -/

/-- An index that is in the data. -/
theorem gives_byte {index : ℤ} {b : UInt8} (h : 0 ≤ index)
    (hb : data.val[index.toNat]? = some b) : Gives (Access.InData data) (byte data index) b := by
  have hlt := (List.getElem?_eq_some_iff.mp hb).1
  refine ⟨?_, fun e he => ?_⟩
  · rw [byte, if_neg (by omega), hb]
  · obtain rfl := List.mem_singleton.mp he
    exact ⟨h, by omega⟩

/-- An index that is not. -/
theorem fails_byte {index : ℤ} (h : index < 0 ∨ data.val.length ≤ index) :
    Fails (Access.InData data) (· = .fault) (byte data index) := by
  refine ⟨⟨.fault, ?_, rfl⟩, .read index, List.mem_singleton_self _, ?_⟩
  · rw [byte]
    split_ifs with hneg
    · rfl
    · rw [List.getElem?_eq_none (by omega)]
  · rintro ⟨h1, h2⟩
    omega

theorem gives_overflows (data : Data) (pos count : ℤ) :
    Gives (Access.InData data) (overflows data pos count)
      (wrap64 (pos + count) > data.val.length) :=
  ⟨rfl, fun _ he => List.mem_singleton.mp he ▸ trivial⟩

theorem gives_readUintFrom {pos : ℤ} {n : ℕ} {i : ℤ} {v : ℕ} (hpos : 0 ≤ pos) (hi : 0 ≤ i)
    (hn : pos + i + n ≤ data.val.length) :
    Gives (Access.InData data) (readUintFrom data pos n i v)
      (((data.val.drop (pos + i).toNat).take n).foldl
        (fun v b => v * 256 % 2 ^ 64 + b.toNat) v) := by
  induction n generalizing i v with
  | zero => exact gives_pure v
  | succ n ih =>
    have hlen := data.property
    push_cast at hn
    have hwrap : wrap64 (pos + i) = pos + i := wrap64_eq (by omega) (by omega)
    have hlt : (pos + i).toNat < data.val.length := by omega
    have hnext : (pos + (i + 1)).toNat = (pos + i).toNat + 1 := by omega
    rw [readUintFrom, hwrap, List.drop_eq_getElem_cons hlt, List.take_succ_cons, List.foldl_cons,
      ← hnext]
    exact (gives_byte (by omega) (List.getElem?_eq_getElem hlt)).bind (ih (by omega) (by omega))

/-- `read_uint` at any position, for the sizes that occur. -/
theorem reads_readUint (data : Data) (pos : ℤ) (size : ℕ) (hlow : -2 ^ 63 ≤ pos)
    (hhigh : pos < 2 ^ 63) (hsize : 1 ≤ size) (hsize' : size ≤ 2 ^ 15) :
    ReadsTo data (readUint data pos size) (number data pos size) (Far pos size) := by
  have hlen := data.property
  have hover := gives_overflows data pos size
  rw [readUint, number, Far]
  by_cases hneg : pos < 0
  · rw [if_pos hneg, if_neg (by omega)]
    exact (reads_throws _).congr rfl ⟨False.elim, fun h => hneg.not_ge h.1⟩
  rw [if_neg hneg]
  by_cases hfar : 2 ^ 63 ≤ pos + size
  · -- The sum wraps around to a negative number, the check passes, and the first index is far
    -- beyond the data.
    obtain ⟨n, rfl⟩ : ∃ n, size = n + 1 := ⟨size - 1, by omega⟩
    have hpass : decide (wrap64 (pos + (n + 1 : ℕ)) > data.val.length) = false := by
      rw [wrap64_of_ge (by omega) (by omega)]
      exact decide_eq_false (by omega)
    rw [hpass] at hover
    have hfails : Fails (Access.InData data) (· = .fault) (readUintFrom data pos (n + 1) 0 0) := by
      rw [readUintFrom, add_zero, wrap64_eq hlow hhigh]
      exact (fails_byte (by omega)).bind _
    exact .of_fails ⟨by omega, hfar⟩ (hover.bind_fails hfails)
  · have hnear : ¬(0 ≤ pos ∧ 2 ^ 63 ≤ pos + size) := fun h => hfar h.2
    rw [wrap64_eq (by omega) (by omega)] at hover
    by_cases hfit : pos + size ≤ data.val.length
    · rw [decide_eq_false (by omega)] at hover
      rw [if_pos ⟨by omega, hfit⟩]
      have hread := gives_readUintFrom (v := 0) (not_lt.mp hneg) le_rfl (by omega :
        pos + 0 + size ≤ data.val.length)
      rw [add_zero] at hread
      exact .of_gives hnear (hover.bind hread)
    · rw [decide_eq_true (by omega)] at hover
      rw [if_neg (by omega)]
      exact .of_refuses hnear (hover.bind_refuses (refuses_stop (by simp)))

theorem number_bounds {pos : ℤ} {size v : ℕ} (h : number data pos size = some v) :
    0 ≤ pos ∧ pos + size ≤ data.val.length := by
  rw [number] at h
  split_ifs at h with hin
  exact hin

/-- A number that is in the data. -/
theorem gives_readUint (data : Data) (pos : ℤ) (size : ℕ) (h : 0 ≤ pos)
    (h' : pos + size ≤ data.val.length) (hsize : 1 ≤ size) (hsize' : size ≤ 2 ^ 15) :
    ∃ v, number data pos size = some v ∧ Gives (Access.InData data) (readUint data pos size) v := by
  have hlen := data.property
  have hread := reads_readUint data pos _ (by omega) (by omega) hsize hsize'
  have hnear : ¬Far pos size := fun hfar => by
    have := hfar.2
    omega
  cases hv : number data pos size with
  | none =>
    rw [number, if_pos ⟨h, h'⟩] at hv
    exact absurd hv (Option.some_ne_none _)
  | some v => exact ⟨v, rfl, hread.gives hnear v hv⟩

theorem gives_byte_of_lt (data : Data) (pos : ℤ) (h : 0 ≤ pos) (h' : pos < data.val.length) :
    ∃ b : UInt8,
      number data pos 1 = some b.toNat ∧ Gives (Access.InData data) (byte data pos) b := by
  have hlt : pos.toNat < data.val.length := by omega
  refine ⟨data.val[pos.toNat], ?_, gives_byte h (List.getElem?_eq_getElem hlt)⟩
  rw [number, if_pos ⟨h, by omega⟩, List.drop_eq_getElem_cons hlt, List.take_succ_cons,
    List.take_zero]
  simp

/-- A number at a position in the data is not far off. -/
theorem not_far {pos : ℤ} {size : ℕ} (h : pos ≤ data.val.length) (hsize : size ≤ 2 ^ 15) :
    ¬Far pos size := by
  have hlen := data.property
  rintro ⟨-, hfar⟩
  omega

/-! ### Counts and loops -/

theorem reads_readCount (info : ℕ) {pos : ℤ} (h : 0 ≤ pos) (h' : pos ≤ data.val.length) :
    ReadsTo data (readCount data info pos) (counted data info pos) False := by
  have hlen := data.property
  rw [readCount, counted]
  by_cases h15 : info ≠ 15
  · rw [if_pos h15, if_pos h15]
    exact reads_pure _
  rw [if_neg h15, if_neg h15]
  have hmarker := reads_readUint data pos 1 (by omega) (by omega)
    le_rfl (by norm_num)
  refine (hmarker.bind fun marker hm => (?_ : ReadsTo data _ _ False)).congr rfl ?_
  · by_cases hbad : marker / 16 ≠ 1
    · rw [if_pos hbad, if_pos hbad]
      exact reads_throws _
    rw [if_neg hbad, if_neg hbad]
    have hsize : 2 ^ (marker % 16) ≤ 2 ^ 15 := Nat.pow_le_pow_right (by norm_num) (by omega)
    have hsize' : 1 ≤ 2 ^ (marker % 16) := Nat.one_le_two_pow
    obtain ⟨-, hm⟩ := number_bounds hm
    have hwrap : wrap64 (pos + 1) = pos + 1 := wrap64_eq (by omega) (by omega)
    obtain ⟨size, hs⟩ : ∃ size, size = 2 ^ (marker % 16) := ⟨_, rfl⟩
    rw [← hs] at hsize hsize' ⊢
    dsimp only
    rw [hwrap]
    have hcount := reads_readUint data (pos + 1) size (by omega) (by omega) hsize' hsize
    have hend : wrap64 (pos + (1 + (size : ℤ))) = pos + (1 + size) :=
      wrap64_eq (by omega) (by omega)
    refine (hcount.bind fun count _ => (?_ : ReadsTo data _ _ False)).congr
      (Option.map_eq_bind ..).symm ?_
    · rw [hend]
      exact reads_pure _
    · have := not_far hm hsize
      simpa using this
  · have := not_far h' (by norm_num : 1 ≤ 2 ^ 15)
    simpa using this

theorem counted_bounds {info : ℕ} {pos : ℤ} {c : ℤ × ℤ} (hinfo : info < 16) (h : 0 ≤ pos)
    (h' : pos ≤ data.val.length) (hc : counted data info pos = some c) :
    (-2 ^ 63 ≤ c.1 ∧ c.1 < 2 ^ 63) ∧ 0 ≤ c.2 ∧ c.2 ≤ data.val.length := by
  rw [counted] at hc
  split_ifs at hc with h15
  · obtain rfl := Option.some.inj hc
    dsimp only
    omega
  · obtain ⟨marker, -, hc⟩ := Option.bind_eq_some_iff.mp hc
    split_ifs at hc
    obtain ⟨count, hcount, rfl⟩ := Option.map_eq_some_iff.mp hc
    obtain ⟨size, hs⟩ : ∃ size, size = 2 ^ (marker % 16) := ⟨_, rfl⟩
    rw [← hs] at hcount ⊢
    obtain ⟨-, hle⟩ := number_bounds hcount
    have hbounds := wrap64_bounds count
    dsimp only
    omega

/-- The loop over a text stays in the data as long as the text does. -/
theorem gives_readText (data : Data) {pos : ℤ} {n : ℕ} {i : ℤ} (hpos : 0 ≤ pos) (hi : 0 ≤ i)
    (hn : pos + i + n ≤ data.val.length) :
    ∃ text, Gives (Access.InData data) (readText data pos n i) text := by
  induction n generalizing i with
  | zero => exact ⟨_, gives_pure _⟩
  | succ n ih =>
    have hlen := data.property
    push_cast at hn
    have hwrap : wrap64 (pos + i) = pos + i := wrap64_eq (by omega) (by omega)
    obtain ⟨text, htext⟩ := ih (i := i + 1) (by omega) (by omega)
    rw [readText, hwrap]
    exact ⟨_, (gives_byte (by omega) (List.getElem?_eq_getElem (by omega))).bind
      (htext.bind (gives_pure _))⟩

/-- It leaves the data where the text does. -/
theorem fails_readText (data : Data) {pos : ℤ} {n : ℕ} {i : ℤ} (hpos : 0 ≤ pos) (hi : 0 ≤ i)
    (hle : pos + i ≤ data.val.length) (hn : data.val.length < pos + i + n) :
    Fails (Access.InData data) (· = .fault) (readText data pos n i) := by
  induction n generalizing i with
  | zero =>
    push_cast at hn
    omega
  | succ n ih =>
    have hlen := data.property
    push_cast at hn
    have hwrap : wrap64 (pos + i) = pos + i := wrap64_eq (by omega) (by omega)
    rw [readText, hwrap]
    by_cases hend : pos + i = data.val.length
    · exact (fails_byte (.inr hend.ge)).bind _
    · exact (gives_byte (by omega) (List.getElem?_eq_getElem (by omega))).bind_fails
        ((ih (by omega) (by omega) (by omega)).bind _)

theorem ends_readUnits {pos : ℤ} (n : ℕ) (i : ℤ) :
    Ends data (readUnits data pos n i)
      (∀ j ∈ upFrom n i, (number data (unitAt pos j) 2).isSome)
      (Comes (fun j => (number data (unitAt pos j) 2).isSome) (fun j => Far (unitAt pos j) 2)
        (upFrom n i)) := by
  induction n generalizing i with
  | zero => exact (tells_pure []).congr (by simp [upFrom]) Iff.rfl
  | succ n ih =>
    have hunit := reads_readUint data (unitAt pos i) 2 (wrap64_bounds _).1 (wrap64_bounds _).2
      (by norm_num) (by norm_num)
    rw [readUnits]
    refine (hunit.tells fun c _ => (ih (i + 1)).bind fun text => tells_pure _).congr ?_ ?_
    · rw [upFrom, List.forall_mem_cons, Option.isSome_iff_exists, exists_and_right, and_true]
    · rw [upFrom, Comes, Option.isSome_iff_exists, exists_and_right, and_false, or_false]
      rfl

/-! ### Objects -/

/-- Sizes that the trailer may give. -/
structure Trailer.Sizes (t : Trailer) : Prop where
  offset : 1 ≤ t.offsetSize ∧ t.offsetSize ≤ 8
  ref : 1 ≤ t.refSize ∧ t.refSize ≤ 8

theorem reads_offsetOf (ht : t.Sizes) (index : ℤ) :
    ReadsTo data (offsetOf data t index) (offset data t index)
      (Listed t index ∧ Far (entryAt t index) t.offsetSize) := by
  obtain ⟨h1, h8⟩ := ht.offset
  rw [offsetOf, offset]
  by_cases hlisted : Listed t index
  · have hout : ¬(index < 0 ∨ index ≥ t.numObjects) := by
      rw [Listed] at hlisted
      omega
    have hentry := reads_readUint data (entryAt t index) t.offsetSize (wrap64_bounds _).1
      (wrap64_bounds _).2 h1 (by omega)
    rw [if_neg hout, if_pos hlisted, and_iff_right hlisted]
    refine (hentry.bind fun v _ => (reads_pure _ : ReadsTo data _ _ False)).congr
      (Option.map_eq_bind ..).symm ?_
    simp
  · have hout : index < 0 ∨ index ≥ t.numObjects := by
      rw [Listed] at hlisted
      omega
    rw [if_pos hout, if_neg hlisted]
    exact (reads_throws _).congr rfl (by simp [hlisted])

/-- What is told of the objects that an object refers to. -/
abbrev Refers (data : Data) (object : ℤ → Reader Value) (whole far : ℤ → Prop) : Prop :=
  ∀ index, Ends data (object index) (whole index) (far index)

theorem ends_readRef (ht : t.Sizes) (ho : Refers data object whole far) (pos i : ℤ) :
    Ends data (readRef data t object pos i) (WholeRef data t whole pos i)
      (FarRef data t far pos i) := by
  obtain ⟨h1, h8⟩ := ht.ref
  have hplace := reads_readUint data (referenceAt t pos i) t.refSize (wrap64_bounds _).1
    (wrap64_bounds _).2 h1 (by omega)
  refine (hplace.tells fun v _ => ho (wrap64 v)).congr ?_ (or_congr Iff.rfl ?_)
  · simp [WholeRef, reference]
  · simp [reference]

theorem ends_readItems (ht : t.Sizes) (ho : Refers data object whole far) (pos : ℤ) (n : ℕ)
    (i : ℤ) : Ends data (readItems data t object pos n i)
      (∀ j ∈ upFrom n i, WholeRef data t whole pos j)
      (Comes (WholeRef data t whole pos) (FarRef data t far pos) (upFrom n i)) := by
  induction n generalizing i with
  | zero => exact (tells_pure []).congr (by simp [upFrom]) Iff.rfl
  | succ n ih =>
    rw [readItems]
    refine ((ends_readRef ht ho pos i).bind fun v => (ih (i + 1)).bind fun items =>
      tells_pure _).congr ?_ ?_
    · rw [upFrom, List.forall_mem_cons, and_true]
    · rw [upFrom, Comes, and_false, or_false]

theorem ends_readMembers (ht : t.Sizes) (ho : Refers data object whole far) (pos count : ℤ)
    (n : ℕ) (i : ℤ) (members : List (Text × Value)) :
    Ends data (readMembers data t object pos count n i members)
      (∀ j ∈ membersFrom count n i, WholeRef data t whole pos j)
      (Comes (WholeRef data t whole pos) (FarRef data t far pos) (membersFrom count n i)) := by
  induction n generalizing i members with
  | zero => exact (tells_pure members).congr (by simp [membersFrom]) Iff.rfl
  | succ n ih =>
    rw [readMembers]
    refine ((ends_readRef ht ho pos i).bind fun key => (ends_readRef ht ho pos _).bind fun val =>
      ih (i + 1) _).congr ?_ ?_
    · rw [membersFrom, List.forall_mem_cons, List.forall_mem_cons]
    · rw [membersFrom, Comes, Comes]

/-- A text: either the comparison is right, or its count is so large that the loop leaves the
data. -/
theorem ends_readBytes {type info : ℕ} {pos : ℤ} (hinfo : info < 16) (h : 0 ≤ pos)
    (h' : pos ≤ data.val.length) : Ends data (readBytes data type info pos)
      (∃ c, counted data info pos = some c ∧ c.2 + c.1 ≤ data.val.length)
      (∃ c, counted data info pos = some c ∧ 2 ^ 63 ≤ c.2 + c.1) := by
  have hlen := data.property
  rw [readBytes]
  refine ((reads_readCount info h h').tells fun c hc => ?_).congr Iff.rfl
    (iff_of_eq (false_or _))
  obtain ⟨count, pos'⟩ := c
  obtain ⟨⟨hlow, hhigh⟩, hpos, hpos'⟩ := counted_bounds hinfo h h' hc
  dsimp only at hlow hhigh hpos hpos' ⊢
  have hover := gives_overflows data pos' count
  by_cases hfar : 2 ^ 63 ≤ pos' + count
  · rw [wrap64_of_ge hfar (by omega), decide_eq_false (by omega)] at hover
    have hfails := fails_readText data (n := count.toNat) hpos le_rfl (by omega) (by omega)
    exact .of_fails hfar (hover.bind_fails (hfails.bind _))
  rw [wrap64_eq (by omega) (by omega)] at hover
  by_cases hfit : pos' + count ≤ data.val.length
  · rw [decide_eq_false (by omega)] at hover
    obtain ⟨text, htext⟩ := gives_readText data (n := count.toNat) hpos le_rfl (by omega)
    exact .of_gives hfar hfit (hover.bind (htext.bind (gives_pure _)))
  · rw [decide_eq_true (by omega)] at hover
    exact .of_refuses hfar hfit (hover.bind_refuses (refuses_stop (by simp)))

/-- The rest of an object. -/
theorem ends_readType (ht : t.Sizes) (ho : Refers data object whole far) {type info : ℕ} {pos : ℤ}
    (hinfo : info < 16) (h : 0 ≤ pos) (h' : pos ≤ data.val.length) :
    Ends data (readType data t object type info pos) (WholeType data t whole type info pos)
      (FarType data t whole far type info pos) := by
  have hlen := data.property
  have hsize : 1 ≤ 2 ^ info := Nat.one_le_two_pow
  have hsize' : 2 ^ info ≤ 2 ^ 15 := Nat.pow_le_pow_right (by norm_num) (by omega)
  have hcount := reads_readCount info h h'
  rw [readType.eq_def]
  split
  · rw [WholeType, FarType]
    · exact tells_pure _
    all_goals simp
  · have hint := reads_readUint data pos (min (2 ^ info) 8) (by omega) (by omega) (by omega)
      (by omega)
    rw [WholeType, FarType, Option.isSome_iff_exists]
    · refine (hint.tells fun raw _ => (tells_pure _ : Ends data _ True False)).congr ?_ ?_
      · simp
      · have := not_far h' (by omega : min (2 ^ info) 8 ≤ 2 ^ 15)
        simpa using this
    all_goals simp
  · have hreal := reads_readUint data pos _ (by omega) (by omega) hsize hsize'
    rw [WholeType, FarType, Option.isSome_iff_exists]
    · refine (hreal.tells fun raw _ =>
        (?_ : Ends data _ (2 ^ info = 4 ∨ 2 ^ info = 8) False)).congr ?_ ?_
      · split_ifs with h4 h8
        · exact (tells_pure _).congr (by simp [h4]) Iff.rfl
        · exact (tells_pure _).congr (by simp [h8]) Iff.rfl
        · exact (ends_throws _).congr (by simp [h4, h8]) Iff.rfl
      · rw [exists_and_right]
      · have := not_far h' hsize'
        simpa using this
    all_goals simp
  · exact ends_readBytes hinfo h h'
  · exact ends_readBytes hinfo h h'
  · refine (hcount.tells fun c _ => (ends_readUnits _ _).bind fun text => tells_pure _).congr ?_ ?_
    · simp [WholeType]
    · simp [FarType]
  · refine (hcount.tells fun c _ => (ends_readItems ht ho _ _ _).bind fun items =>
      tells_pure _).congr ?_ ?_
    · simp [WholeType]
    · simp [FarType]
  · refine (hcount.tells fun c _ => (ends_readMembers ht ho _ _ _ _ _).bind fun members =>
      tells_pure _).congr ?_ ?_
    · simp [WholeType]
    · simp [FarType]
  · rw [WholeType, FarType]
    · exact tells_pure _
    all_goals assumption

/-- **The objects of a file.** An object is read when it is whole, and at one that is far off an
index is outside the data. -/
theorem ends_objectAt (ht : t.Sizes) (left : ℕ) (index : ℤ) :
    Ends data (objectAt data t left index) (Whole data t left index)
      (FarOff data t left index) := by
  induction left generalizing index with
  | zero => exact ends_throws _
  | succ left ih =>
    have hlen := data.property
    rw [objectAt, Whole, FarOff]
    refine (reads_offsetOf ht index).tells fun pos hpos => ?_
    obtain ⟨v, -, rfl⟩ : ∃ v, number data (entryAt t index) t.offsetSize = some v ∧
        wrap64 v = pos := by
      rw [offset] at hpos
      split_ifs at hpos
      exact Option.map_eq_some_iff.mp hpos
    have hmarker := reads_readUint data (wrap64 v) 1 (wrap64_bounds _).1 (wrap64_bounds _).2 le_rfl
      (by norm_num)
    refine hmarker.tells fun marker hm => ?_
    obtain ⟨hlow, hhigh⟩ := number_bounds hm
    have hwrap : wrap64 (wrap64 v + 1) = wrap64 v + 1 := wrap64_eq (by omega) (by omega)
    rw [hwrap]
    exact ends_readType ht ih (Nat.mod_lt _ (by norm_num)) (by omega) (by omega)

theorem ends_parse (data : Data) : Ends data (parse data)
    (∃ s, start data = some s ∧ Whole data s.1 64 s.2) (LeadsFarOff data) := by
  have hlen := data.property
  rw [parse, LeadsFarOff, start]
  by_cases hhead : data.val.length < 40 ∨ data.val.take 8 ≠ ofString "bplist00"
  · rw [if_pos hhead, if_pos hhead]
    exact (ends_throws _).congr (by simp) (by simp)
  rw [if_neg hhead, if_neg hhead]
  have hlong : 40 ≤ data.val.length := not_lt.mp fun h => hhead (.inl h)
  generalize 64 = left
  obtain ⟨t, ht⟩ : ∃ t : ℤ, t = data.val.length - 32 := ⟨_, rfl⟩
  simp only [← ht]
  obtain ⟨o, ho, hread⟩ := gives_byte_of_lt data (t + 6) (by omega) (by omega)
  obtain ⟨r, hr, hread'⟩ := gives_byte_of_lt data (t + 7) (by omega) (by omega)
  obtain ⟨n, hn, hnum⟩ := gives_readUint data (t + 8) 8 (by omega) (by omega) (by norm_num)
    (by norm_num)
  obtain ⟨top, htop, hnum'⟩ := gives_readUint data (t + 16) 8 (by omega) (by omega)
    (by norm_num) (by norm_num)
  obtain ⟨table, htable, hnum''⟩ := gives_readUint data (t + 24) 8 (by omega) (by omega)
    (by norm_num) (by norm_num)
  simp only [ho, hr, hn, htop, htable, Option.bind_some]
  refine hread.bind_tells (hread'.bind_tells (hnum.bind_tells (hnum'.bind_tells
    (hnum''.bind_tells ?_))))
  by_cases hsizes : (o.toNat < 1 ∨ o.toNat > 8 ∨ r.toNat < 1 ∨ r.toNat > 8)
  · rw [if_pos hsizes, if_pos hsizes]
    exact (ends_throws _).congr (by simp) (by simp)
  rw [if_neg hsizes, if_neg hsizes]
  split_ifs with hbad
  · exact (ends_throws _).congr (by simp) (by simp)
  · refine (ends_objectAt ⟨?_, ?_⟩ left (wrap64 top)).congr (by simp) (by simp)
    · dsimp only
      omega
    · dsimp only
      omega

/-! ### The whole reader -/

/-- **When the reader stays in its input**: exactly when the file does not lead far off. -/
theorem inBounds_iff (data : Data) : InBounds data ↔ ¬LeadsFarOff data := by
  have h := ends_parse data
  constructor
  · rintro ⟨hin, -⟩ hfar
    obtain ⟨-, e, he, hbad⟩ := h.fails hfar
    exact hbad (hin e he)
  · intro hfar
    by_cases hwhole : ∃ s, start data = some s ∧ Whole data s.1 64 s.2
    · obtain ⟨v, hv, hin⟩ := h.gives hfar hwhole
      exact ⟨hin, .inl ⟨v, hv⟩⟩
    · obtain ⟨⟨s, hs, hthrown⟩, hin⟩ := h.refuses hfar hwhole
      cases s with
      | thrown message => exact ⟨hin, .inr ⟨message, hs⟩⟩
      | fault => exact absurd rfl hthrown

/-- One object, at the largest offset. -/
def farObject : Data where
  val := ofString "bplist00" ++ [127, 255, 255, 255, 255, 255, 255, 255] ++ [0, 0, 0, 0, 0, 0] ++
    [8, 1] ++ [0, 0, 0, 0, 0, 0, 0, 1] ++ [0, 0, 0, 0, 0, 0, 0, 0] ++ [0, 0, 0, 0, 0, 0, 0, 8]
  property := by decide

theorem not_inBounds : ¬∀ data, InBounds data := fun h => by
  have hread := (h farObject).1 (.read (2 ^ 63 - 1)) (by decide)
  exact absurd hread.2 (by decide)

end Plist

end SingularityShell
