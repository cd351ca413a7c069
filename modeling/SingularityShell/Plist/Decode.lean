import Mathlib.Data.List.TakeWhile
import Mathlib.Data.Nat.ModEq
import Mathlib.Tactic.Ring
import SingularityShell.Plist.Format

/-!
# Reading what is written

The reader against the format, for numbers, counts and scalars.

## Main definitions

* `Plist.Form.decoded` — what the reader makes of a scalar

## Main results

* `Plist.readObject_scalar` — every scalar that stands somewhere is read
* `Plist.decoded_eq_meant_iff` — the scalars that are understood
-/

namespace SingularityShell

namespace Plist

open Ascii Machine Traced

variable {data : Data} {t : Layout} {object : ℤ → Reader Value} {pos n v : ℕ}
  {bytes bytes' : List UInt8}

/-! ### Bytes -/

@[simp] theorem length_be (n v : ℕ) : (be n v).length = n := by
  induction n with
  | zero => rfl
  | succ n ih => rw [be, List.length_cons, ih]

theorem length_flatMap_be (n : ℕ) (vs : List ℕ) : (vs.flatMap (be n)).length = vs.length * n := by
  induction vs with
  | nil => exact (Nat.zero_mul n).symm
  | cons v vs ih =>
    rw [List.flatMap_cons, List.length_append, length_be, ih, List.length_cons]; ring

/-- The first bytes of a number are the number of the upper half. -/
theorem be_add (m n v : ℕ) : be (m + n) v = be m (v / 256 ^ n) ++ be n v := by
  induction m with
  | zero => rw [Nat.zero_add, be, List.nil_append]
  | succ m ih =>
    rw [Nat.add_right_comm, be, ih, be, List.cons_append, Nat.div_div_eq_div_mul, ← pow_add,
      Nat.add_comm n m]

theorem At.length_le (h : At data pos bytes) (hne : bytes ≠ []) :
    pos + bytes.length ≤ data.val.length := by
  have hle := List.IsPrefix.length_le h
  have hpos := List.length_pos_iff.mpr hne
  rw [List.length_drop] at hle
  omega

theorem At.length_le_data (h : At data pos bytes) : bytes.length ≤ data.val.length := by
  have hle := List.IsPrefix.length_le h
  rw [List.length_drop] at hle
  omega

theorem At.append (h : At data pos (bytes ++ bytes')) :
    At data pos bytes ∧ At data (pos + bytes.length) bytes' := by
  refine ⟨(List.prefix_append _ _).trans h, ?_⟩
  obtain ⟨rest, hrest⟩ := h
  rw [At, ← List.drop_drop, ← hrest, List.append_assoc, List.drop_left]
  exact List.prefix_append _ _

theorem At.getElem? {b : UInt8} (h : At data pos (b :: bytes)) : data.val[pos]? = some b := by
  obtain ⟨rest, hrest⟩ := h
  have := congrArg List.head? hrest
  rw [List.head?_drop] at this
  exact this.symm

theorem At.tail {b : UInt8} (h : At data pos (b :: bytes)) : At data (pos + 1) bytes :=
  (@At.append data pos [b] bytes h).2

/-- A byte that stands somewhere is read. -/
theorem byte_at {b : UInt8} (h : At data pos (b :: bytes)) : (byte data pos).result = .ok b := by
  rw [byte, if_neg (by omega), Int.toNat_natCast, h.getElem?]

/-- The loop of `read_uint` over bytes that stand there. -/
theorem readUintFrom_at {i : ℕ} (h : At data (pos + i) bytes) (w : ℕ) :
    (readUintFrom data pos bytes.length i w).result =
      .ok (bytes.foldl (fun v b => v * 256 % 2 ^ 64 + b.toNat) w) := by
  induction bytes generalizing i w with
  | nil => rfl
  | cons b bytes ih =>
    have hle := h.length_le (List.cons_ne_nil _ _)
    have hlen := data.property
    rw [List.length_cons] at hle
    have hwrap : wrap64 ((pos : ℤ) + i) = ((pos + i : ℕ) : ℤ) := by
      rw [wrap64_eq (by omega) (by omega)]
      push_cast
      rfl
    rw [List.length_cons, readUintFrom, hwrap, result_bind (byte_at h), List.foldl_cons]
    exact ih (i := i + 1) h.tail _

theorem foldl_be (n v : ℕ) {w : ℕ} (hw : w < 2 ^ 64) :
    (be n v).foldl
        (fun v b => v * 256 % 2 ^ 64 + b.toNat) w = (w * 256 ^ n + v % 256 ^ n) % 2 ^ 64 := by
  induction n generalizing w with
  | zero =>
    rw [be, List.foldl_nil, pow_zero, Nat.mul_one, Nat.mod_one, Nat.add_zero, Nat.mod_eq_of_lt hw]
  | succ n ih =>
    have hb : (v / 256 ^ n).toUInt8.toNat = v / 256 ^ n % 256 := by
      rw [Nat.toUInt8_eq, UInt8.toNat_ofNat']
    have hsum : w * 256 % 2 ^ 64 + v / 256 ^ n % 256 = (w * 256 + v / 256 ^ n % 256) % 2 ^ 64 := by
      omega
    have hmod : (w * 256 + v / 256 ^ n % 256) % 2 ^ 64 * 256 ^ n + v % 256 ^ n ≡
        (w * 256 + v / 256 ^ n % 256) * 256 ^ n + v % 256 ^ n [MOD 2 ^ 64] :=
      ((Nat.mod_modEq _ _).mul_right _).add_right _
    have hdiv : v % 256 ^ (n + 1) = v % 256 ^ n + 256 ^ n * (v / 256 ^ n % 256) := by
      rw [pow_succ, Nat.mod_mul]
    rw [be, List.foldl_cons, hb, hsum, ih (Nat.mod_lt _ (by norm_num)), hdiv]
    refine Eq.trans hmod (congrArg (· % 2 ^ 64) ?_)
    ring

/-- `read_uint` of a number that stands there. -/
theorem readUint_at (h : At data pos (be n v)) (hn : n ≠ 0) (hv : v < 256 ^ n) :
    (readUint data pos n).result = .ok (v % 2 ^ 64) := by
  have hle := h.length_le (by
    intro he
    exact hn (by simpa using congrArg List.length he))
  have hlen := data.property
  rw [length_be] at hle
  have hover : (overflows data pos n).result = .ok false := by
    rw [overflows, wrap64_eq (by omega) (by omega)]
    exact congrArg Except.ok (decide_eq_false (by omega))
  have hread := readUintFrom_at (i := 0) h 0
  rw [length_be, foldl_be _ _ (by norm_num), Nat.zero_mul, Nat.zero_add,
    Nat.mod_eq_of_lt hv] at hread
  rw [readUint, if_neg (by omega), result_bind hover, if_neg (by decide)]
  exact hread

/-- A number that fits in eight bytes is read as it is. -/
theorem readUint_at_of_lt (h : At data pos (be n v)) (hn : n ≠ 0) (hv : v < 256 ^ n)
    (hv' : v < 2 ^ 64) : (readUint data pos n).result = .ok v := by
  rw [readUint_at h hn hv, Nat.mod_eq_of_lt hv']

/-! ### Markers and counts -/

/-- The marker of an object. -/
theorem marker_at {type info : ℕ} (ht : type < 16) (hi : info < 16)
    (h : At data pos ((type * 16 + info).toUInt8 :: bytes)) :
    (readUint data pos 1).result = .ok (type * 16 + info) := by
  have hone : (type * 16 + info).toUInt8 :: [] = be 1 (type * 16 + info) := by
    simp [be]
  have hat : At data pos (be 1 (type * 16 + info)) := by
    rw [← hone]
    exact (@At.append data pos [_] bytes h).1
  exact readUint_at_of_lt hat (by omega) (by omega) (by omega)

/-- The count of an object is read in each of its forms, and the position after it. -/
theorem readCount_at {type count : ℕ} {head : List UInt8} (hhead : Head type count head)
    (h : At data pos (head ++ bytes)) :
    ∃ info < 16, head = (type * 16 + info).toUInt8 :: head.tail ∧
      (count < 2 ^ 63 → (readCount data info (pos + 1 : ℕ)).result =
        .ok ((count : ℤ), ((pos + head.length : ℕ) : ℤ))) := by
  have hlen := data.property
  cases hhead with
  | inline hlt =>
    refine ⟨count, by omega, rfl, fun _ => ?_⟩
    rw [readCount, if_pos (by omega), pure_def, List.length_singleton]
  | extended k hk hfits =>
    refine ⟨15, by omega, rfl, fun hcount => ?_⟩
    have hmarker := h.append.1.tail
    have hle := hmarker.length_le (List.cons_ne_nil _ _)
    have hread : (readUint data (pos + 1 : ℕ) 1).result = .ok (1 * 16 + k) :=
      marker_at (by omega) (by omega) hmarker
    have hsize : (1 * 16 + k) % 16 = k := by omega
    have hpow : 2 ^ k ≤ 2 ^ 4 := Nat.pow_le_pow_right (by omega) hk
    have hcountRead : (readUint data (pos + 1 + 1 : ℕ) (2 ^ k)).result = .ok count :=
      readUint_at_of_lt hmarker.tail (by positivity) hfits (by omega)
    have hnext : wrap64 (((pos + 1 : ℕ) : ℤ) + 1) = ((pos + 1 + 1 : ℕ) : ℤ) := by
      rw [wrap64_eq (by omega) (by omega)]
      push_cast
      rfl
    rw [List.length_cons, length_be] at hle
    rw [readCount, if_neg (by omega), result_bind hread, if_neg (by omega)]
    dsimp only
    rw [hsize, hnext, result_bind hcountRead, pure_def]
    obtain ⟨size, hs⟩ : ∃ size, size = 2 ^ k := ⟨_, rfl⟩
    rw [← hs] at hle ⊢
    have hcountEq : wrap64 (count : ℤ) = count := wrap64_eq (by omega) (by omega)
    have hposEq :
        wrap64 (((pos + 1 : ℕ) : ℤ) + (1 + (size : ℤ))) = ((pos + (size + 2) : ℕ) : ℤ) := by
      rw [wrap64_eq (by omega) (by omega)]
      push_cast
      ring
    rw [hcountEq, hposEq, List.length_cons, List.length_cons, length_be]

/-! ### Texts -/

theorem readText_at {i : ℕ} (h : At data (pos + i) bytes) :
    (readText data pos bytes.length i).result = .ok bytes := by
  induction bytes generalizing i with
  | nil => rfl
  | cons b bytes ih =>
    have hle := h.length_le (List.cons_ne_nil _ _)
    have hlen := data.property
    rw [List.length_cons] at hle
    have hwrap : wrap64 ((pos : ℤ) + i) = ((pos + i : ℕ) : ℤ) := by
      rw [wrap64_eq (by omega) (by omega)]
      push_cast
      rfl
    have ih := ih (i := i + 1) h.tail
    push_cast at ih
    rw [List.length_cons, readText, hwrap, result_bind (byte_at h), result_bind ih]
    rfl

theorem readUnits_at {units : List ℕ} (hu : ∀ u ∈ units, u < 65536) {i : ℕ}
    (h : At data (pos + i * 2) (units.flatMap (be 2))) :
    (readUnits data pos units.length i).result = .ok (units.flatMap unicharToUtf8) := by
  induction units generalizing i with
  | nil => rfl
  | cons u units ih =>
    rw [List.flatMap_cons] at h
    obtain ⟨hunit, hrest⟩ := h.append
    have hle := hunit.length_le (by simp [be])
    have hlen := data.property
    have hlt := hu u List.mem_cons_self
    rw [length_be] at hle hrest
    have hwrap : wrap64 ((pos : ℤ) + wrap64 ((i : ℤ) * 2)) = ((pos + i * 2 : ℕ) : ℤ) := by
      rw [wrap64_eq (x := (i : ℤ) * 2) (by omega) (by omega), wrap64_eq (by omega) (by omega)]
      push_cast
      rfl
    have hread : (readUint data (pos + i * 2 : ℕ) 2).result = .ok u :=
      readUint_at_of_lt hunit (by omega) (by omega) (by omega)
    have ih := ih (fun w hw => hu w (List.mem_cons_of_mem _ hw)) (i := i + 1)
      (by rwa [Nat.add_mul, Nat.one_mul, ← Nat.add_assoc])
    push_cast at ih
    rw [List.length_cons, readUnits, hwrap, result_bind hread, result_bind ih]
    rfl

/-! ### Scalars -/

/-- What the reader makes of a scalar. -/
def Form.decoded : Form → Value
  | .bool b => .bool b
  | .int bytes v => .int (if bytes = 16 then if v < 0 then -1 else 0 else v)
  | .ascii text => .string (toStr text)
  | .utf16 cs => .string (toStr ((cs.flatMap Plist.utf16).flatMap unicharToUtf8))

theorem readInt_at {k : ℕ} {v : ℤ} (hv : intRange k v)
    (h : At data pos (be (2 ^ k) (v % 256 ^ 2 ^ k).toNat)) :
    (readInt data k pos).result = .ok (Form.decoded (.int (2 ^ k) v)) := by
  rw [readInt]
  rcases Nat.lt_or_ge k 3 with hk | hk
  · rw [intRange, if_pos hk] at hv
    have hpow : 2 ^ k ≤ 2 ^ 2 := Nat.pow_le_pow_right (by omega) (by omega)
    have hpow' : 256 ^ 2 ^ k ≤ 256 ^ 2 ^ 2 := Nat.pow_le_pow_right (by omega) hpow
    have hsize : min (2 ^ k) 8 = 2 ^ k := min_eq_left (by omega)
    have hne : 2 ^ k ≠ 16 := by omega
    have hvEq : v % 256 ^ 2 ^ k = v := Int.emod_eq_of_lt hv.1 hv.2
    have hlt : v < 256 ^ 2 ^ 2 := lt_of_lt_of_le hv.2 (by exact_mod_cast hpow')
    have hread : (readUint data pos (2 ^ k)).result = .ok v.toNat := by
      rw [hvEq] at h
      exact readUint_at_of_lt h (by positivity) (by zify; rw [Int.toNat_of_nonneg hv.1]; exact hv.2)
        (by norm_num at hlt; omega)
    rw [hsize, result_bind hread, pure_def, Form.decoded, if_neg hne, Int.toNat_of_nonneg hv.1,
      wrap64_eq (by norm_num at hlt; omega) (by norm_num at hlt; omega)]
  · rw [intRange, if_neg (by omega)] at hv
    split_ifs at hv with h3
    · subst h3
      have hsize : min (2 ^ 3) 8 = 2 ^ 3 := rfl
      have hlt : (v % 256 ^ 2 ^ 3).toNat < 256 ^ 2 ^ 3 := by omega
      have hread := readUint_at h (by norm_num) hlt
      have hwrap : wrap64 (((v % 256 ^ 2 ^ 3).toNat % 2 ^ 64 : ℕ) : ℤ) = v := by
        rw [wrap64, Int.bmod_def]
        omega
      rw [hsize, result_bind hread, pure_def, hwrap]
      rfl
    · obtain ⟨rfl, hlow, hhigh⟩ := hv
      -- Of the sixteen bytes the reader takes the first eight, which tell the sign and no more.
      have hsize : min (2 ^ 4) 8 = 8 := rfl
      have hhalf : At data pos (be 8 ((v % 256 ^ 2 ^ 4).toNat / 256 ^ 8)) :=
        (At.append (by rw [← be_add]; exact h)).1
      have hlt : (v % 256 ^ 2 ^ 4).toNat / 256 ^ 8 < 256 ^ 8 := by omega
      have hread := readUint_at hhalf (by norm_num) hlt
      have hwrap : wrap64 (((v % 256 ^ 2 ^ 4).toNat / 256 ^ 8 % 2 ^ 64 : ℕ) : ℤ) =
          if v < 0 then -1 else 0 := by
        rw [wrap64, Int.bmod_def]
        split_ifs <;> omega
      rw [hsize, result_bind hread, pure_def, hwrap]
      rfl

theorem Head.ne_nil {type count : ℕ} {head : List UInt8} (h : Head type count head) :
    head ≠ [] := by
  cases h <;> exact List.cons_ne_nil _ _

/-- An object is read by the type in its marker. -/
theorem readObject_at {tr : Trailer} {type info : ℕ} (ht : type < 16) (hi : info < 16)
    (h : At data pos ((type * 16 + info).toUInt8 :: bytes)) :
    (readObject data tr object pos).result =
      (readType data tr object type info (pos + 1 : ℕ)).result := by
  have hle := h.length_le (List.cons_ne_nil _ _)
  have hlen := data.property
  rw [List.length_cons] at hle
  have hwrap : wrap64 ((pos : ℤ) + 1) = ((pos + 1 : ℕ) : ℤ) := by
    rw [wrap64_eq (by omega) (by omega)]
    push_cast
    rfl
  have htype : (type * 16 + info) / 16 = type := by omega
  have hinfo : (type * 16 + info) % 16 = info := by omega
  rw [readObject, result_bind (marker_at ht hi h), htype, hinfo, hwrap]

theorem char_toNat_lt (c : Char) : c.toNat < 1114112 := by
  rcases c.valid with h | h
  · exact lt_trans h (by norm_num)
  · exact h.2

theorem utf16_lt {cs : List Char} {u : ℕ} (h : u ∈ cs.flatMap utf16) : u < 65536 := by
  obtain ⟨c, -, hu⟩ := List.mem_flatMap.mp h
  have hc := char_toNat_lt c
  rw [utf16] at hu
  split_ifs at hu with hsmall
  · rwa [List.mem_singleton.mp hu]
  · simp only [List.mem_cons, List.not_mem_nil, or_false] at hu
    omega

/-- The number of the marker and the rest of an object that starts with a count. -/
theorem readObject_counted (tr : Trailer) (object : ℤ → Reader Value) {type count : ℕ}
    {head : List UInt8} (ht : type < 16) (hhead : Head type count head)
    (h : At data pos (head ++ bytes)) :
    ∃ info, (readObject data tr object pos).result =
        (readType data tr object type info (pos + 1 : ℕ)).result ∧
      (count < 2 ^ 63 → (readCount data info (pos + 1 : ℕ)).result =
        .ok ((count : ℤ), ((pos + head.length : ℕ) : ℤ))) := by
  obtain ⟨info, hinfo, hcons, hcount⟩ := readCount_at hhead h
  have h' : At data pos ((type * 16 + info).toUInt8 :: (head.tail ++ bytes)) := by
    rw [← List.cons_append, ← hcons]
    exact h
  exact ⟨info, readObject_at ht hinfo h', hcount⟩

theorem readType_int (data : Data) (tr : Trailer) (object : ℤ → Reader Value) (info : ℕ) (pos : ℤ) :
    readType data tr object 1 info pos = readInt data info pos := rfl

theorem readBytes_at {info : ℕ} {next : ℕ} {text : List UInt8}
    (hcount : (readCount data info pos).result = .ok ((text.length : ℤ), (next : ℤ)))
    (h : At data next text) (hnext : next ≤ data.val.length) :
    (readBytes data 5 info pos).result = .ok (.string (toStr text)) := by
  have hlen := data.property
  have hle : next + text.length ≤ data.val.length := by
    cases text with
    | nil => exact hnext
    | cons b text => exact h.length_le (List.cons_ne_nil _ _)
  have hover : (overflows data next text.length).result = .ok false := by
    rw [overflows, wrap64_eq (by omega) (by omega)]
    exact congrArg Except.ok (decide_eq_false (by omega))
  have htext : (readText data next text.length 0).result = .ok text := readText_at (i := 0) h
  rw [readBytes, result_bind hcount]
  dsimp only
  rw [result_bind hover, if_neg (by decide), Int.toNat_natCast]
  exact (result_bind htext _).trans rfl

theorem readUtf16_at {info : ℕ} {next : ℕ} {units : List ℕ}
    (hcount : (readCount data info pos).result = .ok ((units.length : ℤ), (next : ℤ)))
    (hu : ∀ u ∈ units, u < 65536) (h : At data next (units.flatMap (be 2))) :
    (readUtf16 data info pos).result = .ok (.string (toStr (units.flatMap unicharToUtf8))) := by
  have hunits : (readUnits data next units.length 0).result = .ok (units.flatMap unicharToUtf8) :=
    readUnits_at hu (i := 0) (by rwa [Nat.zero_mul, Nat.add_zero])
  rw [readUtf16, result_bind hcount]
  dsimp only
  rw [Int.toNat_natCast]
  exact (result_bind hunits _).trans rfl

/-- A scalar that stands somewhere is read. -/
theorem readObject_scalar {tr : Trailer} {form : Form} (hbytes : form.Bytes bytes)
    (h : At data pos bytes) : (readObject data tr object pos).result = .ok form.decoded := by
  have hlen := data.property
  cases hbytes with
  | bool b =>
    have hmarker : [if b then 9 else 8] = [(0 * 16 + if b then 9 else 8 : ℕ).toUInt8] := by
      cases b <;> rfl
    rw [hmarker] at h
    rw [readObject_at (by omega) (by split_ifs <;> omega) h]
    cases b <;> simp [readType, pure_def, Form.decoded]
  | int k v hv =>
    have hk : k < 16 := by
      rw [intRange] at hv
      split_ifs at hv <;> omega
    have hbody := h.tail
    have hmarker : At data pos ((1 * 16 + k).toUInt8 :: be (2 ^ k) (v % 256 ^ 2 ^ k).toNat) := by
      rwa [Nat.one_mul]
    rw [readObject_at (by omega) hk hmarker, readType_int]
    exact readInt_at hv hbody
  | ascii text head _ hhead =>
    obtain ⟨info, hobject, hcount⟩ := readObject_counted tr object (by omega) hhead h
    have hle := h.append.1.length_le hhead.ne_nil
    have htext := h.append.2
    have hlt := htext.length_le_data
    rw [hobject]
    exact readBytes_at (hcount (by omega)) htext (by omega)
  | utf16 cs head hhead =>
    obtain ⟨info, hobject, hcount⟩ := readObject_counted tr object (by omega) hhead h
    have hunits := h.append.2
    have hlt := hunits.length_le_data
    rw [length_flatMap_be] at hlt
    rw [hobject]
    exact readUtf16_at (hcount (by omega)) (fun u hu => utf16_lt hu) hunits

/-! ### The scalars that are understood -/

theorem toStr_eq_self_iff {text : Text} : toStr text = text ↔ 0 ∉ text := by
  rw [toStr, List.takeWhile_eq_self_iff]
  constructor
  · intro h h0
    exact absurd (h 0 h0) (by decide)
  · intro h b hb
    exact decide_eq_true fun h0 => h (h0 ▸ hb)

theorem zero_notMem_toStr (text : Text) : 0 ∉ toStr text := fun h =>
  absurd (List.mem_takeWhile_imp h) (by decide)

theorem toUInt8_ne_zero {n : ℕ} (h : n % 256 ≠ 0) : n.toUInt8 ≠ 0 := fun h0 =>
  h (by rw [← UInt8.toNat_ofNat', ← Nat.toUInt8_eq, h0]; rfl)

theorem zero_notMem_unicharToUtf8 {c : ℕ} (h : c ≠ 0) (hlt : c < 1114112) :
    0 ∉ unicharToUtf8 c := by
  have hne : ∀ b ∈ unicharToUtf8 c, b ≠ 0 := by
    rw [unicharToUtf8]
    split_ifs <;> simp only [List.forall_mem_cons, List.not_mem_nil, IsEmpty.forall_iff,
      implies_true, and_true]
    · exact toUInt8_ne_zero (by omega)
    · exact ⟨toUInt8_ne_zero (by omega), toUInt8_ne_zero (by omega)⟩
    · exact ⟨toUInt8_ne_zero (by omega), toUInt8_ne_zero (by omega), toUInt8_ne_zero (by omega)⟩
    · exact ⟨toUInt8_ne_zero (by omega), toUInt8_ne_zero (by omega), toUInt8_ne_zero (by omega),
        toUInt8_ne_zero (by omega)⟩
  exact fun h0 => hne 0 h0 rfl

theorem length_unicharToUtf8 (c : ℕ) : (unicharToUtf8 c).length =
    if c < 128 then 1 else if c < 2048 then 2 else if c < 65536 then 3 else 4 := by
  rw [unicharToUtf8]
  split_ifs <;> rfl

/-- A character outside the basic plane takes six bytes and not four when its halves are appended
one by one. -/
theorem length_units (cs : List Char) : ((cs.flatMap utf16).flatMap unicharToUtf8).length =
    (utf8 cs).length + 2 * cs.countP (65536 ≤ ·.toNat) := by
  induction cs with
  | nil => rfl
  | cons c cs ih =>
    have hc := char_toNat_lt c
    have hhead : ((utf16 c).flatMap unicharToUtf8).length =
        (unicharToUtf8 c.toNat).length + 2 * if 65536 ≤ c.toNat then 1 else 0 := by
      rw [utf16]
      split_ifs with h h' h'
      · omega
      · rw [List.flatMap_singleton, Nat.mul_zero, Nat.add_zero]
      · simp only [List.flatMap_cons, List.flatMap_nil, List.append_nil, List.length_append,
          length_unicharToUtf8]
        split_ifs <;> omega
      · omega
    rw [utf8, List.flatMap_cons, List.flatMap_append, List.length_append, hhead, ih,
      List.flatMap_cons, List.length_append, List.countP_cons, utf8]
    simp only [decide_eq_true_eq]
    ring

theorem units_eq_utf8 {cs : List Char} (h : ∀ c ∈ cs, c.toNat < 65536) :
    (cs.flatMap utf16).flatMap unicharToUtf8 = utf8 cs := by
  induction cs with
  | nil => rfl
  | cons c cs ih =>
    have hc : utf16 c = [c.toNat] := if_pos (h c List.mem_cons_self)
    rw [List.flatMap_cons, List.flatMap_append, ih fun d hd => h d (List.mem_cons_of_mem _ hd), hc,
      List.flatMap_singleton, utf8, utf8, List.flatMap_cons]

theorem zero_notMem_utf8 {cs : List Char} (h : ∀ c ∈ cs, c.toNat ≠ 0) : 0 ∉ utf8 cs := by
  intro h0
  obtain ⟨c, hc, hmem⟩ := List.mem_flatMap.mp h0
  exact zero_notMem_unicharToUtf8 (h c hc) (char_toNat_lt c) hmem

theorem zero_notMem_units {cs : List Char} (h : ∀ c ∈ cs, c.toNat ≠ 0) :
    0 ∉ (cs.flatMap utf16).flatMap unicharToUtf8 := by
  intro h0
  obtain ⟨u, hu, hmem⟩ := List.mem_flatMap.mp h0
  refine zero_notMem_unicharToUtf8 ?_ (lt_trans (utf16_lt hu) (by norm_num)) hmem
  obtain ⟨c, hc, huc⟩ := List.mem_flatMap.mp hu
  have := h c hc
  rw [utf16] at huc
  split_ifs at huc <;> simp only [List.mem_cons, List.not_mem_nil, or_false] at huc <;> omega

/-- A scalar is read as what it stands for exactly when it is understood. -/
theorem decoded_eq_meant_iff (form : Form) : form.decoded = form.meant ↔ form.Plain := by
  cases form with
  | bool b => exact iff_of_true rfl trivial
  | int bytes v =>
    simp only [Form.decoded, Form.meant, Form.Plain, Value.int.injEq]
    split_ifs <;> omega
  | ascii text =>
    simp only [Form.decoded, Form.meant, Form.Plain, Value.string.injEq]
    exact toStr_eq_self_iff
  | utf16 cs =>
    simp only [Form.decoded, Form.meant, Form.Plain, Value.string.injEq]
    constructor
    · intro h c hc
      have hne : ∀ d ∈ cs, d.toNat ≠ 0 := by
        intro d hd h0
        have hmem : 0 ∈ utf8 cs :=
          List.mem_flatMap.mpr ⟨d, hd, h0 ▸ List.mem_singleton_self _⟩
        rw [← h] at hmem
        exact zero_notMem_toStr _ hmem
      rw [toStr_eq_self_iff.mpr (zero_notMem_units hne)] at h
      have hlen := length_units cs
      have hcount : cs.countP (65536 ≤ ·.toNat) = 0 := by
        rw [h] at hlen
        omega
      have hsmall := List.countP_eq_zero.mp hcount c hc
      rw [decide_eq_true_eq] at hsmall
      exact ⟨hne c hc, by omega⟩
    · intro h
      rw [units_eq_utf8 fun c hc => (h c hc).2]
      exact toStr_eq_self_iff.mpr (zero_notMem_utf8 fun c hc => (h c hc).1)

end Plist

end SingularityShell
