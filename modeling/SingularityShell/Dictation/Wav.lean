import SingularityShell.Lib.Ascii
import SingularityShell.Lib.Binary64
import SingularityShell.Lib.Buffer
import SingularityShell.Lib.Machine

/-!
# Audio files

An audio file is a row of chunks. The decoder of `core/dictation/dictation_engine.vala` looks for
the one with the samples, and these are made to be of one channel and of the rate that the engine
takes.

## Main definitions

* `Dictation.Wav.encode`, `decode`, `toMono`, `resample` — `none` is a fault
* `Dictation.Wav.encodeWith` — a file with other chunks before the samples
* `Dictation.Wav.Converts` — what a conversion gives
* `Dictation.Wav.Representable`

## Main results

* `Dictation.Wav.wav_spec` — files are decoded, and when they are converted
-/

namespace SingularityShell

namespace Dictation

namespace Wav

open Ascii Binary64 Buffer Machine

/-- `SAMPLE_RATE` -/
def sampleRate : ℤ := 16000

/-! ### Writing -/

/-- `append_u16`, with an `int` that is cast. -/
def u16 (value : ℤ) : List UInt8 :=
  let value := (value % 2 ^ 16).toNat
  [.ofNat value, .ofNat (value >>> 8)]

/-- `append_u32`, with an `int` that is cast. -/
def u32 (value : ℤ) : List UInt8 :=
  let value := (value % 2 ^ 32).toNat
  [.ofNat value, .ofNat (value >>> 8), .ofNat (value >>> 16), .ofNat (value >>> 24)]

/-- `encode` -/
def encode (pcm : List UInt8) (rate : ℤ) : List UInt8 :=
  ofString "RIFF" ++ u32 (wrap32 (36 + pcm.length)) ++ ofString "WAVEfmt " ++ u32 16 ++ u16 1 ++
    u16 1 ++ u32 rate ++ u32 (wrap32 (rate * 2)) ++ u16 2 ++ u16 16 ++ ofString "data" ++
    u32 pcm.length ++ pcm

/-! ### Reading -/

/-- `read_u16` -/
def readU16 (data : List UInt8) (pos : ℕ) : Option ℕ := do
  let a ← read data pos
  let b ← read data (pos + 1)
  return a.toNat ||| b.toNat <<< 8

/-- `read_u32` -/
def readU32 (data : List UInt8) (pos : ℕ) : Option ℕ := do
  let a ← read data pos
  let b ← read data (pos + 1)
  let c ← read data (pos + 2)
  let d ← read data (pos + 3)
  return a.toNat ||| b.toNat <<< 8 ||| c.toNat <<< 16 ||| d.toNat <<< 24

/-- A copy of bytes: no memory is taken for none of them, and the copy is null. -/
def copied (bytes : List UInt8) : Option (List UInt8) := if bytes = [] then none else some bytes

/-- The result of `decode` and what it gives out. -/
structure Decoded where
  pcm : Option (List UInt8)
  rate : ℤ
  channels : ℤ

/-- The variables of the loop of `decode`. A `size_t` holds the sums of positions and sizes. -/
structure Scan where
  pos : ℕ
  format : ℕ := 0
  bits : ℕ := 0
  rate : ℤ := 0
  channels : ℕ := 0

/-- One round of the loop of `decode`, which returns or goes on. -/
def chunk (data : List UInt8) (length : ℕ) (s : Scan) : Option (Decoded ⊕ Scan) := do
  let size ← readU32 data (s.pos + 4)
  let body := s.pos + 8
  let next := body + size + size % 2
  let id ← slice data s.pos (s.pos + 4)
  if id = ofString "fmt " ∧ body + 16 ≤ length then
    let format ← readU16 data body
    let channels ← readU16 data (body + 2)
    let rate ← readU32 data (body + 4)
    let bits ← readU16 data (body + 14)
    return .inr { pos := next, format, bits, rate := wrap32 rate, channels }
  else if id = ofString "data" then
    if s.format ≠ 1 ∨ s.bits ≠ 16 ∨ s.channels < 1 then
      return .inl { pcm := none, rate := s.rate, channels := s.channels }
    else
      let pcm ← slice data body (min (body + size) length)
      return .inl { pcm := copied pcm, rate := s.rate, channels := s.channels }
  else return .inr { s with pos := next }

theorem copied_eq_some_iff {bytes : List UInt8} : copied bytes = some bytes ↔ bytes ≠ [] := by
  rw [copied]
  split_ifs with h
  · exact iff_of_false nofun fun hne => hne h
  · exact iff_of_true rfl h

theorem eq_of_mem_copied {bytes pcm : List UInt8} (h : pcm ∈ copied bytes) : pcm = bytes := by
  rw [copied] at h
  split_ifs at h
  · exact absurd h (Option.not_mem_none pcm)
  · exact (Option.some_inj.mp h).symm

theorem pos_lt_of_chunk {data : List UInt8} {length : ℕ} {s s' : Scan}
    (h : chunk data length s = some (.inr s')) : s.pos + 8 ≤ s'.pos := by
  simp only [chunk, Option.bind_eq_bind, Option.bind_eq_some_iff] at h
  obtain ⟨size, -, id, -, h⟩ := h
  split_ifs at h
  · simp only [Option.bind_eq_some_iff] at h
    obtain ⟨format, -, channels, -, rate, -, bits, -, h⟩ := h
    obtain rfl := Sum.inr_injective (Option.some_inj.mp h)
    dsimp only
    omega
  · exact absurd (Option.some_inj.mp h) Sum.inl_ne_inr
  · simp only [Option.bind_eq_some_iff] at h
    obtain ⟨pcm, -, h⟩ := h
    exact absurd (Option.some_inj.mp h) Sum.inl_ne_inr
  · obtain rfl := Sum.inr_injective (Option.some_inj.mp h)
    dsimp only
    omega

/-- The loop of `decode`. -/
def scan (data : List UInt8) (length : ℕ) (s : Scan) : Option Decoded :=
  if s.pos + 8 ≤ length then
    match _hround : chunk data length s with
    | none => none
    | some (.inl decoded) => some decoded
    | some (.inr s') => scan data length s'
  else some { pcm := none, rate := s.rate, channels := s.channels }
termination_by length - s.pos
decreasing_by
  have hpos := pos_lt_of_chunk _hround
  omega

/-- `decode`. The length of an array is an `int`. -/
def decode (data : List UInt8) : Option Decoded :=
  let length := wrap32 data.length
  if length < 12 then some ⟨none, 0, 0⟩
  else do
    let riff ← slice data 0 4
    let wave ← slice data 8 12
    if riff ≠ ofString "RIFF" ∨ wave ≠ ofString "WAVE" then return ⟨none, 0, 0⟩
    else scan data length.toNat { pos := 12 }

/-! ### Converting -/

/-- `(int16) (pcm[offset] | (pcm[offset + 1] << 8))` -/
def sample (pcm : List UInt8) (offset : ℤ) : Option ℤ := do
  let a ← read pcm offset
  let b ← read pcm (wrap32 (offset + 1))
  return wrap16 ((a.toNat ||| b.toNat <<< 8 : ℕ) : ℤ)

/-- A sample is written. -/
def putSample (pcm : List UInt8) (offset value : ℤ) : Option (List UInt8) := do
  let pcm ← write pcm offset (.ofNat (value % 256).toNat)
  write pcm (wrap32 (offset + 1)) (.ofNat ((value >>> (8 : ℕ)) % 256).toNat)

/-- The sum of the samples of a frame in `to_mono`. -/
def monoSum (pcm : List UInt8) (channels : ℤ) (f : ℕ) : Option ℤ :=
  loop (fun c sum => do
    let offset := wrap32 (wrap32 (wrap32 (f * channels) + c) * 2)
    let value ← sample pcm offset
    return wrap32 (sum + value)) channels.toNat 0

/-- A round of the loop of `to_mono`. -/
def monoFrame (pcm : List UInt8) (channels : ℤ) (f : ℕ) (mono : List UInt8) :
    Option (List UInt8) := do
  let sum ← monoSum pcm channels f
  let value ← quotient sum channels
  putSample mono (wrap32 (f * 2)) (wrap16 value)

/-- `to_mono` -/
def toMono (pcm : List UInt8) (channels : ℤ) : Option (List UInt8) :=
  if channels ≤ 1 then some pcm
  else do
    let frames ← quotient pcm.length (wrap32 (2 * channels))
    let mono ← new (wrap32 (frames * 2)) 0
    loop (monoFrame pcm channels) frames.toNat mono

/-- A round of the loop of `resample`. -/
def resampleFrame (undefined : ℕ → Double → ℤ) (pcm : List UInt8) (frames fromRate toRate : ℤ)
    (i : ℕ) (result : List UInt8) : Option (List UInt8) := do
  let src := fl (fl (i * fromRate) / toRate)
  let a := min ((Double.num src).toInt undefined 32) (wrap32 (frames - 1))
  let b := min (wrap32 (a + 1)) (wrap32 (frames - 1))
  let t := fl (src - a)
  let va ← sample pcm (wrap32 (a * 2))
  let vb ← sample pcm (wrap32 (b * 2))
  let v := fl (va + fl ((vb - va : ℤ) * t))
  putSample result (wrap32 (i * 2)) ((Double.num v).toInt undefined 16)

/-- `resample` -/
def resample (undefined : ℕ → Double → ℤ) (pcm : List UInt8) (fromRate toRate : ℤ) :
    Option (List UInt8) :=
  if fromRate = toRate ∨ fromRate ≤ 0 then some pcm
  else do
    let frames := (pcm.length : ℤ).tdiv 2
    let outFrames ← quotient (wrap64 (frames * toRate)) fromRate
    let outFrames := wrap32 outFrames
    let result ← new (wrap32 (outFrames * 2)) 0
    loop (resampleFrame undefined pcm frames fromRate toRate) outFrames.toNat result

/-- What the callers do with the bytes of a file: the conversion, unless they are refused. -/
def convert (undefined : ℕ → Double → ℤ) (data : List UInt8) : Option (Option (List UInt8)) := do
  let decoded ← decode data
  match decoded.pcm with
  | none => return none
  | some pcm =>
    let mono ← toMono pcm decoded.channels
    let result ← resample undefined mono decoded.rate sampleRate
    return some result

/-- A file: whether it is a regular one and its size, where these are found, and its bytes. -/
structure AudioFile where
  info : Option (Bool × ℤ)
  contents : Option (List UInt8)

/-- `MAX_BYTES` -/
def maxBytes : ℤ := 1024 * 1024 * 1024

/-- The errors of `load_pcm`, of which `io` comes from the library. -/
inductive LoadError
  | io
  | notRegularFile
  | noSpace
  | invalidData

/-- The texts of the errors. -/
def LoadError.message : LoadError → Option Text
  | .io => none
  | .notRegularFile => ofString "Not a regular file"
  | .noSpace => ofString "The recording is too long"
  | .invalidData => ofString "The audio file is not a 16-bit PCM WAV file"

/-- `load_pcm` -/
def loadPcm (undefined : ℕ → Double → ℤ) (file : AudioFile) :
    Option (Except LoadError (List UInt8)) :=
  match file.info with
  | none => some (.error .io)
  | some (regular, size) =>
    if !regular then some (.error .notRegularFile)
    else if size > maxBytes then some (.error .noSpace)
    else
      match file.contents with
      | none => some (.error .io)
      | some data =>
        (convert undefined data).map fun result =>
          match result with
          | none => .error .invalidData
          | some pcm => .ok pcm

/-! ### Numbers in bytes -/

theorem or_shiftLeft {a i : ℕ} (h : a < 2 ^ i) (b : ℕ) : a ||| b <<< i = a + b * 2 ^ i := by
  rw [Nat.or_comm, ← Nat.shiftLeft_add_eq_or_of_lt h, Nat.shiftLeft_eq, Nat.add_comm]

theorem or_bytes (a b : UInt8) : a.toNat ||| b.toNat <<< 8 = a.toNat + b.toNat * 2 ^ 8 :=
  or_shiftLeft a.toNat_lt _

theorem or_bytes_four (a b c d : UInt8) :
    a.toNat ||| b.toNat <<< 8 ||| c.toNat <<< 16 ||| d.toNat <<< 24 =
      a.toNat + b.toNat * 2 ^ 8 + c.toNat * 2 ^ 16 + d.toNat * 2 ^ 24 := by
  have ha := a.toNat_lt
  have hb := b.toNat_lt
  have hc := c.toNat_lt
  have htwo : a.toNat ||| b.toNat <<< 8 ||| c.toNat <<< 16 =
      a.toNat + b.toNat * 2 ^ 8 + c.toNat * 2 ^ 16 := by
    rw [or_bytes, or_shiftLeft (by omega)]
  rw [htwo, or_shiftLeft (by omega)]

theorem readU16_of_le (data : List UInt8) (pos : ℕ) (h : pos + 2 ≤ data.length) :
    ∃ n, readU16 data pos = some n ∧ n < 2 ^ 16 := by
  obtain ⟨a, ha⟩ := read_of_lt data (i := pos) (by omega) (by omega)
  obtain ⟨b, hb⟩ := read_of_lt data (i := pos + 1) (by omega) (by omega)
  refine ⟨a.toNat ||| b.toNat <<< 8, ?_, ?_⟩
  · rw [readU16, ha, hb]
    rfl
  · have halt := a.toNat_lt
    have hblt := b.toNat_lt
    rw [or_bytes]
    omega

theorem readU32_of_le (data : List UInt8) (pos : ℕ) (h : pos + 4 ≤ data.length) :
    ∃ n, readU32 data pos = some n := by
  obtain ⟨a, ha⟩ := read_of_lt data (i := pos) (by omega) (by omega)
  obtain ⟨b, hb⟩ := read_of_lt data (i := pos + 1) (by omega) (by omega)
  obtain ⟨c, hc⟩ := read_of_lt data (i := pos + 2) (by omega) (by omega)
  obtain ⟨d, hd⟩ := read_of_lt data (i := pos + 3) (by omega) (by omega)
  refine ⟨a.toNat ||| b.toNat <<< 8 ||| c.toNat <<< 16 ||| d.toNat <<< 24, ?_⟩
  rw [readU32, ha, hb, hc, hd]
  rfl

theorem readU16_append {data before after : List UInt8} {pos : ℕ} {value : ℤ}
    (h : data = before ++ u16 value ++ after) (hpos : pos = before.length) :
    readU16 data pos = some (value % 2 ^ 16).toNat := by
  obtain ⟨n, hn⟩ : ∃ n, n = (value % 2 ^ 16).toNat := ⟨_, rfl⟩
  have hbytes : u16 value = [.ofNat n, .ofNat (n >>> 8)] := by rw [hn, u16]
  rw [hbytes] at h
  have ha := read_append before [.ofNat n, .ofNat (n >>> 8)] after (i := 0) (by simp)
  have hb := read_append before [.ofNat n, .ofNat (n >>> 8)] after (i := 1) (by simp)
  rw [Int.ofNat_zero, add_zero] at ha
  rw [Int.ofNat_one] at hb
  have hvalue : (UInt8.ofNat n).toNat ||| (UInt8.ofNat (n >>> 8)).toNat <<< 8 = n := by
    rw [or_bytes, UInt8.toNat_ofNat', UInt8.toNat_ofNat', Nat.shiftRight_eq_div_pow]
    omega
  rw [← hn, h, hpos, readU16, ha, hb]
  exact congrArg some hvalue

theorem readU32_append {data before after : List UInt8} {pos : ℕ} {value : ℤ}
    (h : data = before ++ u32 value ++ after) (hpos : pos = before.length) :
    readU32 data pos = some (value % 2 ^ 32).toNat := by
  obtain ⟨n, hn⟩ : ∃ n, n = (value % 2 ^ 32).toNat := ⟨_, rfl⟩
  have hbytes : u32 value =
      [.ofNat n, .ofNat (n >>> 8), .ofNat (n >>> 16), .ofNat (n >>> 24)] := by rw [hn, u32]
  rw [hbytes] at h
  have hread := fun i => read_append before
    [.ofNat n, .ofNat (n >>> 8), .ofNat (n >>> 16), .ofNat (n >>> 24)] after (i := i)
  have ha := hread 0 (by simp)
  have hb := hread 1 (by simp)
  have hc := hread 2 (by simp)
  have hd := hread 3 (by simp)
  rw [Int.ofNat_zero, add_zero] at ha
  have hvalue : (UInt8.ofNat n).toNat ||| (UInt8.ofNat (n >>> 8)).toNat <<< 8 |||
      (UInt8.ofNat (n >>> 16)).toNat <<< 16 ||| (UInt8.ofNat (n >>> 24)).toNat <<< 24 = n := by
    rw [or_bytes_four, UInt8.toNat_ofNat', UInt8.toNat_ofNat', UInt8.toNat_ofNat',
      UInt8.toNat_ofNat', Nat.shiftRight_eq_div_pow, Nat.shiftRight_eq_div_pow,
      Nat.shiftRight_eq_div_pow]
    omega
  rw [Int.ofNat_one] at hb
  rw [Nat.cast_ofNat] at hc hd
  rw [← hn, h, hpos, readU32, ha, hb, hc, hd]
  exact congrArg some hvalue

/-! ### Files that were written -/

/-- A chunk of another type, with the byte that is padded where its size is odd. -/
structure Chunk where
  id : List UInt8
  body : List UInt8
  pad : UInt8 := 0
  length_id : id.length = 4
  other : id ≠ ofString "fmt " ∧ id ≠ ofString "data"
  size : body.length < 2 ^ 32

def Chunk.bytes (c : Chunk) : List UInt8 :=
  c.id ++ u32 c.body.length ++ c.body ++ List.replicate (c.body.length % 2) c.pad

/-- The chunk of the format. -/
def formatBytes (rate : ℤ) : List UInt8 :=
  ofString "fmt " ++ u32 16 ++ u16 1 ++ u16 1 ++ u32 rate ++ u32 (wrap32 (rate * 2)) ++ u16 2 ++
    u16 16

/-- The chunk of the samples. -/
def dataBytes (pcm : List UInt8) : List UInt8 := ofString "data" ++ u32 pcm.length ++ pcm

/-- The file with other chunks before that of the format and before the samples, and any size. -/
def encodeWith (size : ℤ) (before after : List Chunk) (pcm : List UInt8) (rate : ℤ) : List UInt8 :=
  ofString "RIFF" ++ u32 size ++ ofString "WAVE" ++ before.flatMap Chunk.bytes ++
    formatBytes rate ++ after.flatMap Chunk.bytes ++ dataBytes pcm

/-- What is written has no other chunks. -/
theorem encode_eq (pcm : List UInt8) (rate : ℤ) :
    encode pcm rate = encodeWith (wrap32 (36 + pcm.length)) [] [] pcm rate := by
  have hsplit : ofString "WAVEfmt " = ofString "WAVE" ++ ofString "fmt " := by decide
  simp only [encode, encodeWith, formatBytes, dataBytes, hsplit, List.flatMap_nil, List.append_nil,
    List.append_assoc]

theorem length_u32 (value : ℤ) : (u32 value).length = 4 := rfl

theorem Chunk.length_bytes (c : Chunk) :
    c.bytes.length = 8 + c.body.length + c.body.length % 2 := by
  rw [Chunk.bytes, List.length_append, List.length_append, List.length_append, c.length_id,
    length_u32, List.length_replicate]

theorem length_formatBytes (rate : ℤ) : (formatBytes rate).length = 24 := rfl

theorem length_dataBytes (pcm : List UInt8) : (dataBytes pcm).length = 8 + pcm.length := by
  rw [dataBytes, List.length_append, List.length_append, length_u32]
  rfl

/-! ### One round -/

section Round

variable {data before after : List UInt8} {length : ℕ} {s s' : Scan} {rate : ℤ}

theorem scan_of_inl {d : Decoded} (h : s.pos + 8 ≤ length)
    (hchunk : chunk data length s = some (.inl d)) : scan data length s = some d := by
  rw [scan, if_pos h]
  split
  · rename_i hnone
    exact absurd (hnone.symm.trans hchunk).symm (Option.some_ne_none _)
  · rename_i d' hround
    obtain rfl := Sum.inl_injective (Option.some_inj.mp (hround.symm.trans hchunk))
    rfl
  · rename_i s' hround
    exact absurd (Option.some_inj.mp (hround.symm.trans hchunk)) Sum.inr_ne_inl

theorem scan_of_inr (h : s.pos + 8 ≤ length) (hchunk : chunk data length s = some (.inr s')) :
    scan data length s = scan data length s' := by
  rw [scan, if_pos h]
  split
  · rename_i hnone
    exact absurd (hnone.symm.trans hchunk).symm (Option.some_ne_none _)
  · rename_i d' hround
    exact absurd (Option.some_inj.mp (hround.symm.trans hchunk)) Sum.inl_ne_inr
  · rename_i s'' hround
    obtain rfl := Sum.inr_injective (Option.some_inj.mp (hround.symm.trans hchunk))
    rfl

/-- The bytes end, and no samples were found. -/
def Ends (data : List UInt8) (length : ℕ) (s : Scan) : Prop :=
  ∃ rate channels, scan data length s = some ⟨none, rate, channels⟩

theorem ends_of_lt (h : length < s.pos + 8) : Ends data length s := by
  refine ⟨s.rate, s.channels, ?_⟩
  rw [scan, if_neg (by omega)]

/-- The head of a chunk is read. -/
theorem chunk_head {id : List UInt8} {size : ℕ}
    (hdata : data = before ++ id ++ u32 size ++ after) (hid : id.length = 4)
    (hpos : s.pos = before.length) (hsize : size < 2 ^ 32) :
    readU32 data (s.pos + 4) = some size ∧ slice data s.pos (s.pos + 4) = some id := by
  constructor
  · rw [readU32_append hdata (by rw [List.length_append, hid, hpos])]
    exact congrArg some (by omega)
  · have hassoc : data = before ++ id ++ (u32 size ++ after) := by
      rw [hdata, List.append_assoc (before ++ id)]
    rw [hassoc, hpos, ← hid]
    exact slice_append _ _ _

/-- A chunk of another type is passed over. -/
theorem scan_other (c : Chunk) (hdata : data = before ++ c.bytes ++ after)
    (hpos : s.pos = before.length) (hfit : s.pos + 8 ≤ length) :
    scan data length s = scan data length { s with pos := (before ++ c.bytes).length } := by
  have hassoc : data = before ++ c.id ++ u32 c.body.length ++
      (c.body ++ List.replicate (c.body.length % 2) c.pad ++ after) := by
    rw [hdata, Chunk.bytes]
    simp only [List.append_assoc]
  obtain ⟨hsize, hid⟩ := chunk_head hassoc c.length_id hpos c.size
  refine scan_of_inr hfit ?_
  have hnext : (before ++ c.bytes).length = s.pos + 8 + c.body.length + c.body.length % 2 := by
    rw [List.length_append, c.length_bytes, hpos]
    omega
  rw [chunk, hsize, hid, hnext]
  simp only [Option.bind_eq_bind, Option.bind_some]
  rw [if_neg fun h => c.other.1 h.1, if_neg c.other.2]
  rfl

/-- Chunks of other types are passed over, unless the bytes end among them. -/
theorem scan_others (length : ℕ) (chunks : List Chunk)
    (hdata : data = before ++ chunks.flatMap Chunk.bytes ++ after) (hpos : s.pos = before.length) :
    (length < (before ++ chunks.flatMap Chunk.bytes).length ∧ Ends data length s) ∨
      scan data length s =
        scan data length { s with pos := (before ++ chunks.flatMap Chunk.bytes).length } := by
  induction chunks generalizing before s with
  | nil =>
    right
    rw [List.flatMap_nil, List.append_nil, ← hpos]
  | cons c chunks ih =>
    have hfirst : data = before ++ c.bytes ++ (chunks.flatMap Chunk.bytes ++ after) := by
      rw [hdata, List.flatMap_cons]
      simp only [List.append_assoc]
    have hrest : data = before ++ c.bytes ++ chunks.flatMap Chunk.bytes ++ after := by
      rw [hfirst, List.append_assoc (before ++ c.bytes)]
    rw [List.flatMap_cons, ← List.append_assoc]
    rcases lt_or_ge length (s.pos + 8) with hshort | hfit
    · refine Or.inl ⟨?_, ends_of_lt hshort⟩
      rw [List.length_append, List.length_append, c.length_bytes]
      omega
    · rw [Ends, scan_other c hfirst hpos hfit]
      exact ih hrest rfl

/-- The chunk of the format is read, unless the bytes end in it. -/
theorem scan_format (length : ℕ) (hdata : data = before ++ formatBytes rate ++ after)
    (hpos : s.pos = before.length) (hrate : 1 ≤ rate ∧ rate ≤ 2 ^ 30) :
    (length < (before ++ formatBytes rate).length ∧ Ends data length s) ∨
      scan data length s =
        scan data length ⟨(before ++ formatBytes rate).length, 1, 16, rate, 1⟩ := by
  have hend : (before ++ formatBytes rate).length = s.pos + 8 + 16 + 16 % 2 := by
    rw [List.length_append, length_formatBytes, hpos]
  rw [hend]
  rcases lt_or_ge length (s.pos + 8) with hshort | hfit
  · exact Or.inl ⟨by omega, ends_of_lt hshort⟩
  have hassoc : ∀ first value last, formatBytes rate = first ++ value ++ last →
      data = before ++ first ++ value ++ (last ++ after) := by
    intro first value last h
    rw [hdata, h]
    simp only [List.append_assoc]
  have hhead : data = before ++ ofString "fmt " ++ u32 (16 : ℕ) ++ (u16 1 ++ u16 1 ++ u32 rate ++
      u32 (wrap32 (rate * 2)) ++ u16 2 ++ u16 16 ++ after) :=
    hassoc (ofString "fmt ") (u32 16) _ (by simp only [formatBytes, List.append_assoc])
  obtain ⟨hsize, hid⟩ := chunk_head hhead rfl hpos (by decide)
  rcases lt_or_ge length (s.pos + 8 + 16) with hcut | hwhole
  · -- the format is cut off, and so is what follows it
    have hskip : chunk data length s = some (.inr { s with pos := s.pos + 8 + 16 + 16 % 2 }) := by
      rw [chunk, hsize, hid]
      simp only [Option.bind_eq_bind, Option.bind_some]
      rw [if_neg fun h => by omega, if_neg (by decide)]
      rfl
    refine Or.inl ⟨by omega, ?_⟩
    rw [Ends, scan_of_inr hfit hskip]
    exact ends_of_lt (by dsimp only; omega)
  · have hformat : readU16 data (s.pos + 8) = some 1 :=
      readU16_append (hassoc (ofString "fmt " ++ u32 16) (u16 1)
        (u16 1 ++ u32 rate ++ u32 (wrap32 (rate * 2)) ++ u16 2 ++ u16 16)
        (by simp only [formatBytes, List.append_assoc])) (by rw [hpos, List.length_append]; rfl)
    have hchannels : readU16 data (s.pos + 8 + 2) = some 1 :=
      readU16_append (hassoc (ofString "fmt " ++ u32 16 ++ u16 1) (u16 1)
        (u32 rate ++ u32 (wrap32 (rate * 2)) ++ u16 2 ++ u16 16)
        (by simp only [formatBytes, List.append_assoc])) (by rw [hpos, List.length_append]; rfl)
    have hread : readU32 data (s.pos + 8 + 4) = some (rate % 2 ^ 32).toNat :=
      readU32_append (hassoc (ofString "fmt " ++ u32 16 ++ u16 1 ++ u16 1) (u32 rate)
        (u32 (wrap32 (rate * 2)) ++ u16 2 ++ u16 16)
        (by simp only [formatBytes, List.append_assoc])) (by rw [hpos, List.length_append]; rfl)
    have hbits : readU16 data (s.pos + 8 + 14) = some 16 :=
      readU16_append (hassoc (ofString "fmt " ++ u32 16 ++ u16 1 ++ u16 1 ++ u32 rate ++
        u32 (wrap32 (rate * 2)) ++ u16 2) (u16 16) []
        (by simp only [formatBytes, List.append_assoc, List.append_nil]))
        (by rw [hpos, List.length_append]; rfl)
    have hwrap : wrap32 ((rate % 2 ^ 32).toNat : ℤ) = rate := by
      rw [wrap32_eq (by omega) (by omega)]
      omega
    refine Or.inr (scan_of_inr hfit ?_)
    rw [chunk, hsize, hid]
    simp only [Option.bind_eq_bind, Option.bind_some]
    rw [if_pos ⟨trivial, hwhole⟩, hformat, hchannels, hread, hbits]
    simp only [Option.bind_some, hwrap]
    rfl

/-- The chunk of the samples is returned. -/
theorem scan_data {pcm : List UInt8} (hdata : data = before ++ dataBytes pcm)
    (hlength : pcm.length < 2 ^ 32) :
    scan data data.length ⟨before.length, 1, 16, rate, 1⟩ = some ⟨copied pcm, rate, 1⟩ := by
  have hhead : data = before ++ ofString "data" ++ u32 pcm.length ++ pcm := by
    rw [hdata, dataBytes]
    simp only [List.append_assoc]
  obtain ⟨hsize, hid⟩ := chunk_head (s := ⟨before.length, 1, 16, rate, 1⟩) hhead rfl rfl hlength
  have hall : data.length = before.length + 8 + pcm.length := by
    rw [hdata, List.length_append, length_dataBytes]
    omega
  have hbody : (before ++ ofString "data" ++ u32 pcm.length).length = before.length + 8 := by
    rw [List.length_append, List.length_append, length_u32]
    rfl
  have hslice : slice data (before.length + 8) (before.length + 8 + pcm.length) = some pcm := by
    have hrest : data = before ++ ofString "data" ++ u32 pcm.length ++ pcm ++ [] := by
      rw [hhead, List.append_nil]
    rw [hrest, ← hbody]
    exact slice_append _ _ _
  refine scan_of_inl (by dsimp only; omega) ?_
  dsimp only at hsize hid
  rw [chunk]
  dsimp only
  rw [hsize, hid]
  simp only [Option.bind_eq_bind, Option.bind_some]
  rw [if_neg fun h => absurd h.1 (by decide), if_pos trivial, if_neg (by decide), hall, min_self,
    hslice]
  rfl

end Round

/-- A file that starts with the two marks is scanned. -/
theorem decode_of_magic {data : List UInt8} (hriff : slice data 0 4 = some (ofString "RIFF"))
    (hwave : slice data 8 12 = some (ofString "WAVE")) : decode data =
      if wrap32 data.length < 12 then some ⟨none, 0, 0⟩
      else scan data (wrap32 data.length).toNat { pos := 12 } := by
  have hmagic : ¬ (ofString "RIFF" ≠ ofString "RIFF" ∨ ofString "WAVE" ≠ ofString "WAVE") := by
    decide
  rw [decode]
  by_cases hshort : wrap32 data.length < 12
  · rw [if_pos hshort, if_pos hshort]
  · rw [if_neg hshort, if_neg hshort, hriff, hwave, Option.bind_eq_bind, Option.bind_some,
      Option.bind_some, if_neg hmagic]

/-- **Files are decoded.** What was written is read as long as the length of the file is an
`int` and there are samples. -/
theorem decode_encodeWith_iff {size rate : ℤ} {before after : List Chunk} {pcm : List UInt8}
    (hrate : 1 ≤ rate ∧ rate ≤ 2 ^ 30) (hpcm : pcm.length < 2 ^ 31) :
    decode (encodeWith size before after pcm rate) = some ⟨some pcm, rate, 1⟩ ↔
      (encodeWith size before after pcm rate).length < 2 ^ 31 ∧ pcm ≠ [] := by
  obtain ⟨data, hdata⟩ : ∃ data, data = encodeWith size before after pcm rate := ⟨_, rfl⟩
  obtain ⟨head, hhead⟩ : ∃ head, head = ofString "RIFF" ++ u32 size ++ ofString "WAVE" := ⟨_, rfl⟩
  obtain ⟨first, hfirst⟩ : ∃ first, first = head ++ before.flatMap Chunk.bytes := ⟨_, rfl⟩
  obtain ⟨format, hformat⟩ : ∃ format, format = first ++ formatBytes rate := ⟨_, rfl⟩
  obtain ⟨rest, hrest⟩ : ∃ rest, rest = format ++ after.flatMap Chunk.bytes := ⟨_, rfl⟩
  have hall : data = rest ++ dataBytes pcm := by
    rw [hdata, hrest, hformat, hfirst, hhead, encodeWith]
  have hlengths : head.length = 12 ∧ head.length ≤ first.length ∧ first.length ≤ format.length ∧
      format.length ≤ rest.length ∧ data.length = rest.length + 8 + pcm.length := by
    refine ⟨by rw [hhead]; rfl, ?_, ?_, ?_, ?_⟩
    · rw [hfirst, List.length_append]
      omega
    · rw [hformat, List.length_append]
      omega
    · rw [hrest, List.length_append]
      omega
    · rw [hall, List.length_append, length_dataBytes]
      omega
  have hriff : slice data 0 4 = some (ofString "RIFF") := by
    have hsplit : data = [] ++ ofString "RIFF" ++ (u32 size ++ ofString "WAVE" ++
        before.flatMap Chunk.bytes ++ formatBytes rate ++ after.flatMap Chunk.bytes ++
        dataBytes pcm) := by
      rw [hdata, encodeWith]
      simp only [List.append_assoc, List.nil_append]
    rw [hsplit]
    exact slice_append [] (ofString "RIFF") _
  have hwave : slice data 8 12 = some (ofString "WAVE") := by
    have hsplit : data = ofString "RIFF" ++ u32 size ++ ofString "WAVE" ++
        (before.flatMap Chunk.bytes ++ formatBytes rate ++ after.flatMap Chunk.bytes ++
        dataBytes pcm) := by
      rw [hdata, encodeWith]
      simp only [List.append_assoc]
    rw [hsplit]
    exact slice_append (ofString "RIFF" ++ u32 size) (ofString "WAVE") _
  have hbefore : data = head ++ before.flatMap Chunk.bytes ++ (formatBytes rate ++
      after.flatMap Chunk.bytes ++ dataBytes pcm) := by
    rw [hdata, hhead, encodeWith]
    simp only [List.append_assoc]
  have hmiddle : data = first ++ formatBytes rate ++
      (after.flatMap Chunk.bytes ++ dataBytes pcm) := by
    rw [hbefore, hfirst]
    simp only [List.append_assoc]
  have hafter : data = format ++ after.flatMap Chunk.bytes ++ dataBytes pcm := by
    rw [hmiddle, hformat]
    simp only [List.append_assoc]
  -- the loop comes to the samples, unless the bytes end before them
  have hscan : ∀ length, (length < rest.length ∧ Ends data length { pos := 12 }) ∨
      scan data length { pos := 12 } = scan data length ⟨rest.length, 1, 16, rate, 1⟩ := by
    intro length
    rcases scan_others length (s := { pos := 12 }) before hbefore hlengths.1.symm with
      ⟨hcut, hends⟩ | hothers
    · rw [← hfirst] at hcut
      exact Or.inl ⟨by omega, hends⟩
    rw [← hfirst] at hothers
    rw [Ends, hothers]
    rcases scan_format length (s := { pos := first.length }) hmiddle rfl hrate with
      ⟨hcut, hends⟩ | hread
    · rw [← hformat] at hcut
      exact Or.inl ⟨by omega, hends⟩
    rw [← hformat] at hread
    rw [hread]
    rcases scan_others length (s := ⟨format.length, 1, 16, rate, 1⟩) after hafter rfl
      with ⟨hcut, hends⟩ | hothers'
    · rw [← hrest] at hcut
      exact Or.inl ⟨hcut, hends⟩
    · rw [← hrest] at hothers'
      exact Or.inr hothers'
  rw [← hdata, decode_of_magic hriff hwave]
  rcases Nat.lt_or_ge data.length (2 ^ 31) with hint | hlong
  · have hlength : wrap32 (data.length : ℤ) = data.length := wrap32_eq (by omega) (by omega)
    have hread : scan data data.length { pos := 12 } = some ⟨copied pcm, rate, 1⟩ := by
      rcases hscan data.length with ⟨hcut, -⟩ | hscan
      · omega
      · rw [hscan]
        exact scan_data hall (by omega)
    rw [hlength, if_neg (by omega), Int.toNat_natCast, hread, and_iff_right hint,
      ← copied_eq_some_iff]
    constructor
    · exact fun hsame => congrArg Decoded.pcm (Option.some_inj.mp hsame)
    · exact fun hcopied => by rw [hcopied]
  · refine iff_of_false (fun hdecoded => ?_) fun h => absurd h.1 hlong.not_gt
    have hfew : (wrap32 data.length).toNat < rest.length := by
      rw [wrap32, Int.bmod_def]
      omega
    split_ifs at hdecoded
    · exact absurd (congrArg Decoded.pcm (Option.some_inj.mp hdecoded)).symm (Option.some_ne_none _)
    · have hends : Ends data (wrap32 data.length).toNat { pos := 12 } := by
        rcases hscan (wrap32 data.length).toNat with ⟨-, hends⟩ | hscan
        · exact hends
        · rw [Ends, hscan]
          exact ends_of_lt (by dsimp only; omega)
      obtain ⟨rate', channels, hnone⟩ := hends
      have hsame := Option.some_inj.mp (hnone.symm.trans hdecoded)
      exact absurd (congrArg Decoded.pcm hsame).symm (Option.some_ne_none _)

/-! ### Any bytes -/

/-- What is known of the format and the samples of any file. -/
structure Sane (data : List UInt8) (d : Decoded) : Prop where
  channels : ∀ pcm ∈ d.pcm, 1 ≤ d.channels ∧ d.channels < 2 ^ 16
  rate : -2 ^ 31 ≤ d.rate ∧ d.rate < 2 ^ 31
  pcm : ∀ pcm ∈ d.pcm, pcm.length ≤ data.length

/-- The numbers that were read have the width of their types. -/
structure Scan.Sane (s : Scan) : Prop where
  channels : s.channels < 2 ^ 16
  rate : -2 ^ 31 ≤ s.rate ∧ s.rate < 2 ^ 31

/-- A round has no fault. -/
theorem chunk_spec {data : List UInt8} {s : Scan} (h : s.pos + 8 ≤ data.length) (hs : s.Sane) :
    (∃ d, chunk data data.length s = some (.inl d) ∧ Sane data d) ∨
      ∃ s', chunk data data.length s = some (.inr s') ∧ s'.Sane := by
  obtain ⟨size, hsize⟩ := readU32_of_le data (s.pos + 4) (by omega)
  obtain ⟨id, hid, -⟩ := slice_of_le data (show s.pos ≤ s.pos + 4 by omega) (by omega)
  rw [chunk, hsize, hid]
  simp only [Option.bind_eq_bind, Option.bind_some]
  by_cases hformat : id = ofString "fmt " ∧ s.pos + 8 + 16 ≤ data.length
  · obtain ⟨format, hf, -⟩ := readU16_of_le data (s.pos + 8) (by omega)
    obtain ⟨channels, hc, hlt⟩ := readU16_of_le data (s.pos + 8 + 2) (by omega)
    obtain ⟨rate, hr⟩ := readU32_of_le data (s.pos + 8 + 4) (by omega)
    obtain ⟨bits, hb, -⟩ := readU16_of_le data (s.pos + 8 + 14) (by omega)
    rw [if_pos hformat, hf, hc, hr, hb]
    have hbounds := wrap32_bounds (rate : ℤ)
    refine Or.inr ⟨⟨s.pos + 8 + size + size % 2, format, bits, wrap32 rate, channels⟩, rfl, hlt, ?_⟩
    dsimp only
    omega
  · rw [if_neg hformat]
    by_cases hdata : id = ofString "data"
    · rw [if_pos hdata]
      by_cases hbad : s.format ≠ 1 ∨ s.bits ≠ 16 ∨ s.channels < 1
      · rw [if_pos hbad]
        exact Or.inl ⟨_, rfl, fun pcm hp => absurd hp (Option.not_mem_none pcm), hs.rate,
          fun pcm hp => absurd hp (Option.not_mem_none pcm)⟩
      · obtain ⟨pcm, hpcm, hlength⟩ := slice_of_le data
          (show s.pos + 8 ≤ min (s.pos + 8 + size) data.length by omega) (by omega)
        rw [if_neg hbad, hpcm]
        rw [not_or, not_or] at hbad
        refine Or.inl ⟨_, rfl, fun _ _ => ?_, hs.rate, fun pcm' hp => ?_⟩
        · have hchannels := hs.channels
          dsimp only
          omega
        · rw [eq_of_mem_copied hp]
          omega
    · rw [if_neg hdata]
      exact Or.inr ⟨_, rfl, hs.channels, hs.rate⟩

theorem scan_spec {data : List UInt8} {s : Scan} (hs : s.Sane) :
    ∃ d, scan data data.length s = some d ∧ Sane data d := by
  by_cases h : s.pos + 8 ≤ data.length
  · rcases chunk_spec h hs with ⟨d, hchunk, hd⟩ | ⟨s', hchunk, hs'⟩
    · exact ⟨d, scan_of_inl h hchunk, hd⟩
    · have hpos := pos_lt_of_chunk hchunk
      obtain ⟨d, hscan, hd⟩ := scan_spec hs'
      exact ⟨d, (scan_of_inr h hchunk).trans hscan, hd⟩
  · rw [scan, if_neg h]
    exact ⟨_, rfl, fun pcm hp => absurd hp (Option.not_mem_none pcm), hs.rate,
      fun pcm hp => absurd hp (Option.not_mem_none pcm)⟩
termination_by data.length - s.pos

/-- **Any bytes are decoded without a fault.** -/
theorem decode_spec {data : List UInt8} (hlength : data.length < 2 ^ 31) :
    ∃ d, decode data = some d ∧ Sane data d := by
  have hzero : -2 ^ 31 ≤ (0 : ℤ) ∧ (0 : ℤ) < 2 ^ 31 := by omega
  have hnone : Sane data ⟨none, 0, 0⟩ :=
    ⟨fun pcm hp => absurd hp (Option.not_mem_none pcm), hzero,
      fun pcm hp => absurd hp (Option.not_mem_none pcm)⟩
  have hint : wrap32 (data.length : ℤ) = data.length := wrap32_eq (by omega) (by omega)
  rw [decode, hint, Int.toNat_natCast]
  by_cases hshort : (data.length : ℤ) < 12
  · rw [if_pos hshort]
    exact ⟨_, rfl, hnone⟩
  · obtain ⟨riff, hriff, -⟩ := slice_of_le data (show 0 ≤ 4 by omega) (by omega)
    obtain ⟨wave, hwave, -⟩ := slice_of_le data (show 8 ≤ 12 by omega) (by omega)
    rw [if_neg hshort, hriff, hwave]
    simp only [Option.bind_eq_bind, Option.bind_some]
    by_cases hmagic : riff ≠ ofString "RIFF" ∨ wave ≠ ofString "WAVE"
    · rw [if_pos hmagic]
      exact ⟨_, rfl, hnone⟩
    · rw [if_neg hmagic]
      exact scan_spec ⟨Nat.two_pow_pos 16, hzero⟩

/-! ### Samples -/

theorem sample_of_lt (pcm : List UInt8) {offset : ℤ} (h : 0 ≤ offset)
    (h' : offset + 1 < pcm.length) (hlength : pcm.length < 2 ^ 31) :
    ∃ value, sample pcm offset = some value ∧ -2 ^ 15 ≤ value ∧ value < 2 ^ 15 := by
  have hnext : wrap32 (offset + 1) = offset + 1 := wrap32_eq (by omega) (by omega)
  obtain ⟨a, ha⟩ := read_of_lt pcm h (by omega)
  obtain ⟨b, hb⟩ := read_of_lt pcm (show 0 ≤ offset + 1 by omega) h'
  refine ⟨_, ?_, wrap16_bounds ((a.toNat ||| b.toNat <<< 8 : ℕ) : ℤ)⟩
  rw [sample, hnext, ha, hb]
  rfl

theorem putSample_of_lt (pcm : List UInt8) {offset : ℤ} (h : 0 ≤ offset)
    (h' : offset + 1 < pcm.length) (hlength : pcm.length < 2 ^ 31) (value : ℤ) :
    ∃ pcm', putSample pcm offset value = some pcm' ∧ pcm'.length = pcm.length := by
  have hnext : wrap32 (offset + 1) = offset + 1 := wrap32_eq (by omega) (by omega)
  obtain ⟨first, hfirst, hlen⟩ := write_of_lt pcm h (by omega)
    (UInt8.ofNat (value % 256).toNat)
  obtain ⟨second, hsecond, hlen'⟩ := write_of_lt first (show 0 ≤ offset + 1 by omega)
    (by omega) (UInt8.ofNat ((value >>> (8 : ℕ)) % 256).toNat)
  refine ⟨second, ?_, hlen'.trans hlen⟩
  rw [putSample, hfirst, hnext, Option.bind_eq_bind, Option.bind_some]
  exact hsecond

/-- The number of frames of a file. -/
def frames (pcm : List UInt8) (channels : ℤ) : ℤ := pcm.length / (2 * channels)

/-- The samples of a frame are among the bytes. -/
theorem monoSum_spec {pcm : List UInt8} {channels : ℤ} {f : ℕ} (hlength : pcm.length < 2 ^ 31)
    (hframe : ((f : ℤ) + 1) * (2 * channels) ≤ pcm.length) :
    ∃ sum, monoSum pcm channels f = some sum := by
  have hround : ∀ c < channels.toNat, ∀ sum : ℤ, True → ∃ sum' : ℤ,
      ((sample pcm (wrap32 (wrap32 (wrap32 (f * channels) + c) * 2))).bind fun value =>
        pure (wrap32 (sum + value))) = some sum' ∧ True := by
    intro c hc sum _
    have hstart : 0 ≤ (f : ℤ) * channels := Int.mul_nonneg (by omega) (by omega)
    have hend : ((f : ℤ) + 1) * (2 * channels) = f * channels * 2 + 2 * channels := by
      rw [add_mul, one_mul, mul_left_comm, mul_comm 2]
    have hoffset : wrap32 (wrap32 (wrap32 ((f : ℤ) * channels) + c) * 2) =
        (f * channels + c) * 2 := by
      rw [wrap32_eq (x := (f : ℤ) * channels) (by omega) (by omega),
        wrap32_eq (x := (f : ℤ) * channels + c) (by omega) (by omega),
        wrap32_eq (by omega) (by omega)]
    obtain ⟨value, hvalue, -⟩ := sample_of_lt pcm
      (show 0 ≤ ((f : ℤ) * channels + c) * 2 by omega) (by omega) hlength
    refine ⟨wrap32 (sum + value), ?_, trivial⟩
    rw [hoffset, hvalue]
    rfl
  obtain ⟨sum, hsum, -⟩ := loop_invariant _ hround trivial
  exact ⟨sum, hsum⟩

/-- One channel is made of several without a fault. -/
theorem toMono_spec (pcm : List UInt8) {channels : ℤ} (hchannels : 1 ≤ channels)
    (hlt : channels < 2 ^ 16) (hlength : pcm.length < 2 ^ 31) :
    ∃ mono, toMono pcm channels = some mono ∧ mono.length ≤ pcm.length ∧
      (mono.length : ℤ) / 2 = frames pcm channels := by
  rw [toMono]
  by_cases hone : channels ≤ 1
  · rw [if_pos hone]
    obtain rfl : channels = 1 := le_antisymm hone hchannels
    exact ⟨pcm, rfl, le_rfl, rfl⟩
  · have hdivisor : wrap32 (2 * channels) = 2 * channels := wrap32_eq (by omega) (by omega)
    have hquotient : quotient pcm.length (2 * channels) = some (frames pcm channels) := by
      rw [quotient, if_neg (by omega), Int.tdiv_eq_ediv_of_nonneg (by omega), frames]
    obtain ⟨n, hn⟩ : ∃ n, n = frames pcm channels := ⟨_, rfl⟩
    have hnonneg : 0 ≤ n := hn ▸ Int.ediv_nonneg (by omega) (by omega)
    have hframes : n * (2 * channels) ≤ pcm.length := hn ▸ Int.ediv_mul_le _ (by omega)
    have hbytes : n * 2 ≤ pcm.length := by
      refine le_trans ?_ hframes
      exact Int.mul_le_mul_of_nonneg_left (by omega) hnonneg
    have hsize : wrap32 (n * 2) = n * 2 := wrap32_eq (by omega) (by omega)
    obtain ⟨mono, hnew, hmono⟩ := new_of_nonneg (show 0 ≤ n * 2 by omega) (0 : UInt8)
    have hround : ∀ f < n.toNat, ∀ mono : List UInt8, (mono.length : ℤ) = n * 2 →
        ∃ mono' : List UInt8, monoFrame pcm channels f mono = some mono' ∧
          (mono'.length : ℤ) = n * 2 := by
      intro f hf mono hmono
      have hframe : ((f : ℤ) + 1) * (2 * channels) ≤ pcm.length :=
        le_trans (Int.mul_le_mul_of_nonneg_right (by omega) (by omega)) hframes
      obtain ⟨sum, hsum⟩ := monoSum_spec hlength hframe
      have hmean : quotient sum channels = some (sum.tdiv channels) := if_neg (by omega)
      have hoffset : wrap32 ((f : ℤ) * 2) = f * 2 := wrap32_eq (by omega) (by omega)
      obtain ⟨mono', hput, hlen⟩ := putSample_of_lt mono (show 0 ≤ (f : ℤ) * 2 by omega)
        (by omega) (by omega) (wrap16 (sum.tdiv channels))
      refine ⟨mono', ?_, by omega⟩
      rw [monoFrame, hsum, hoffset]
      simp only [Option.bind_eq_bind, Option.bind_some]
      rw [hmean, Option.bind_some, hput]
    obtain ⟨result, hloop, hresult⟩ := loop_invariant _ hround hmono
    rw [if_neg hone, hdivisor, hquotient, ← hn]
    simp only [Option.bind_eq_bind, Option.bind_some]
    rw [hsize, hnew, Option.bind_some]
    refine ⟨result, hloop, by omega, ?_⟩
    rw [hresult]
    omega

/-- The samples from which one is made. -/
theorem src_spec (undefined : ℕ → Double → ℤ) {rate n : ℤ} {i : ℕ} (hrate : 1 ≤ rate)
    (hi : i * rate < n * sampleRate) (hn : n < 2 ^ 30) :
    0 ≤ (Double.num (fl (fl (i * rate) / sampleRate))).toInt undefined 32 := by
  have hnonneg : 0 ≤ (i : ℤ) * rate := Int.mul_nonneg (by omega) (by omega)
  have hexact : fl ((i : ℚ) * rate) = (i * rate : ℤ) := by
    have hint := fl_intCast (n := i * rate) (abs_lt.mpr ⟨by omega, by rw [sampleRate] at hi; omega⟩)
    rw [← hint]
    push_cast
    rfl
  have hquotient : 0 ≤ ((i * rate : ℤ) : ℚ) / sampleRate ∧
      ((i * rate : ℤ) : ℚ) / sampleRate < 2 ^ 30 := by
    have hnonneg' : (0 : ℚ) ≤ (i * rate : ℤ) := by exact_mod_cast hnonneg
    have hlt : ((i * rate : ℤ) : ℚ) < 2 ^ 30 * 16000 := by
      have hint : (i : ℤ) * rate < 2 ^ 30 * 16000 := by
        rw [sampleRate] at hi
        omega
      exact_mod_cast hint
    rw [sampleRate]
    push_cast at hnonneg' hlt ⊢
    constructor
    · positivity
    · rw [div_lt_iff₀ (by norm_num)]
      exact hlt
  have hfit : fl (((i * rate : ℤ) : ℚ) / sampleRate) < 2 ^ (32 - 1) := by
    have herror := fl_lt_add_one (x := ((i * rate : ℤ) : ℚ) / sampleRate) (by
      rw [abs_of_nonneg hquotient.1]
      exact hquotient.2.trans (by norm_num))
    have hsum := herror.trans (add_lt_add_left hquotient.2 1)
    exact hsum.trans (by norm_num)
  rw [hexact, Double.toInt_of_nonneg (fl_nonneg hquotient.1) hfit]
  exact Int.floor_nonneg.mpr (fl_nonneg hquotient.1)

/-- A sample is made of two that are among the bytes. -/
theorem resampleFrame_spec (undefined : ℕ → Double → ℤ) {pcm : List UInt8} (result : List UInt8)
    {rate : ℤ} {i : ℕ}
    (hlength : pcm.length < 2 ^ 31) (hrate : 1 ≤ rate)
    (hi : i * rate < (pcm.length : ℤ) / 2 * sampleRate) (hresult : (i : ℤ) * 2 + 1 < result.length)
    (hlength' : result.length < 2 ^ 31) :
    ∃ result', resampleFrame undefined pcm ((pcm.length : ℤ) / 2) rate sampleRate i result =
      some result' ∧ result'.length = result.length := by
  obtain ⟨n, hn⟩ : ∃ n, n = (pcm.length : ℤ) / 2 := ⟨_, rfl⟩
  have hnonneg : 0 ≤ (i : ℤ) * rate := Int.mul_nonneg (by omega) (by omega)
  rw [← hn, sampleRate] at hi
  have hpos : 1 ≤ n ∧ n < 2 ^ 30 ∧ n * 2 ≤ pcm.length := by omega
  have hsrc := src_spec undefined hrate (by rw [sampleRate]; exact hi) hpos.2.1
  obtain ⟨src, hsrc'⟩ : ∃ src, src = fl (fl ((i : ℚ) * rate) / sampleRate) := ⟨_, rfl⟩
  rw [← hsrc'] at hsrc
  have hlast : wrap32 (n - 1) = n - 1 := wrap32_eq (by omega) (by omega)
  obtain ⟨a, ha⟩ : ∃ a, a = min ((Double.num src).toInt undefined 32) (n - 1) := ⟨_, rfl⟩
  have ha' : 0 ≤ a ∧ a ≤ n - 1 := by omega
  have hnext : wrap32 (a + 1) = a + 1 := wrap32_eq (by omega) (by omega)
  obtain ⟨b, hb⟩ : ∃ b, b = min (a + 1) (n - 1) := ⟨_, rfl⟩
  have hb' : 0 ≤ b ∧ b ≤ n - 1 := by omega
  obtain ⟨va, hva, -⟩ := sample_of_lt pcm (show 0 ≤ a * 2 by omega) (by omega) hlength
  obtain ⟨vb, hvb, -⟩ := sample_of_lt pcm (show 0 ≤ b * 2 by omega) (by omega) hlength
  obtain ⟨v, hv⟩ : ∃ v, v = (Double.num (fl (va + fl ((vb - va : ℤ) * fl (src - a))))).toInt
    undefined 16 := ⟨_, rfl⟩
  obtain ⟨result', hput, hlen⟩ := putSample_of_lt result (show 0 ≤ (i : ℤ) * 2 by omega) hresult
    hlength' v
  refine ⟨result', ?_, hlen⟩
  rw [← hn, resampleFrame, ← hsrc', hlast, ← ha, hnext, ← hb, wrap32_eq (x := a * 2) (by omega)
    (by omega), wrap32_eq (x := b * 2) (by omega) (by omega),
    wrap32_eq (x := (i : ℤ) * 2) (by omega) (by omega)]
  simp only [Option.bind_eq_bind]
  rw [hva, Option.bind_some, hvb, Option.bind_some, ← hv, hput]

/-- The number of frames that `resample` makes, in exact arithmetic. -/
def outFrames (frames rate : ℤ) : ℤ := frames * sampleRate / rate

section Resample

variable {undefined : ℕ → Double → ℤ} {pcm : List UInt8} {rate : ℤ}

/-- The rates that `resample` does not leave alone. -/
theorem resample_eq (hlength : pcm.length < 2 ^ 31) (hrate : 1 ≤ rate) (hne : rate ≠ sampleRate) :
    resample undefined pcm rate sampleRate =
      (new (wrap32 (wrap32 (outFrames ((pcm.length : ℤ) / 2) rate) * 2)) 0).bind
        (loop (resampleFrame undefined pcm ((pcm.length : ℤ) / 2) rate sampleRate)
          (wrap32 (outFrames ((pcm.length : ℤ) / 2) rate)).toNat) := by
  have hhalf : (pcm.length : ℤ).tdiv 2 = (pcm.length : ℤ) / 2 :=
    Int.tdiv_eq_ediv_of_nonneg (by omega)
  have hproduct : wrap64 ((pcm.length : ℤ) / 2 * sampleRate) =
      (pcm.length : ℤ) / 2 * sampleRate := by
    rw [sampleRate, wrap64_eq (by omega) (by omega)]
  have hquotient : quotient ((pcm.length : ℤ) / 2 * sampleRate) rate =
      some (outFrames ((pcm.length : ℤ) / 2) rate) := by
    rw [quotient, if_neg (by omega), outFrames, Int.tdiv_eq_ediv_of_nonneg]
    rw [sampleRate]
    omega
  rw [resample, if_neg (by omega), hhalf]
  dsimp only
  rw [hproduct, hquotient]
  rfl

theorem outFrames_nonneg (pcm : List UInt8) (hrate : 1 ≤ rate) :
    0 ≤ outFrames ((pcm.length : ℤ) / 2) rate := by
  refine Int.ediv_nonneg ?_ (by omega)
  rw [sampleRate]
  omega

/-- **A size that is an `int`** is allocated and filled. -/
theorem resample_spec (undefined : ℕ → Double → ℤ) (hlength : pcm.length < 2 ^ 31)
    (hrate : 1 ≤ rate) (hne : rate ≠ sampleRate)
    (hfit : 2 * outFrames ((pcm.length : ℤ) / 2) rate < 2 ^ 31) :
    ∃ result, resample undefined pcm rate sampleRate = some result ∧
      (result.length : ℤ) = 2 * outFrames ((pcm.length : ℤ) / 2) rate := by
  have hnonneg := outFrames_nonneg pcm hrate
  rw [resample_eq hlength hrate hne]
  obtain ⟨n, hn⟩ : ∃ n, n = outFrames ((pcm.length : ℤ) / 2) rate := ⟨_, rfl⟩
  rw [← hn] at hfit hnonneg ⊢
  rw [wrap32_eq (x := n) (by omega) (by omega), wrap32_eq (x := n * 2) (by omega) (by omega)]
  obtain ⟨empty, hnew, hempty⟩ := new_of_nonneg (show 0 ≤ n * 2 by omega) (0 : UInt8)
  have hall : n * rate ≤ (pcm.length : ℤ) / 2 * sampleRate := hn ▸ Int.ediv_mul_le _ (by omega)
  have hround : ∀ i < n.toNat, ∀ result : List UInt8, (result.length : ℤ) = 2 * n →
      ∃ result' : List UInt8, resampleFrame undefined pcm ((pcm.length : ℤ) / 2) rate sampleRate i
        result = some result' ∧ (result'.length : ℤ) = 2 * n := by
    intro i hi result hresult
    have hlt : (i : ℤ) * rate < n * rate := Int.mul_lt_mul_of_pos_right (by omega) (by omega)
    obtain ⟨result', hframe, hlen⟩ := resampleFrame_spec undefined result
      hlength hrate (hlt.trans_le hall) (by omega) (by omega)
    exact ⟨result', hframe, by omega⟩
  obtain ⟨result, hloop, hresult⟩ := loop_invariant _ hround (by omega : (empty.length : ℤ) = 2 * n)
  refine ⟨result, ?_, hresult⟩
  rw [hnew, Option.bind_some]
  exact hloop

theorem length_of_putSample {result result' : List UInt8} {offset value : ℤ}
    (h : putSample result offset value = some result') : result'.length = result.length := by
  obtain ⟨middle, hfirst, hsecond⟩ := Option.bind_eq_some_iff.mp h
  exact (length_of_write hsecond).trans (length_of_write hfirst)

theorem length_of_resampleFrame {frames fromRate toRate : ℤ} {i : ℕ} {result result' : List UInt8}
    (h : resampleFrame undefined pcm frames fromRate toRate i result = some result') :
    result'.length = result.length := by
  obtain ⟨va, -, h⟩ := Option.bind_eq_some_iff.mp h
  obtain ⟨vb, -, h⟩ := Option.bind_eq_some_iff.mp h
  exact length_of_putSample h

/-- The length of a result is always an `int`. -/
theorem length_of_resample {result : List UInt8} (hlength : pcm.length < 2 ^ 31) (hrate : 1 ≤ rate)
    (hne : rate ≠ sampleRate) (h : resample undefined pcm rate sampleRate = some result) :
    (result.length : ℤ) < 2 ^ 31 := by
  rw [resample_eq hlength hrate hne] at h
  obtain ⟨empty, hnew, hloop⟩ := Option.bind_eq_some_iff.mp h
  have hkept : (result.length : ℤ) = empty.length :=
    of_loop_eq_some (P := fun result : List UInt8 => (result.length : ℤ) = empty.length)
      (fun i s s' hs hframe => by rw [length_of_resampleFrame hframe, hs]) rfl hloop
  rw [hkept, length_of_new hnew]
  exact (wrap32_bounds _).2

end Resample

/-! ### The conversion of a file -/

/-- A conversion ends without a fault, and a result that is allocated has as many bytes as the
rates say. -/
def Converts (undefined : ℕ → Double → ℤ) (data : List UInt8) : Prop :=
  ∃ decoded, decode data = some decoded ∧ ∀ pcm ∈ decoded.pcm, ∃ mono result,
    toMono pcm decoded.channels = some mono ∧
    resample undefined mono decoded.rate sampleRate = some result ∧
    (0 < decoded.rate → decoded.rate ≠ sampleRate →
      (result.length : ℤ) = 2 * outFrames ((mono.length : ℤ) / 2) decoded.rate)

/-- The size of the result is an `int`, where one is allocated. -/
def Representable (data : List UInt8) : Prop :=
  ∀ decoded, decode data = some decoded → ∀ pcm ∈ decoded.pcm, 0 < decoded.rate →
    decoded.rate ≠ sampleRate →
    2 * outFrames (frames pcm decoded.channels) decoded.rate < 2 ^ 31

theorem converts_iff (undefined : ℕ → Double → ℤ) {data : List UInt8}
    (hlength : data.length < 2 ^ 31) : Converts undefined data ↔ Representable data := by
  obtain ⟨decoded, hdecode, hsane⟩ := decode_spec hlength
  have hmono : ∀ pcm ∈ decoded.pcm, ∃ mono, toMono pcm decoded.channels = some mono ∧
      mono.length < 2 ^ 31 ∧ (mono.length : ℤ) / 2 = frames pcm decoded.channels := by
    intro pcm hpcm
    obtain ⟨hchannels, hlt⟩ := hsane.channels pcm hpcm
    have hle := hsane.pcm pcm hpcm
    obtain ⟨mono, hmono, hshort, hframes⟩ := toMono_spec pcm hchannels hlt (by omega)
    exact ⟨mono, hmono, by omega, hframes⟩
  constructor
  · rintro ⟨decoded', hdecode', hconverts⟩ decoded'' hdecode'' pcm hpcm hrate hne
    obtain rfl := Option.some_inj.mp (hdecode.symm.trans hdecode')
    obtain rfl := Option.some_inj.mp (hdecode.symm.trans hdecode'')
    obtain ⟨mono, result, hmono', hresult, hsize⟩ := hconverts pcm hpcm
    obtain ⟨mono', hmono'', hshort, hframes⟩ := hmono pcm hpcm
    obtain rfl := Option.some_inj.mp (hmono'.symm.trans hmono'')
    rw [← hframes, ← hsize hrate hne]
    exact length_of_resample hshort (by omega) hne hresult
  · intro hfit
    refine ⟨decoded, hdecode, fun pcm hpcm => ?_⟩
    obtain ⟨mono, hmono', hshort, hframes⟩ := hmono pcm hpcm
    by_cases hleft : decoded.rate = sampleRate ∨ decoded.rate ≤ 0
    · refine ⟨mono, mono, hmono', if_pos hleft, fun hpos hne => ?_⟩
      rcases hleft with heq | hneg
      · exact absurd heq hne
      · exact absurd hpos hneg.not_gt
    · obtain ⟨hne, hpos⟩ := not_or.mp hleft
      have hsize := hfit decoded hdecode pcm hpcm (by omega) hne
      rw [← hframes] at hsize
      obtain ⟨result, hresult, hlen⟩ := resample_spec undefined hshort
        (show 1 ≤ decoded.rate by omega) hne hsize
      exact ⟨mono, result, hmono', hresult, fun _ _ => hlen⟩

/-- A conversion that ends has no fault on the way. -/
theorem convert_of_converts {undefined : ℕ → Double → ℤ} {data : List UInt8}
    (h : Converts undefined data) : ∃ result, convert undefined data = some result := by
  obtain ⟨decoded, hdecode, hconverts⟩ := h
  rw [convert, hdecode, Option.bind_eq_bind, Option.bind_some]
  cases hpcm : decoded.pcm with
  | none => exact ⟨none, rfl⟩
  | some pcm =>
    obtain ⟨mono, result, hmono, hresult, -⟩ := hconverts pcm hpcm
    refine ⟨some result, ?_⟩
    dsimp only
    rw [hmono, Option.bind_eq_bind, Option.bind_some, hresult]
    rfl

/-- No file is loaded with a fault whose size is an `int` when it is converted. -/
theorem loadPcm_of_representable (undefined : ℕ → Double → ℤ) {file : AudioFile}
    (h : ∀ data ∈ file.contents, data.length < 2 ^ 31 ∧ Representable data) :
    ∃ result, loadPcm undefined file = some result := by
  rw [loadPcm]
  cases file.info with
  | none => exact ⟨_, rfl⟩
  | some info =>
    dsimp only
    split_ifs
    · exact ⟨_, rfl⟩
    · exact ⟨_, rfl⟩
    · cases hcontents : file.contents with
      | none => exact ⟨_, rfl⟩
      | some data =>
        obtain ⟨hlength, hfit⟩ := h data hcontents
        obtain ⟨result, hresult⟩ :=
          convert_of_converts ((converts_iff undefined hlength).mpr hfit)
        dsimp only
        rw [hresult]
        exact ⟨_, rfl⟩

/-- **Audio files.** A file that was written, with other chunks before its samples, is decoded to
what was written exactly when its length is an `int` and it has samples. Any bytes are converted
without a fault, to as many bytes as the rates say, exactly when their number is an `int`, and then
the file that has them is loaded or refused. -/
theorem wav_spec (undefined : ℕ → Double → ℤ) :
    (∀ size before after pcm rate, pcm.length % 2 = 0 → 36 + pcm.length < 2 ^ 31 →
      1 ≤ rate ∧ rate ≤ 2 ^ 30 →
      (decode (encodeWith size before after pcm rate) = some ⟨some pcm, rate, 1⟩ ↔
        (encodeWith size before after pcm rate).length < 2 ^ 31 ∧ pcm ≠ [])) ∧
    (∀ data : List UInt8, data.length < 2 ^ 31 →
      (Converts undefined data ↔ Representable data)) ∧
    ∀ file : AudioFile, (∀ data ∈ file.contents, data.length < 2 ^ 31 ∧ Representable data) →
      ∃ result, loadPcm undefined file = some result :=
  ⟨fun _ _ _ _ _ _ hpcm hrate => decode_encodeWith_iff hrate (by omega),
    fun _ hlength => converts_iff undefined hlength,
    fun _ hfit => loadPcm_of_representable undefined hfit⟩

/-- A chunk of one byte, which is padded. -/
def listChunk : Chunk where
  id := ofString "LIST"
  body := [7]
  length_id := rfl
  other := by decide
  size := by decide

/-- A file with two chunks before one frame at half the rate. -/
theorem wav_spec_frame :
    decode (encodeWith 0 [listChunk] [listChunk] [1, 0] 8000) = some ⟨some [1, 0], 8000, 1⟩ ∧
    Converts (fun _ _ => 0) (encodeWith 0 [listChunk] [listChunk] [1, 0] 8000) := by
  obtain ⟨hdecode, hconverts, -⟩ := wav_spec fun _ _ => 0
  have hone := (hdecode 0 [listChunk] [listChunk] [1, 0] 8000 rfl (by decide) (by decide)).mpr
    ⟨by decide, List.cons_ne_nil _ _⟩
  refine ⟨hone, (hconverts _ (by decide)).mpr ?_⟩
  intro decoded hdecoded pcm hpcm _ _
  obtain rfl := Option.some_inj.mp (hone.symm.trans hdecoded)
  obtain rfl := Option.some_inj.mp hpcm
  decide

theorem length_encode (pcm : List UInt8) (rate : ℤ) :
    (encode pcm rate).length = 44 + pcm.length := by
  rw [encode, List.length_append]
  rfl

/-- Four seconds of silence, with a rate of one frame in a second. -/
def slowSilence : List UInt8 := encode (List.replicate 134218 0) 1

/-- **A size that is no `int`.** Of 67109 frames 16000 times as many are to be made. -/
theorem not_converts_slowSilence :
    slowSilence.length < 2 ^ 31 ∧ ¬ Converts (fun _ _ => 0) slowSilence := by
  have hlength : slowSilence.length < 2 ^ 31 := by
    rw [slowSilence, length_encode, List.length_replicate]
    omega
  refine ⟨hlength, fun h => ?_⟩
  have hdecode : decode slowSilence = some ⟨some (List.replicate 134218 0), 1, 1⟩ := by
    rw [slowSilence, encode_eq] at hlength ⊢
    exact (decode_encodeWith_iff (by omega) (by rw [List.length_replicate]; omega)).mpr
      ⟨hlength, List.cons_ne_nil _ _⟩
  have hfit := (converts_iff _ hlength).mp h _ hdecode (List.replicate 134218 0) rfl
    Int.one_pos (by decide)
  rw [outFrames, frames, List.length_replicate, sampleRate] at hfit
  exact absurd hfit (by decide)

end Wav

end Dictation

end SingularityShell
