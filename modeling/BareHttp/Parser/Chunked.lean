import Mathlib.Algebra.Group.Nat.Defs
import BareHttp.Foundation.Buffer
import BareHttp.Foundation.Transducer
import BareHttp.Parser.Pico

/-!
# The decoder for chunked bodies

`phr_decode_chunked` of `srclib/picohttpparser.c` takes the chunk sizes and line ends out of a body
and moves the data to the front of the buffer it arrived in.  It is called again with what arrives
next, and its state is kept in a `struct phr_chunked_decoder` between the calls.

Two levels are compared here.  `decodeLoop` is the loop of the source over the memory of the
buffer, with the positions `src` and `dst`.  `step` says what one byte does to the decoder and
whether it is data; it knows nothing of a buffer.  `decodeLoop_follows` is the simulation: the loop
leaves at the front of the buffer what a run of `step` over its bytes writes, keeps what it has not
read, and touches nothing behind the buffer.
-/

namespace BareHttp
namespace Chunked

open Buffer Transducer Pico

/-- `enum { CHUNKED_IN_CHUNK_SIZE, ... }`. -/
inductive ChunkState where
  | inChunkSize
  | inChunkExt
  | inChunkHeaderExpectLf
  | inChunkData
  | inChunkDataExpectCr
  | inChunkDataExpectLf
  | inTrailersLineHead
  | inTrailersLineMiddle
  deriving DecidableEq

/-- `struct phr_chunked_decoder`. -/
structure Decoder where
  bytesLeftInChunk : ℕ
  consumeTrailer : Bool
  hexCount : ℕ
  state : ChunkState
  totalRead : ℕ
  totalOverhead : ℕ
  deriving DecidableEq

/-- A decoder that is zero-filled but for `consume_trailer`. -/
def Decoder.fresh (consumeTrailer : Bool) : Decoder := ⟨0, consumeTrailer, 0, .inChunkSize, 0, 0⟩

/-- `decode_hex`; `none` is the value `-1`. -/
def decodeHex (ch : UInt8) : Option ℕ :=
  if 48 ≤ ch ∧ ch ≤ 57 then some (ch.toNat - 48)
  else if 65 ≤ ch ∧ ch ≤ 70 then some (ch.toNat - 65 + 10)
  else if 97 ≤ ch ∧ ch ≤ 102 then some (ch.toNat - 97 + 10)
  else none

/-- What may stand behind a chunk size: a blank, a semicolon or a line end. -/
def behindSize (ch : UInt8) : Bool := ch = sp || ch = ht || ch = 59 || ch = lf || ch = cr

/-! ## The loop -/

/-- What the loop of `phr_decode_chunked` changes. -/
structure Chunking where
  decoder : Decoder
  mem : ℕ → UInt8
  src : ℕ
  dst : ℕ

/-- Where the loop is left: at `Exit` with `ret` still `-2`, at `Exit` with `ret = -1`, or at
`Complete`. -/
inductive Exit where
  | incomplete
  | invalid
  | complete
  deriving DecidableEq

/-- What one round comes to. -/
inductive Turn where
  | next (s : Chunking)
  | leave (e : Exit) (s : Chunking)

/-- `if (dst != src) memmove(buf + dst, buf + src, n)`. -/
def moveDown (mem : ℕ → UInt8) (dst src n : ℕ) : ℕ → UInt8 :=
  if dst ≠ src then write mem dst (slice mem src n) else mem

/-- A size of sixty-four bits. -/
def toUInt64 (n : ℕ) : ℕ := n % 18446744073709551616

namespace Chunking

/-- The next state of the decoder. -/
def goto (s : Chunking) (state : ChunkState) : Chunking :=
  { s with decoder := { s.decoder with state := state } }

/-- `++src`. -/
def advance (s : Chunking) : Chunking := { s with src := s.src + 1 }

/-- One round of the loop under `CHUNKED_IN_CHUNK_SIZE`, for the byte `c`.  A byte that is not a
digit stays unread. -/
def chunkSize (s : Chunking) (c : UInt8) : Turn :=
  match decodeHex c with
  | none =>
    if s.decoder.hexCount = 0 then .leave .invalid s
    else if behindSize c then
      .next { s with decoder := { s.decoder with hexCount := 0, state := .inChunkExt } }
    else .leave .invalid s
  | some v =>
    if s.decoder.hexCount = 16 then .leave .invalid s
    else
      .next
        { s with
          decoder :=
            { s.decoder with
              bytesLeftInChunk := toUInt64 (s.decoder.bytesLeftInChunk * 16 + v)
              hexCount := s.decoder.hexCount + 1 }
          src := s.src + 1 }

/-- The data of a chunk, as far as it is there. -/
def chunkData (bufsz : ℕ) (s : Chunking) : Turn :=
  let avail := bufsz - s.src
  let left := s.decoder.bytesLeftInChunk
  if avail < left then
    .leave .incomplete
      { decoder := { s.decoder with bytesLeftInChunk := left - avail }
        mem := moveDown s.mem s.dst s.src avail
        src := s.src + avail
        dst := s.dst + avail }
  else
    .next
      { decoder := { s.decoder with bytesLeftInChunk := 0, state := .inChunkDataExpectCr }
        mem := moveDown s.mem s.dst s.src left
        src := s.src + left
        dst := s.dst + left }

/-- The line end behind a chunk size. -/
def headerLf (s : Chunking) : Turn :=
  if s.decoder.bytesLeftInChunk = 0 then
    if s.decoder.consumeTrailer then .next (s.advance.goto .inTrailersLineHead)
    else .leave .complete s.advance
  else .next (s.advance.goto .inChunkData)

/-- One round of the loop: one of an inner loop, or a case without one.  Where a case falls through
to the next one, the state is that of the next one. -/
def round (bufsz : ℕ) (s : Chunking) : Turn :=
  if s.decoder.state = .inChunkData then s.chunkData bufsz
  else if s.src = bufsz then .leave .incomplete s
  else
    let c := s.mem s.src
    match s.decoder.state with
    | .inChunkSize => s.chunkSize c
    | .inChunkExt =>
      if c = cr then .next (s.advance.goto .inChunkHeaderExpectLf)
      else if c = lf then .leave .invalid s
      else .next s.advance
    | .inChunkHeaderExpectLf => if c ≠ lf then .leave .invalid s else s.headerLf
    | .inChunkData => s.chunkData bufsz
    | .inChunkDataExpectCr =>
      if c ≠ cr then .leave .invalid s else .next (s.advance.goto .inChunkDataExpectLf)
    | .inChunkDataExpectLf =>
      if c ≠ lf then .leave .invalid s else .next (s.advance.goto .inChunkSize)
    | .inTrailersLineHead =>
      if c = cr then .next s.advance
      else if c = lf then .leave .complete s.advance
      else .next (s.advance.goto .inTrailersLineMiddle)
    | .inTrailersLineMiddle =>
      if c = lf then .next (s.advance.goto .inTrailersLineHead) else .next s.advance

end Chunking

/-- The loop of `phr_decode_chunked`.  A round reads a byte or ends a chunk size, so `fuel` is
twice the number of bytes, and one; `none` is a loop that was not left. -/
def decodeLoop (bufsz : ℕ) : ℕ → Chunking → Option (Exit × Chunking)
  | 0, _ => none
  | fuel + 1, s =>
    match s.round bufsz with
    | .next s' => decodeLoop bufsz fuel s'
    | .leave e s' => some (e, s')

/-- The test for too much overhead, on the numbers of bytes that were read and of those that were
not data. -/
def tooMuchOverhead (totalRead totalOverhead : ℕ) : Bool :=
  decide (102400 ≤ totalOverhead) &&
    decide (toUInt64 (totalRead + (18446744073709551616 - totalOverhead)) < totalRead / 4)

/-- What `phr_decode_chunked` gives: its value, the decoder, the buffer and `*bufsz`. -/
structure Decoded where
  ret : Int
  decoder : Decoder
  mem : ℕ → UInt8
  bufsz : ℕ

/-- `phr_decode_chunked`, behind the loop. -/
def finishDecoding (bufsz : ℕ) (e : Exit) (s : Chunking) : Decoded :=
  let mem := moveDown s.mem s.dst s.src (bufsz - s.src)
  match e with
  | .complete => ⟨(bufsz - s.src : ℕ), s.decoder, mem, s.dst⟩
  | .invalid => ⟨-1, s.decoder, mem, s.dst⟩
  | .incomplete =>
    let overhead := toUInt64 (s.decoder.totalOverhead + (bufsz - s.dst))
    ⟨if tooMuchOverhead s.decoder.totalRead overhead then -1 else -2,
      { s.decoder with totalOverhead := overhead }, mem, s.dst⟩

/-- `phr_decode_chunked`. -/
def phrDecodeChunked (decoder : Decoder) (buf : ℕ → UInt8) (bufsz : ℕ) : Option Decoded :=
  let decoder := { decoder with totalRead := toUInt64 (decoder.totalRead + bufsz) }
  (decodeLoop bufsz (2 * bufsz + 2) ⟨decoder, buf, 0, 0⟩).map fun r => finishDecoding bufsz r.1 r.2

/-- `phr_decode_chunked_is_in_data`. -/
def phrDecodeChunkedIsInData (decoder : Decoder) : Bool := decoder.state = .inChunkData

/-! ## One byte at a time -/

/-- What one byte does. -/
def step (d : Decoder) (c : UInt8) : Reply Decoder UInt8 :=
  match d.state with
  | .inChunkSize =>
    match decodeHex c with
    | some v =>
      if d.hexCount = 16 then .reject
      else .next
        { d with bytesLeftInChunk := d.bytesLeftInChunk * 16 + v, hexCount := d.hexCount + 1 } []
    | none =>
      if d.hexCount = 0 then .reject
      else if c = cr then .next { d with hexCount := 0, state := .inChunkHeaderExpectLf } []
      else if c = sp ∨ c = ht ∨ c = 59 then
        .next { d with hexCount := 0, state := .inChunkExt } []
      else .reject
  | .inChunkExt =>
    if c = cr then .next { d with state := .inChunkHeaderExpectLf } []
    else if c = lf then .reject
    else .next d []
  | .inChunkHeaderExpectLf =>
    if c ≠ lf then .reject
    else if d.bytesLeftInChunk = 0 then
      if d.consumeTrailer then .next { d with state := .inTrailersLineHead } [] else .halt
    else .next { d with state := .inChunkData } []
  | .inChunkData =>
    if d.bytesLeftInChunk = 1 then
      .next { d with bytesLeftInChunk := 0, state := .inChunkDataExpectCr } [c]
    else .next { d with bytesLeftInChunk := d.bytesLeftInChunk - 1 } [c]
  | .inChunkDataExpectCr =>
    if c ≠ cr then .reject else .next { d with state := .inChunkDataExpectLf } []
  | .inChunkDataExpectLf =>
    if c ≠ lf then .reject else .next { d with state := .inChunkSize } []
  | .inTrailersLineHead =>
    if c = cr then .next d []
    else if c = lf then .halt
    else .next { d with state := .inTrailersLineMiddle } []
  | .inTrailersLineMiddle =>
    if c = lf then .next { d with state := .inTrailersLineHead } [] else .next d []

/-- What every call keeps of a decoder.  A size that is being read is below the power of its
digits, so that sixteen of them do not overflow; there is data to come in its state only. -/
def Decoder.Ok (d : Decoder) : Prop :=
  match d.state with
  | .inChunkSize => d.hexCount ≤ 16 ∧ d.bytesLeftInChunk < 16 ^ d.hexCount
  | .inChunkExt => d.hexCount = 0 ∧ d.bytesLeftInChunk < 18446744073709551616
  | .inChunkHeaderExpectLf => d.hexCount = 0 ∧ d.bytesLeftInChunk < 18446744073709551616
  | .inChunkData =>
    d.hexCount = 0 ∧ 0 < d.bytesLeftInChunk ∧ d.bytesLeftInChunk < 18446744073709551616
  | _ => d.hexCount = 0 ∧ d.bytesLeftInChunk = 0

theorem ok_fresh (consumeTrailer : Bool) : (Decoder.fresh consumeTrailer).Ok :=
  ⟨Nat.zero_le _, Nat.one_pos⟩

theorem decodeHex_lt {c : UInt8} {v : ℕ} (h : decodeHex c = some v) : v < 16 := by
  unfold decodeHex at h
  have hc := c.toNat_lt
  split_ifs at h with h₁ h₂ h₃
  · have hle : c.toNat ≤ 57 := h₁.2
    have heq := Option.some.inj h
    omega
  · have hle : c.toNat ≤ 70 := h₂.2
    have heq := Option.some.inj h
    omega
  · have hle : c.toNat ≤ 102 := h₃.2
    have heq := Option.some.inj h
    omega

/-- One more digit. -/
theorem digit_lt {n v k : ℕ} (hn : n < 16 ^ k) (hv : v < 16) : n * 16 + v < 16 ^ (k + 1) := by
  rw [Nat.pow_succ]
  omega

/-- Sixteen digits are sixty-four bits. -/
theorem lt_of_digits {n k : ℕ} (hn : n < 16 ^ k) (hk : k ≤ 16) : n < 18446744073709551616 :=
  Nat.lt_of_lt_of_le hn (Nat.pow_le_pow_right (by decide) hk)

/-- The size of a chunk fits its field. -/
theorem Decoder.Ok.left_lt {d : Decoder} (h : d.Ok) :
    d.bytesLeftInChunk < 18446744073709551616 := by
  unfold Decoder.Ok at h
  split at h
  · exact lt_of_digits h.2 h.1
  · exact h.2
  · exact h.2
  · exact h.2.2
  · rw [h.2]
    decide

/-- **Every byte keeps it.** -/
theorem step_ok {d d' : Decoder} {c : UInt8} {out : List UInt8} (hok : d.Ok)
    (h : step d c = .next d' out) : d'.Ok := by
  obtain ⟨left, consume, hex, state, read, lost⟩ := d
  cases state with
  | inChunkSize =>
    obtain ⟨hhex, hleft⟩ := hok
    simp only [step] at h
    cases hv : decodeHex c with
    | some v =>
      simp only [hv] at h
      split_ifs at h with h16
      obtain ⟨rfl, -⟩ := Reply.next.inj h
      simp only at hhex hleft h16
      exact ⟨by simp only; omega, digit_lt hleft (decodeHex_lt hv)⟩
    | none =>
      simp only [hv] at h
      split_ifs at h
      · obtain ⟨rfl, -⟩ := Reply.next.inj h
        exact ⟨rfl, lt_of_digits hleft hhex⟩
      · obtain ⟨rfl, -⟩ := Reply.next.inj h
        exact ⟨rfl, lt_of_digits hleft hhex⟩
  | inChunkExt =>
    simp only [step] at h
    split_ifs at h
    · obtain ⟨rfl, -⟩ := Reply.next.inj h
      exact hok
    · obtain ⟨rfl, -⟩ := Reply.next.inj h
      exact hok
  | inChunkHeaderExpectLf =>
    obtain ⟨hhex, hleft⟩ := hok
    simp only [step] at h
    split_ifs at h with hlf hzero
    · obtain ⟨rfl, -⟩ := Reply.next.inj h
      exact ⟨hhex, hzero⟩
    · obtain ⟨rfl, -⟩ := Reply.next.inj h
      exact ⟨hhex, Nat.pos_of_ne_zero hzero, hleft⟩
  | inChunkData =>
    obtain ⟨hhex, hpos, hleft⟩ := hok
    simp only at hpos hleft
    simp only [step] at h
    split_ifs at h with hone
    · obtain ⟨rfl, -⟩ := Reply.next.inj h
      exact ⟨hhex, rfl⟩
    · obtain ⟨rfl, -⟩ := Reply.next.inj h
      exact ⟨hhex, by simp only; omega, by simp only; omega⟩
  | inChunkDataExpectCr =>
    simp only [step] at h
    split_ifs at h
    obtain ⟨rfl, -⟩ := Reply.next.inj h
    exact hok
  | inChunkDataExpectLf =>
    obtain ⟨hhex, hleft⟩ := hok
    simp only at hhex hleft
    simp only [step] at h
    split_ifs at h
    obtain ⟨rfl, -⟩ := Reply.next.inj h
    exact ⟨by simp only [hhex]; omega, by simp only [hhex, hleft]; decide⟩
  | inTrailersLineHead =>
    simp only [step] at h
    split_ifs at h
    · obtain ⟨rfl, -⟩ := Reply.next.inj h
      exact hok
    · obtain ⟨rfl, -⟩ := Reply.next.inj h
      exact hok
  | inTrailersLineMiddle =>
    simp only [step] at h
    split_ifs at h
    · obtain ⟨rfl, -⟩ := Reply.next.inj h
      exact hok
    · obtain ⟨rfl, -⟩ := Reply.next.inj h
      exact hok

/-- The decoder behind `k` bytes of the data of a chunk. -/
def Decoder.behindData (d : Decoder) (k : ℕ) : Decoder :=
  if k = d.bytesLeftInChunk then { d with bytesLeftInChunk := 0, state := .inChunkDataExpectCr }
  else { d with bytesLeftInChunk := d.bytesLeftInChunk - k }

/-- The data of a chunk is written as it is read. -/
theorem run_data {d : Decoder} (hd : d.state = .inChunkData) (xs : Bytes)
    (hxs : xs.length ≤ d.bytesLeftInChunk) (hpos : 0 < d.bytesLeftInChunk) (ys : Bytes) :
    run step d (xs ++ ys) = (run step (d.behindData xs.length) ys).emit xs := by
  induction xs generalizing d with
  | nil =>
    have hsame : d.behindData 0 = d := by
      rw [Decoder.behindData, if_neg (by omega), Nat.sub_zero]
    rw [List.nil_append, List.length_nil, hsame, Outcome.emit_nil]
  | cons c xs ih =>
    rw [List.length_cons] at hxs
    by_cases hone : d.bytesLeftInChunk = 1
    · have hstep : step d c = .next
          { d with bytesLeftInChunk := 0, state := .inChunkDataExpectCr } [c] := by
        simp only [step, hd, hone, if_true]
      have hnil : xs = [] := List.eq_nil_of_length_eq_zero (by omega)
      rw [List.cons_append, run_cons_next hstep, hnil, Decoder.behindData,
        if_pos (by simp [hone])]
      rfl
    · have hstep : step d c = .next
          { d with bytesLeftInChunk := d.bytesLeftInChunk - 1 } [c] := by
        simp only [step, hd, if_neg hone]
      have hbehind : Decoder.behindData { d with bytesLeftInChunk := d.bytesLeftInChunk - 1 }
          xs.length = d.behindData (xs.length + 1) := by
        unfold Decoder.behindData
        simp only
        by_cases heq : xs.length + 1 = d.bytesLeftInChunk
        · rw [if_pos heq, if_pos (by omega)]
        · rw [if_neg heq, if_neg (by omega), Nat.sub_sub, Nat.add_comm 1]
      rw [List.cons_append, run_cons_next hstep,
        ih (d := { d with bytesLeftInChunk := d.bytesLeftInChunk - 1 }) hd
          (by simp only; omega) (by simp only; omega),
        Outcome.emit_emit, hbehind]
      rfl

/-! ## The loop runs the bytes -/

section MoveDown

variable {mem : ℕ → UInt8} {dst src n : ℕ}

/-- What is moved down is behind what was there. -/
theorem slice_moveDown (h : dst ≤ src) :
    slice (moveDown mem dst src n) 0 (dst + n) = slice mem 0 dst ++ slice mem src n := by
  unfold moveDown
  split_ifs with hne
  · have happ := slice_write_append mem dst (slice mem src n)
    rwa [length_slice] at happ
  · obtain rfl : dst = src := not_not.mp hne
    rw [slice_add, Nat.zero_add]

theorem moveDown_of_ge {i : ℕ} (hi : dst + n ≤ i) : moveDown mem dst src n i = mem i := by
  unfold moveDown
  split_ifs
  · exact write_of_ge mem _ (by rwa [length_slice])
  · rfl

/-- What comes behind the moved bytes is left alone. -/
theorem slice_moveDown_behind (h : dst ≤ src) {len : ℕ} :
    slice (moveDown mem dst src n) (src + n) len = slice mem (src + n) len :=
  slice_congr fun i hi _ => moveDown_of_ge (by omega)

end MoveDown

/-- **The loop follows a run**: started in `s`, it was left as the outcome `o` of the bytes that
were there says, with the output behind what was at the front of the buffer. -/
structure Follows (bufsz : ℕ) (s : Chunking) (o : Outcome Decoder UInt8 UInt8)
    (r : Exit × Chunking) : Prop where
  ok : r.2.decoder.Ok
  dst_le : r.2.dst ≤ r.2.src
  src_le : r.2.src ≤ bufsz
  outside : ∀ i, bufsz ≤ i → r.2.mem i = s.mem i
  totalRead : r.2.decoder.totalRead = s.decoder.totalRead
  totalOverhead : r.2.decoder.totalOverhead = s.decoder.totalOverhead
  outcome :
    match o with
    | .more d out =>
      r.1 = .incomplete ∧ r.2.decoder = d ∧ r.2.src = bufsz ∧
        slice r.2.mem 0 r.2.dst = slice s.mem 0 s.dst ++ out
    | .done out rest =>
      r.1 = .complete ∧ slice r.2.mem r.2.src (bufsz - r.2.src) = rest ∧
        slice r.2.mem 0 r.2.dst = slice s.mem 0 s.dst ++ out
    | .rejected out => r.1 = .invalid ∧ slice r.2.mem 0 r.2.dst = slice s.mem 0 s.dst ++ out

/-- A round that only reads, in front of the rest of the loop. -/
theorem Follows.of_read {bufsz : ℕ} {s s' : Chunking} {o : Outcome Decoder UInt8 UInt8}
    {r : Exit × Chunking} (h : Follows bufsz s' o r) (hmem : s'.mem = s.mem)
    (hdst : s'.dst = s.dst) (hread : s'.decoder.totalRead = s.decoder.totalRead)
    (hover : s'.decoder.totalOverhead = s.decoder.totalOverhead) : Follows bufsz s o r := by
  obtain ⟨hok, hle, hsrc, hout, htot, htov, houtcome⟩ := h
  rw [hmem] at hout houtcome
  rw [hdst] at houtcome
  exact ⟨hok, hle, hsrc, hout, htot.trans hread, htov.trans hover, houtcome⟩

/-- A round that moves the bytes `xs` down, in front of the rest of the loop. -/
theorem Follows.of_moved {bufsz : ℕ} {s s' : Chunking} {o : Outcome Decoder UInt8 UInt8}
    {r : Exit × Chunking} {xs : Bytes} (h : Follows bufsz s' o r)
    (hfront : slice s'.mem 0 s'.dst = slice s.mem 0 s.dst ++ xs)
    (houtside : ∀ i, bufsz ≤ i → s'.mem i = s.mem i)
    (hread : s'.decoder.totalRead = s.decoder.totalRead)
    (hover : s'.decoder.totalOverhead = s.decoder.totalOverhead) :
    Follows bufsz s (o.emit xs) r := by
  obtain ⟨hok, hle, hsrc, hout, htot, htov, houtcome⟩ := h
  refine ⟨hok, hle, hsrc, fun i hi => (hout i hi).trans (houtside i hi), htot.trans hread,
    htov.trans hover, ?_⟩
  rw [hfront] at houtcome
  cases o with
  | more d out => simpa [List.append_assoc] using houtcome
  | done out rest => simpa [List.append_assoc] using houtcome
  | rejected out => simpa [List.append_assoc] using houtcome

/-- Nothing but the decoder was touched when the loop was left without output. -/
theorem Follows.of_leave {bufsz : ℕ} {s s' : Chunking} {o : Outcome Decoder UInt8 UInt8} {e : Exit}
    (hok : s'.decoder.Ok) (hmem : s'.mem = s.mem) (hdst : s'.dst = s.dst) (hsrc : s.src ≤ s'.src)
    (hle : s.dst ≤ s.src) (hbuf : s'.src ≤ bufsz)
    (hread : s'.decoder.totalRead = s.decoder.totalRead)
    (hover : s'.decoder.totalOverhead = s.decoder.totalOverhead)
    (h : match o with
      | .more d out => e = .incomplete ∧ s'.decoder = d ∧ s'.src = bufsz ∧ out = []
      | .done out rest =>
        e = .complete ∧ slice s.mem s'.src (bufsz - s'.src) = rest ∧ out = []
      | .rejected out => e = .invalid ∧ out = []) :
    Follows bufsz s o (e, s') := by
  refine ⟨hok, by simp only [hdst]; omega, hbuf, fun i _ => by simp only [hmem], hread, hover, ?_⟩
  cases o with
  | more d out =>
    obtain ⟨he, hd, hsrc', rfl⟩ := h
    exact ⟨he, hd, hsrc', by simp [hmem, hdst]⟩
  | done out rest =>
    obtain ⟨he, hrest, rfl⟩ := h
    exact ⟨he, by simpa only [hmem] using hrest, by simp [hmem, hdst]⟩
  | rejected out =>
    obtain ⟨he, rfl⟩ := h
    exact ⟨he, by simp [hmem, hdst]⟩

/-- What a round does with a byte to which `step` gives the reply: it reads it, or it ends the chunk
size in front of it, or the loop is left. -/
inductive Serves (s : Chunking) : Reply Decoder UInt8 → Turn → Prop
  | reads {d : Decoder} (hread : d.totalRead = s.decoder.totalRead)
      (hover : d.totalOverhead = s.decoder.totalOverhead) :
      Serves s (.next d []) (.next { s with decoder := d, src := s.src + 1 })
  | ends {d : Decoder} {reply : Reply Decoder UInt8} (hsize : s.decoder.state = .inChunkSize)
      (hok : d.Ok) (hext : d.state = .inChunkExt)
      (hread : d.totalRead = s.decoder.totalRead)
      (hover : d.totalOverhead = s.decoder.totalOverhead)
      (hreply : step d (s.mem s.src) = reply) :
      Serves s reply (.next { s with decoder := d })
  | rejects : Serves s .reject (.leave .invalid s)
  | completes : Serves s .halt (.leave .complete s.advance)

/-- A byte that ends a chunk size is not a digit, and is read as one of the extension. -/
theorem step_inChunkExt {d : Decoder} {c : UInt8} (hsize : d.state = .inChunkSize)
    (hhex : d.hexCount ≠ 0) (hc : behindSize c = true) :
    step { d with hexCount := 0, state := .inChunkExt } c = step d c := by
  have hdigit : decodeHex c = none := by
    simp only [behindSize, Bool.or_eq_true, decide_eq_true_eq] at hc
    rcases hc with (((rfl | rfl) | rfl) | rfl) | rfl <;> rfl
  simp only [step, hsize, hdigit, if_neg hhex]
  simp only [behindSize, Bool.or_eq_true, decide_eq_true_eq] at hc
  rcases hc with (((rfl | rfl) | rfl) | rfl) | rfl <;> rfl

theorem round_serves {bufsz : ℕ} {s : Chunking} (hok : s.decoder.Ok)
    (hdata : s.decoder.state ≠ .inChunkData) (hsrc : s.src ≠ bufsz) :
    Serves s (step s.decoder (s.mem s.src)) (s.round bufsz) := by
  unfold Chunking.round
  rw [if_neg hdata, if_neg hsrc]
  cases hstate : s.decoder.state with
  | inChunkSize =>
    simp only [Decoder.Ok, hstate] at hok
    obtain ⟨hhex, hleft⟩ := hok
    simp only [Chunking.chunkSize]
    cases hv : decodeHex (s.mem s.src) with
    | some v =>
      simp only [step, hstate, hv]
      split_ifs with h16
      · exact .rejects
      · -- fewer than sixteen digits, so the size does not wrap
        have hsmall : toUInt64 (s.decoder.bytesLeftInChunk * 16 + v) =
            s.decoder.bytesLeftInChunk * 16 + v :=
          Nat.mod_eq_of_lt (lt_of_digits (digit_lt hleft (decodeHex_lt hv)) (by omega))
        rw [hsmall]
        exact .reads rfl rfl
    | none =>
      simp only
      by_cases hzero : s.decoder.hexCount = 0
      · simp only [step, hstate, hv, if_pos hzero]
        exact .rejects
      · rw [if_neg hzero]
        by_cases hbehind : behindSize (s.mem s.src) = true
        · rw [if_pos hbehind]
          exact .ends hstate ⟨rfl, lt_of_digits hleft hhex⟩ rfl rfl rfl
            (step_inChunkExt hstate hzero hbehind)
        · rw [if_neg hbehind]
          simp only [behindSize, Bool.or_eq_true, decide_eq_true_eq, not_or] at hbehind
          obtain ⟨⟨⟨⟨hsp, hht⟩, hsemi⟩, -⟩, hcr⟩ := hbehind
          simp only [step, hstate, hv, if_neg hzero, if_neg hcr, hsp, hht, hsemi, or_self,
            if_false]
          exact .rejects
  | inChunkData => exact absurd hstate hdata
  | inChunkExt =>
    simp only [step, hstate]
    split_ifs
    · exact .reads rfl rfl
    · exact .rejects
    · exact .reads rfl rfl
  | inChunkHeaderExpectLf =>
    simp only [step, hstate, Chunking.headerLf]
    split_ifs
    · exact .rejects
    · exact .reads rfl rfl
    · exact .completes
    · exact .reads rfl rfl
  | inChunkDataExpectCr =>
    simp only [step, hstate]
    split_ifs
    · exact .rejects
    · exact .reads rfl rfl
  | inChunkDataExpectLf =>
    simp only [step, hstate]
    split_ifs
    · exact .rejects
    · exact .reads rfl rfl
  | inTrailersLineHead =>
    simp only [step, hstate]
    split_ifs
    · exact .reads rfl rfl
    · exact .completes
    · exact .reads rfl rfl
  | inTrailersLineMiddle =>
    simp only [step, hstate]
    split_ifs
    · exact .reads rfl rfl
    · exact .reads rfl rfl

/-- The rounds that are left: two for each byte, and one to end a chunk size. -/
def Chunking.todo (bufsz : ℕ) (s : Chunking) : ℕ :=
  2 * (bufsz - s.src) + if s.decoder.state = .inChunkSize then 1 else 0

theorem Chunking.todo_le (bufsz : ℕ) (s : Chunking) : s.todo bufsz ≤ 2 * (bufsz - s.src) + 1 := by
  unfold Chunking.todo
  split_ifs <;> omega

theorem Chunking.le_todo (bufsz : ℕ) (s : Chunking) : 2 * (bufsz - s.src) ≤ s.todo bufsz :=
  Nat.le_add_right _ _

/-- The data of a chunk, of which the rest is still to come. -/
theorem follows_chunkData_leave {bufsz : ℕ} {s : Chunking} (hok : s.decoder.Ok)
    (hdata : s.decoder.state = .inChunkData) (hdst : s.dst ≤ s.src) (hsrc : s.src ≤ bufsz)
    (hlt : bufsz - s.src < s.decoder.bytesLeftInChunk) :
    ∃ s', s.chunkData bufsz = .leave .incomplete s' ∧
      Follows bufsz s (run step s.decoder (slice s.mem s.src (bufsz - s.src)))
        (.incomplete, s') := by
  refine ⟨_, if_pos hlt, ?_⟩
  have hrun := run_data hdata (slice s.mem s.src (bufsz - s.src))
    (by rw [length_slice]; omega) (by omega) []
  rw [List.append_nil, length_slice, Decoder.behindData, if_neg (by omega), run,
    Outcome.emit_more, List.append_nil] at hrun
  rw [hrun]
  simp only [Decoder.Ok, hdata] at hok
  refine ⟨?_, by simp only; omega, by simp only; omega, fun i hi => moveDown_of_ge (by omega), rfl,
    rfl, rfl, rfl, by simp only; omega, slice_moveDown hdst⟩
  simp only [Decoder.Ok, hdata]
  omega

/-- The state behind the data of a chunk that is all there. -/
def Chunking.pastData (s : Chunking) : Chunking where
  decoder := s.decoder.behindData s.decoder.bytesLeftInChunk
  mem := moveDown s.mem s.dst s.src s.decoder.bytesLeftInChunk
  src := s.src + s.decoder.bytesLeftInChunk
  dst := s.dst + s.decoder.bytesLeftInChunk

theorem Chunking.pastData_decoder (s : Chunking) :
    s.pastData.decoder =
      { s.decoder with bytesLeftInChunk := 0, state := .inChunkDataExpectCr } :=
  if_pos rfl

theorem chunkData_eq_next {bufsz : ℕ} {s : Chunking}
    (hge : s.decoder.bytesLeftInChunk ≤ bufsz - s.src) : s.chunkData bufsz = .next s.pastData := by
  rw [Chunking.pastData, Decoder.behindData, if_pos rfl]
  exact if_neg (Nat.not_lt.mpr hge)

/-- The data of a chunk that is all there, in front of the rest of the loop. -/
theorem follows_pastData {bufsz : ℕ} {s : Chunking} (hdata : s.decoder.state = .inChunkData)
    (hpos : 0 < s.decoder.bytesLeftInChunk) (hdst : s.dst ≤ s.src)
    (hsrc : s.pastData.src ≤ bufsz) {r : Exit × Chunking}
    (h : Follows bufsz s.pastData (run step s.pastData.decoder
      (slice s.pastData.mem s.pastData.src (bufsz - s.pastData.src))) r) :
    Follows bufsz s (run step s.decoder (slice s.mem s.src (bufsz - s.src))) r := by
  change s.src + s.decoder.bytesLeftInChunk ≤ bufsz at hsrc
  have hsplit : bufsz - s.src =
      s.decoder.bytesLeftInChunk + (bufsz - (s.src + s.decoder.bytesLeftInChunk)) := by
    omega
  have hrun := run_data hdata (slice s.mem s.src s.decoder.bytesLeftInChunk)
    (Nat.le_of_eq (length_slice _ _ _)) hpos
    (slice s.mem (s.src + s.decoder.bytesLeftInChunk)
      (bufsz - (s.src + s.decoder.bytesLeftInChunk)))
  rw [length_slice] at hrun
  rw [hsplit, slice_add, hrun]
  have hrest : slice s.pastData.mem s.pastData.src (bufsz - s.pastData.src) =
      slice s.mem (s.src + s.decoder.bytesLeftInChunk)
        (bufsz - (s.src + s.decoder.bytesLeftInChunk)) := slice_moveDown_behind hdst
  rw [hrest] at h
  refine h.of_moved (slice_moveDown hdst) (fun i hi => moveDown_of_ge (by omega)) ?_ ?_
  · rw [Chunking.pastData_decoder]
  · rw [Chunking.pastData_decoder]

/-- **The loop runs `step` over the bytes that are there.** -/
theorem decodeLoop_follows {bufsz : ℕ} (fuel : ℕ) {s : Chunking} (hok : s.decoder.Ok)
    (hdst : s.dst ≤ s.src) (hsrc : s.src ≤ bufsz) (hfuel : s.todo bufsz < fuel) :
    ∃ r, decodeLoop bufsz fuel s = some r ∧
      Follows bufsz s (run step s.decoder (slice s.mem s.src (bufsz - s.src))) r := by
  induction fuel generalizing s with
  | zero => exact absurd hfuel (Nat.not_lt_zero _)
  | succ fuel ih =>
    have htodo := s.le_todo bufsz
    by_cases hdata : s.decoder.state = .inChunkData
    · have hround : s.round bufsz = s.chunkData bufsz := if_pos hdata
      obtain ⟨-, hpos, -⟩ : s.decoder.hexCount = 0 ∧ 0 < s.decoder.bytesLeftInChunk ∧ _ := by
        simpa only [Decoder.Ok, hdata] using hok
      by_cases hlt : bufsz - s.src < s.decoder.bytesLeftInChunk
      · obtain ⟨s', hturn, hfollows⟩ := follows_chunkData_leave hok hdata hdst hsrc hlt
        exact ⟨_, by simp only [decodeLoop, hround, hturn], hfollows⟩
      · -- the whole rest of the chunk is there, and the loop goes on behind it
        have hturn := chunkData_eq_next (Nat.not_lt.mp hlt)
        have hpast : s.pastData.decoder.Ok := by
          rw [Chunking.pastData_decoder]
          simp only [Decoder.Ok, hdata] at hok
          exact ⟨hok.1, rfl⟩
        have hsrc' : s.src + s.decoder.bytesLeftInChunk ≤ bufsz := by omega
        obtain ⟨r, hr, hfollows⟩ := ih hpast (Nat.add_le_add_right hdst _) hsrc' (by
          refine Nat.lt_of_le_of_lt (Chunking.todo_le _ _) ?_
          simp only [Chunking.pastData]
          omega)
        refine ⟨r, ?_, follows_pastData hdata hpos hdst hsrc' hfollows⟩
        simp only [decodeLoop, hround, hturn]
        exact hr
    · by_cases hend : s.src = bufsz
      · have hround : s.round bufsz = .leave .incomplete s := by
          unfold Chunking.round
          rw [if_neg hdata, if_pos hend]
        refine ⟨_, by simp only [decodeLoop, hround]; rfl, ?_⟩
        rw [hend, Nat.sub_self]
        exact .of_leave hok rfl rfl (Nat.le_refl _) hdst hsrc rfl rfl ⟨rfl, rfl, hend, rfl⟩
      · have hlt : s.src < bufsz := Nat.lt_of_le_of_ne hsrc hend
        have hslice : slice s.mem s.src (bufsz - s.src) =
            s.mem s.src :: slice s.mem (s.src + 1) (bufsz - (s.src + 1)) := by
          rw [← slice_succ]
          congr 1
          omega
        have hserves := round_serves hok hdata hend
        generalize hstep : step s.decoder (s.mem s.src) = reply at hserves
        generalize hround : s.round bufsz = turn at hserves
        simp only [decodeLoop, hround, hslice]
        cases hserves with
        | @reads d hread hover =>
          obtain ⟨r, hr, hfollows⟩ := ih (s := { s with decoder := d, src := s.src + 1 })
            (step_ok hok hstep) (by simp only; omega) hlt
            (by
              refine Nat.lt_of_le_of_lt (Chunking.todo_le _ _) ?_
              simp only
              omega)
          rw [run_cons_next hstep, Outcome.emit_nil]
          exact ⟨r, hr, hfollows.of_read rfl rfl hread hover⟩
        | @ends d _ hsize hok' hext hread hover hreply =>
          have hsame : run step s.decoder (s.mem s.src :: slice s.mem (s.src + 1)
              (bufsz - (s.src + 1))) = run step d (slice s.mem s.src (bufsz - s.src)) := by
            rw [hslice]
            simp only [run, hstep, hreply]
          obtain ⟨r, hr, hfollows⟩ := ih (s := { s with decoder := d }) hok' hdst hsrc (by
            simp only [Chunking.todo, hsize, hext, if_true, reduceCtorEq, if_false] at hfuel ⊢
            omega)
          rw [hsame]
          exact ⟨r, hr, hfollows.of_read rfl rfl hread hover⟩
        | rejects =>
          rw [run_cons_reject hstep]
          exact ⟨_, rfl, .of_leave hok rfl rfl (Nat.le_refl _) hdst hsrc rfl rfl ⟨rfl, rfl⟩⟩
        | completes =>
          rw [run_cons_halt hstep]
          exact ⟨_, rfl, .of_leave hok rfl rfl (Nat.le_succ _) hdst hlt rfl rfl ⟨rfl, rfl, rfl⟩⟩

end Chunked
end BareHttp
