import BareHttp.Parser.Chunked
import Mathlib.Data.Nat.Find

/-!
# Decoding a chunked body call by call

One call of `phr_decode_chunked` works in the buffer it is given: the data is moved to the front,
what is behind the end of the body is kept behind the data, and no byte behind the buffer is
touched (`phrDecodeChunked_spec`).  So the calls for a body that arrives in pieces are the calls
of a `Transducer.feed`, whose caller refuses a body that is almost all overhead.

The counters for that are kept over the calls.  What was read less what was overhead is the data,
as long as no more than `2 ^ 64` bytes arrive, and so the test looks at the body up to the end of
a piece, however it was cut before (`decodePieces_eq`).
-/

namespace BareHttp
namespace Chunked

open Buffer Transducer

/-! ## One call -/

/-- The decoder without its counters. -/
def Decoder.bare (d : Decoder) : Decoder := { d with totalRead := 0, totalOverhead := 0 }

/-- The counters have no part in what a byte does. -/
theorem step_bare (d : Decoder) (c : UInt8) : step d.bare c = (step d c).map Decoder.bare := by
  obtain ⟨left, consume, hex, state, read, lost⟩ := d
  cases state with
  | inChunkSize =>
    cases hv : decodeHex c with
    | some v =>
      simp only [step, Decoder.bare, hv, apply_ite (Reply.map _), Reply.map_next, Reply.map_reject]
      rfl
    | none =>
      simp only [step, Decoder.bare, hv, apply_ite (Reply.map _), Reply.map_next, Reply.map_reject]
      rfl
  | inChunkHeaderExpectLf | inChunkData =>
    simp only [step, Decoder.bare, apply_ite (Reply.map _), Reply.map_next, Reply.map_reject,
      Reply.map_halt]
    rfl
  | inChunkExt | inChunkDataExpectCr | inChunkDataExpectLf | inTrailersLineHead
  | inTrailersLineMiddle =>
    simp only [step, Decoder.bare, apply_ite (Reply.map _), Reply.map_next, Reply.map_reject,
      Reply.map_halt]

theorem run_bare (d : Decoder) (input : Bytes) :
    run step d.bare input = (run step d input).map Decoder.bare :=
  run_map Decoder.bare step_bare d input

/-- **What one call gives**, for the outcome `o` of the bytes in the buffer. -/
structure Call (d : Decoder) (buf : ℕ → UInt8) (bufsz : ℕ) (o : Outcome Decoder UInt8 UInt8)
    (r : Decoded) : Prop where
  ok : r.decoder.Ok
  bufsz_le : r.bufsz ≤ bufsz
  le_ret : -2 ≤ r.ret
  ret_le : r.ret ≤ (bufsz - r.bufsz : ℕ)
  outside : ∀ i, bufsz ≤ i → r.mem i = buf i
  outcome :
    match o with
    | .more d' out =>
      slice r.mem 0 r.bufsz = out ∧ r.decoder.bare = d' ∧
        r.decoder.totalRead = toUInt64 (d.totalRead + bufsz) ∧
        r.decoder.totalOverhead = toUInt64 (d.totalOverhead + (bufsz - out.length)) ∧
        r.ret = if tooMuchOverhead r.decoder.totalRead r.decoder.totalOverhead then -1 else -2
    | .done out rest =>
      slice r.mem 0 r.bufsz = out ∧ r.ret = rest.length ∧
        slice r.mem r.bufsz rest.length = rest
    | .rejected out => slice r.mem 0 r.bufsz = out ∧ r.ret = -1

theorem finishDecoding_ret_incomplete (bufsz : ℕ) (s : Chunking) :
    (finishDecoding bufsz .incomplete s).ret = -1 ∨
      (finishDecoding bufsz .incomplete s).ret = -2 := by
  simp only [finishDecoding]
  split_ifs
  · exact .inl rfl
  · exact .inr rfl

/-- **`phr_decode_chunked` returns**, and decodes in place. -/
theorem phrDecodeChunked_spec {d : Decoder} (hok : d.Ok) (buf : ℕ → UInt8) (bufsz : ℕ) :
    ∃ r, phrDecodeChunked d buf bufsz = some r ∧
      Call d buf bufsz (run step d.bare (slice buf 0 bufsz)) r := by
  obtain ⟨⟨e, s⟩, hloop, hfollows⟩ := decodeLoop_follows (2 * bufsz + 2)
    (s := ⟨{ d with totalRead := toUInt64 (d.totalRead + bufsz) }, buf, 0, 0⟩) hok (Nat.le_refl _)
    (Nat.zero_le bufsz) (Nat.lt_succ_of_le (Chunking.todo_le _ _))
  have hbare : run step d.bare (slice buf 0 bufsz) =
      (run step { d with totalRead := toUInt64 (d.totalRead + bufsz) } (slice buf 0 bufsz)).map
        Decoder.bare :=
    run_bare { d with totalRead := toUInt64 (d.totalRead + bufsz) } (slice buf 0 bufsz)
  refine ⟨finishDecoding bufsz e s, by simp only [phrDecodeChunked, hloop, Option.map_some], ?_⟩
  obtain ⟨hok', hdst, hsrc, houtside, hread, hover, houtcome⟩ := hfollows
  simp only [slice_zero, List.nil_append, Nat.sub_zero] at hdst hsrc houtside hread hover houtcome
  rw [hbare]
  generalize run step { d with totalRead := toUInt64 (d.totalRead + bufsz) } (slice buf 0 bufsz) =
    o at houtcome
  have hfront : slice (moveDown s.mem s.dst s.src (bufsz - s.src)) 0 (s.dst + (bufsz - s.src)) =
      slice s.mem 0 s.dst ++ slice s.mem s.src (bufsz - s.src) := slice_moveDown hdst
  rw [slice_add, Nat.zero_add] at hfront
  obtain ⟨hdata, hrest⟩ := List.append_inj hfront (by simp)
  have hout : ∀ i, bufsz ≤ i → moveDown s.mem s.dst s.src (bufsz - s.src) i = buf i := by
    intro i hi
    rw [moveDown_of_ge (by omega), houtside i hi]
  cases o with
  | more d' out =>
    obtain ⟨rfl, rfl, hend, hslice⟩ := houtcome
    have hlen : s.dst = out.length := by rw [← hslice, length_slice]
    have hret := finishDecoding_ret_incomplete bufsz s
    refine ⟨hok', by simp only [finishDecoding]; omega, by omega, by omega, hout,
      hdata.trans hslice, rfl, hread, ?_, rfl⟩
    simp only [finishDecoding, hover, hlen]
  | done out rest =>
    obtain ⟨rfl, hkept, hslice⟩ := houtcome
    have hlen : rest.length = bufsz - s.src := by rw [← hkept, length_slice]
    refine ⟨hok', by simp only [finishDecoding]; omega, by simp only [finishDecoding]; omega,
      by simp only [finishDecoding]; omega, hout, hdata.trans hslice, ?_, ?_⟩
    · simp only [finishDecoding, hlen]
    · rw [hlen]
      exact hrest.trans hkept
  | rejected out =>
    obtain ⟨rfl, hslice⟩ := houtcome
    exact ⟨hok', by simp only [finishDecoding]; omega, by simp [finishDecoding],
      by simp only [finishDecoding]; omega, hout, hdata.trans hslice, rfl⟩

/-- The decoders that calls from a zero-filled one leave, whatever is in the buffers, and also if a
caller goes on behind the end of a body or behind an error. -/
inductive Called (consumeTrailer : Bool) : Decoder → Prop
  | fresh : Called consumeTrailer (.fresh consumeTrailer)
  | call {d : Decoder} {r : Decoded} (buf : ℕ → UInt8) (bufsz : ℕ) (hd : Called consumeTrailer d)
      (hr : phrDecodeChunked d buf bufsz = some r) : Called consumeTrailer r.decoder

theorem Called.ok {consumeTrailer : Bool} {d : Decoder} (h : Called consumeTrailer d) : d.Ok := by
  induction h with
  | fresh => exact ok_fresh consumeTrailer
  | call buf bufsz hd hr ih =>
    obtain ⟨r', hr', hcall⟩ := phrDecodeChunked_spec ih buf bufsz
    obtain rfl := Option.some.inj (hr'.symm.trans hr)
    exact hcall.ok

/-- **No sequence of calls leaves the buffer.**  Every call returns, makes its data no longer than
the buffer was, and leaves every byte behind the buffer alone; and in a chunk there is data to
come. -/
theorem Called.insideBuffer {consumeTrailer : Bool} {d : Decoder} (h : Called consumeTrailer d)
    (buf : ℕ → UInt8) (bufsz : ℕ) :
    ∃ r, phrDecodeChunked d buf bufsz = some r ∧ r.bufsz ≤ bufsz ∧
      (∀ i, bufsz ≤ i → r.mem i = buf i) ∧
      -2 ≤ r.ret ∧ r.ret ≤ (bufsz - r.bufsz : ℕ) ∧
      r.decoder.bytesLeftInChunk < 18446744073709551616 ∧
      (phrDecodeChunkedIsInData r.decoder = true → 0 < r.decoder.bytesLeftInChunk) := by
  obtain ⟨r, hr, hcall⟩ := phrDecodeChunked_spec h.ok buf bufsz
  refine ⟨r, hr, hcall.bufsz_le, hcall.outside, hcall.le_ret, hcall.ret_le,
    Decoder.Ok.left_lt hcall.ok, fun hin => ?_⟩
  have hok := hcall.ok
  simp only [Decoder.Ok, (decide_eq_true_iff.mp hin : r.decoder.state = .inChunkData)] at hok
  exact hok.2.1

/-- A first call, on the four bytes of `2` and a line end and the first byte of a chunk. -/
theorem Called.insideBuffer_fresh :
    ∃ r, phrDecodeChunked (.fresh true) (write (fun _ => 0) 0 [50, 13, 10, 97]) 4 = some r ∧
      r.bufsz ≤ 4 := by
  obtain ⟨r, hr, hle, -⟩ :=
    Called.insideBuffer (Called.fresh : Called true _) (write (fun _ => 0) 0 [50, 13, 10, 97]) 4
  exact ⟨r, hr, hle⟩

/-! ## The calls for a body that arrives in pieces -/

/-- A body that is refused: a hundred kilobytes of overhead, and less than a quarter of it data. -/
def refusesOverhead (read written : ℕ) : Bool :=
  decide (102400 ≤ read - written) && decide (written < read / 4)

/-- What was read less the overhead is the data. -/
theorem tooMuchOverhead_eq {read written : ℕ} (hle : written ≤ read)
    (hlt : read < 18446744073709551616) :
    tooMuchOverhead read (read - written) = refusesOverhead read written := by
  have hdata : toUInt64 (read + (18446744073709551616 - (read - written))) = written := by
    unfold toUInt64
    omega
  simp only [tooMuchOverhead, refusesOverhead, hdata]

/-- The calls an application makes: each piece is put into a buffer and decoded there, as long as
the decoder asks for more. -/
def decodePieces : Decoder → List Bytes → Option (Outcome Decoder UInt8 UInt8)
  | d, [] => some (.more d [])
  | d, p :: ps =>
    (phrDecodeChunked d (write (fun _ => 0) 0 p) p.length).bind fun r =>
      let out := slice r.mem 0 r.bufsz
      if r.ret = -2 then (decodePieces r.decoder ps).map (·.emit out)
      else if r.ret = -1 then some (.rejected out)
      else some (.done out (slice r.mem r.bufsz r.ret.toNat ++ ps.flatten))

/-- A decoder that has read and written so many bytes. -/
structure Counted (d : Decoder) (read written : ℕ) : Prop where
  ok : d.Ok
  totalRead : d.totalRead = read
  totalOverhead : d.totalOverhead = read - written
  written_le : written ≤ read

theorem counted_fresh (consumeTrailer : Bool) : Counted (.fresh consumeTrailer) 0 0 :=
  ⟨ok_fresh consumeTrailer, rfl, rfl, Nat.le_refl 0⟩

/-- A call that asks for more goes on counting, and refuses by the numbers. -/
theorem Call.counted {d d' : Decoder} {p : Bytes} {out : List UInt8} {r : Decoded}
    {read written : ℕ} (hd : Counted d read written)
    (hlt : read + p.length < 18446744073709551616)
    (h : Call d (write (fun _ => 0) 0 p) p.length (.more d' out) r) :
    Counted r.decoder (read + p.length) (written + out.length) ∧
      r.ret = if refusesOverhead (read + p.length) (written + out.length) then -1 else -2 := by
  obtain ⟨hok, hread, hover, hle⟩ := hd
  obtain ⟨hok', hbufsz, -, -, -, hslice, hbare, hread', hover', hret⟩ := h
  have hlen : out.length ≤ p.length := by rw [← hslice, length_slice]; exact hbufsz
  have hread'' : r.decoder.totalRead = read + p.length := by
    rw [hread', hread]
    exact Nat.mod_eq_of_lt hlt
  have hover'' : r.decoder.totalOverhead = read + p.length - (written + out.length) := by
    rw [hover', hover]
    unfold toUInt64
    omega
  refine ⟨⟨hok', hread'', hover'', by omega⟩, ?_⟩
  rw [hret, hread'', hover'', tooMuchOverhead_eq (by omega) hlt]

/-- **The calls are those of a feed** whose caller refuses too much overhead. -/
theorem decodePieces_eq {d : Decoder} {read written : ℕ} {ps : List Bytes}
    (hd : Counted d read written) (hlt : read + ps.flatten.length < 18446744073709551616) :
    (decodePieces d ps).map (Outcome.map Decoder.bare) =
      some (feed step refusesOverhead read written d.bare ps) := by
  induction ps generalizing d read written with
  | nil => rfl
  | cons p ps ih =>
    rw [List.flatten_cons, List.length_append] at hlt
    obtain ⟨r, hr, hcall⟩ := phrDecodeChunked_spec hd.ok (write (fun _ => 0) 0 p) p.length
    rw [slice_write_self] at hcall
    simp only [decodePieces, hr, Option.bind_some, feed]
    cases hrun : run step d.bare p with
    | more d' out =>
      rw [hrun] at hcall
      obtain ⟨hcounted, hret⟩ := hcall.counted hd (by omega)
      obtain ⟨-, -, -, -, -, hslice, hbare, -⟩ := hcall
      by_cases hrefuse : refusesOverhead (read + p.length) (written + out.length) = true
      · rw [if_pos hrefuse] at hret
        simp [hret, hrefuse, hslice, Outcome.map]
      · rw [if_neg hrefuse] at hret
        have hrest := ih hcounted (by omega)
        rw [hbare] at hrest
        obtain ⟨o, ho, hmap⟩ := Option.map_eq_some_iff.mp hrest
        simp [hret, hrefuse, hslice, ho, Outcome.map_emit, hmap]
    | done out rest =>
      rw [hrun] at hcall
      obtain ⟨-, -, -, -, -, hslice, hret, hkept⟩ := hcall
      simp [hret, hslice, hkept, Outcome.map]
    | rejected out =>
      rw [hrun] at hcall
      obtain ⟨-, -, -, -, -, hslice, hret⟩ := hcall
      simp [hret, hslice, Outcome.map]

/-- The counters behind the last piece. -/
theorem Counted.decodePieces {d d' : Decoder} {read written : ℕ} {ps : List Bytes}
    {out : List UInt8} (hd : Counted d read written)
    (hlt : read + ps.flatten.length < 18446744073709551616)
    (h : decodePieces d ps = some (.more d' out)) :
    Counted d' (read + ps.flatten.length) (written + out.length) := by
  induction ps generalizing d read written out with
  | nil =>
    obtain ⟨rfl, rfl⟩ := Outcome.more.inj (Option.some.inj h)
    exact hd
  | cons p ps ih =>
    rw [List.flatten_cons, List.length_append] at hlt
    obtain ⟨r, hr, hcall⟩ := phrDecodeChunked_spec hd.ok (write (fun _ => 0) 0 p) p.length
    rw [slice_write_self] at hcall
    simp only [Chunked.decodePieces, hr, Option.bind_some] at h
    split_ifs at h with hret₂ hret₁
    · obtain ⟨o, ho, hemit⟩ := Option.map_eq_some_iff.mp h
      cases hrun : run step d.bare p with
      | more d₁ out₁ =>
        rw [hrun] at hcall
        obtain ⟨hcounted, -⟩ := hcall.counted hd (by omega)
        cases o with
        | more d₂ out₂ =>
          obtain ⟨rfl, rfl⟩ := Outcome.more.inj hemit
          have hlast := ih hcounted (by omega) ho
          rw [hcall.outcome.1, List.flatten_cons, List.length_append, List.length_append]
          rwa [Nat.add_assoc, Nat.add_assoc] at hlast
        | done o rest => exact absurd hemit (by simp)
        | rejected o => exact absurd hemit (by simp)
      | done o rest =>
        rw [hrun] at hcall
        exact absurd (hcall.outcome.2.1.symm.trans hret₂) (by omega)
      | rejected o =>
        rw [hrun] at hcall
        exact absurd (hcall.outcome.2.symm.trans hret₂) (by decide)
    · exact absurd (Option.some.inj h) (by simp)
    · exact absurd (Option.some.inj h) (by simp)

theorem Decoder.eq_of_bare {d d' : Decoder} (h : d.bare = d'.bare)
    (hread : d.totalRead = d'.totalRead) (hover : d.totalOverhead = d'.totalOverhead) :
    d = d' := by
  obtain ⟨left, consume, hex, state, read, lost⟩ := d
  obtain ⟨left', consume', hex', state', read', lost'⟩ := d'
  simp only [Decoder.bare, Decoder.mk.injEq] at h hread hover ⊢
  obtain ⟨h₁, h₂, h₃, h₄, -, -⟩ := h
  exact ⟨h₁, h₂, h₃, h₄, hread, hover⟩

/-- Two ways to hand on the same body give the same, counters included. -/
theorem decodePieces_congr {d : Decoder} {read written : ℕ} {ps qs : List Bytes}
    (hd : Counted d read written) (hflat : ps.flatten = qs.flatten)
    (hlt : read + ps.flatten.length < 18446744073709551616)
    (h : (decodePieces d ps).map (Outcome.map Decoder.bare) =
      (decodePieces d qs).map (Outcome.map Decoder.bare)) :
    decodePieces d ps = decodePieces d qs := by
  have hsome : (decodePieces d ps).map (Outcome.map Decoder.bare) = some _ :=
    decodePieces_eq hd hlt
  obtain ⟨o, ho, heq⟩ := Option.map_eq_some_iff.mp hsome
  obtain ⟨o', ho', heq'⟩ := Option.map_eq_some_iff.mp (h.symm.trans hsome)
  rw [ho, ho']
  rw [← heq] at heq'
  -- the outcomes are of one kind, and where more is wanted the counters are the same, too
  rcases o with ⟨e, out⟩ | ⟨out, rest⟩ | out <;>
    rcases o' with ⟨e', out'⟩ | ⟨out', rest'⟩ | out' <;>
      simp only [Outcome.map, reduceCtorEq, Outcome.more.injEq, Outcome.done.injEq,
        Outcome.rejected.injEq] at heq'
  · obtain ⟨hbare, rfl⟩ := heq'
    have hcounted := hd.decodePieces hlt ho
    have hcounted' := hd.decodePieces (by rwa [← hflat]) ho'
    rw [← hflat] at hcounted'
    rw [Decoder.eq_of_bare hbare (hcounted'.totalRead.trans hcounted.totalRead.symm)
      (hcounted'.totalOverhead.trans hcounted.totalOverhead.symm)]
  · rw [heq'.1, heq'.2]
  · rw [heq']

/-- A body of which so much has arrived is not complete, and is refused. -/
def Overloaded (consumeTrailer : Bool) (input : Bytes) : Prop :=
  ∃ d out, run step (.fresh consumeTrailer) input = .more d out ∧
    refusesOverhead input.length out.length = true

theorem refusedAt_iff (consumeTrailer : Bool) (ps : List Bytes) (k : ℕ) :
    (∃ out, RefusedAt step refusesOverhead 0 0 (.fresh consumeTrailer) ps k out) ↔
      Overloaded consumeTrailer (ps.take k).flatten := by
  simp only [RefusedAt, Nat.zero_add, Overloaded]
  exact exists_comm

/-- A short body is not refused. -/
theorem not_overloaded_of_lt {consumeTrailer : Bool} {input : Bytes} (h : input.length < 102400) :
    ¬ Overloaded consumeTrailer input := by
  rintro ⟨d, out, -, hrefuse⟩
  have hover := of_decide_eq_true (Bool.and_eq_true_iff.mp hrefuse).1
  omega

theorem length_flatten_take_le (ps : List Bytes) (k : ℕ) :
    (ps.take k).flatten.length ≤ ps.flatten.length := by
  have hsplit := congrArg (fun l => (List.flatten l).length) (List.take_append_drop k ps)
  simp only [List.flatten_append, List.length_append] at hsplit
  omega

/-- A body that is not refused where a piece ends. -/
theorem decodePieces_flatten (consumeTrailer : Bool) {ps : List Bytes}
    (hlt : ps.flatten.length < 18446744073709551616)
    (hnever : ∀ k, ¬ Overloaded consumeTrailer (ps.take k).flatten) :
    decodePieces (.fresh consumeTrailer) ps =
      decodePieces (.fresh consumeTrailer) [ps.flatten] := by
  have hcounted := counted_fresh consumeTrailer
  have hflat : [ps.flatten].flatten = ps.flatten := by simp
  refine decodePieces_congr hcounted hflat.symm (by omega) ?_
  rw [decodePieces_eq hcounted (by omega), decodePieces_eq hcounted (by rw [hflat]; omega),
    feed_eq_run fun k out h => ?_, feed_eq_run fun k out h => ?_, hflat]
  · have hover := (refusedAt_iff _ _ _).mp ⟨out, h⟩
    rw [List.take_succ_cons, List.take_nil, hflat] at hover
    exact hnever ps.length (by rwa [List.take_length])
  · exact hnever (k + 1) ((refusedAt_iff _ _ _).mp ⟨out, h⟩)

/-- A body that is refused where some piece ends. -/
theorem decodePieces_rejected (consumeTrailer : Bool) {ps : List Bytes}
    (hlt : ps.flatten.length < 18446744073709551616)
    (hsome : ∃ k, Overloaded consumeTrailer (ps.take k).flatten) :
    ∃ out, decodePieces (.fresh consumeTrailer) ps = some (.rejected out) := by
  have hpieces : (decodePieces (.fresh consumeTrailer) ps).map (Outcome.map Decoder.bare) = _ :=
    decodePieces_eq (counted_fresh consumeTrailer) (by omega)
  classical
  have hk := Nat.find_spec hsome
  have hmin := fun j (hj : j < Nat.find hsome) => Nat.find_min hsome hj
  generalize Nat.find hsome = k at hk hmin
  -- nothing is refused in front of the first piece
  obtain ⟨k, rfl⟩ : ∃ j, k = j + 1 := by
    refine Nat.exists_eq_succ_of_ne_zero fun h0 => ?_
    rw [h0] at hk
    exact not_overloaded_of_lt (by simp) hk
  have hklt : k < ps.length := by
    by_contra hge
    have htake : ∀ j, ps.length ≤ j → ps.take j = ps := fun j => List.take_of_length_le
    rw [htake (k + 1) (by omega)] at hk
    exact hmin k (Nat.lt_succ_self k) (by rwa [htake k (by omega)])
  obtain ⟨out, hout⟩ := (refusedAt_iff _ _ _).mpr hk
  rw [show (Decoder.fresh consumeTrailer).bare = .fresh consumeTrailer from rfl,
    feed_eq_rejected hklt hout fun j hj o ho =>
      hmin (j + 1) (by omega) ((refusedAt_iff _ _ _).mp ⟨o, ho⟩)] at hpieces
  obtain ⟨o, ho, hmap⟩ := Option.map_eq_some_iff.mp hpieces
  cases o with
  | more d out' => exact absurd hmap (by simp [Outcome.map])
  | done out' rest => exact absurd hmap (by simp [Outcome.map])
  | rejected out' => exact ⟨out', ho⟩

/-- **How a body is cut makes no difference to its data.**  As long as it is not refused where a
piece ends, the calls give what one call for the whole body gives; and if it is refused somewhere,
the calls end in an error. -/
theorem decodePieces_exact (consumeTrailer : Bool) {ps : List Bytes}
    (hlt : ps.flatten.length < 18446744073709551616) :
    ((∀ k, ¬ Overloaded consumeTrailer (ps.take k).flatten) →
        decodePieces (.fresh consumeTrailer) ps =
          decodePieces (.fresh consumeTrailer) [ps.flatten]) ∧
      ((∃ k, Overloaded consumeTrailer (ps.take k).flatten) →
        ∃ out, decodePieces (.fresh consumeTrailer) ps = some (.rejected out)) :=
  ⟨decodePieces_flatten consumeTrailer hlt, decodePieces_rejected consumeTrailer hlt⟩

/-- A chunk of three bytes that is cut in the middle of its size line and of its data. -/
theorem decodePieces_exact_three :
    decodePieces (.fresh true) [[51, 13], [10, 97], [98, 99, 13, 10, 48, 13, 10, 10]] =
      decodePieces (.fresh true) [[51, 13, 10, 97, 98, 99, 13, 10, 48, 13, 10, 10]] := by
  have hlt : ([[51, 13], [10, 97], [98, 99, 13, 10, 48, 13, 10, 10]] : List Bytes).flatten.length <
      18446744073709551616 := by decide
  exact (decodePieces_exact true hlt).1 fun k =>
    not_overloaded_of_lt (Nat.lt_of_le_of_lt (length_flatten_take_le _ k) (by decide))

end Chunked
end BareHttp
