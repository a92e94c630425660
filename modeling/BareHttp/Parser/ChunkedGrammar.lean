import BareHttp.Parser.ChunkedCalls

/-!
# What a chunked body is

`Body` is the grammar of a chunked body, with the data it stands for: chunks with their sizes in
front, a last chunk of size zero and, if the caller wants them consumed, trailer lines.  It is what
`phr_decode_chunked` takes for one, which is a little more than the standard has: a size may begin
with zeros, behind it anything may stand that begins with a blank or a semicolon, and carriage
returns in front of a trailer line do not matter.

`run_eq_done_iff` says that the grammar is exact: the decoder stops behind an input if and only if
it is a body, and has then written its data.  One direction is that every body is decoded, the
other that nothing else is.
-/

namespace BareHttp
namespace Chunked

open Buffer Transducer Pico

/-- The number that hexadecimal digits denote, behind one that was read. -/
def hexValue (n : ℕ) (ds : Bytes) : ℕ := ds.foldl (fun n c => n * 16 + (decodeHex c).getD 0) n

/-- What may stand between a size and the end of its line. -/
def Extension (ext : Bytes) : Prop :=
  (ext = [] ∨ ∃ c e, ext = c :: e ∧ (c = sp ∨ c = ht ∨ c = 59)) ∧ ∀ c ∈ ext, c ≠ cr ∧ c ≠ lf

/-- A line with a size, of one to sixteen digits. -/
structure SizeLine (n : ℕ) (line : Bytes) : Prop where
  parts : ∃ ds ext, line = ds ++ ext ++ [cr, lf] ∧ ds ≠ [] ∧ ds.length ≤ 16 ∧
    (∀ c ∈ ds, (decodeHex c).isSome = true) ∧ hexValue 0 ds = n ∧ Extension ext

/-- Lines up to an empty one. -/
inductive Trailers : Bytes → Prop
  | stop (k : ℕ) : Trailers (List.replicate k cr ++ [lf])
  | line (k : ℕ) {c : UInt8} {middle t : Bytes} (hc : c ≠ cr ∧ c ≠ lf) (hmiddle : lf ∉ middle)
      (ht : Trailers t) : Trailers (List.replicate k cr ++ c :: middle ++ lf :: t)

/-- **A chunked body**, and the data it stands for. -/
inductive Body (consumeTrailer : Bool) : Bytes → Bytes → Prop
  | last {l t : Bytes} (hl : SizeLine 0 l)
      (ht : if consumeTrailer then Trailers t else t = []) : Body consumeTrailer (l ++ t) []
  | chunk {l data w out : Bytes} (hl : SizeLine data.length l) (hdata : data ≠ [])
      (hw : Body consumeTrailer w out) :
      Body consumeTrailer (l ++ data ++ [cr, lf] ++ w) (data ++ out)

/-- The decoder in a state, with so much data to come. -/
def inState (consumeTrailer : Bool) (state : ChunkState) (left : ℕ) : Decoder :=
  { Decoder.fresh consumeTrailer with state := state, bytesLeftInChunk := left }

/-! ## The bytes of a body -/

section Steps

variable {consume : Bool}

/-- A byte that is read without output. -/
theorem run_read {d d' : Decoder} {c : UInt8} (h : step d c = .next d' []) (w : Bytes) :
    run step d (c :: w) = run step d' w := by
  rw [run_cons_next h, Outcome.emit_nil]

theorem step_lf_halt : step (inState false .inChunkHeaderExpectLf 0) lf = .halt := rfl

theorem step_lf_trailers : step (inState true .inChunkHeaderExpectLf 0) lf =
    .next (inState true .inTrailersLineHead 0) [] := rfl

theorem step_lf_data {n : ℕ} (hn : n ≠ 0) : step (inState consume .inChunkHeaderExpectLf n) lf =
    .next (inState consume .inChunkData n) [] := by
  simp [step, inState, hn]

theorem step_data_cr : step (inState consume .inChunkDataExpectCr 0) cr =
    .next (inState consume .inChunkDataExpectLf 0) [] := rfl

theorem step_data_lf : step (inState consume .inChunkDataExpectLf 0) lf =
    .next (.fresh consume) [] := rfl

theorem step_head_cr : step (inState consume .inTrailersLineHead 0) cr =
    .next (inState consume .inTrailersLineHead 0) [] := rfl

theorem step_head_lf : step (inState consume .inTrailersLineHead 0) lf = .halt := rfl

theorem step_head_other {c : UInt8} (hc : c ≠ cr ∧ c ≠ lf) :
    step (inState consume .inTrailersLineHead 0) c =
      .next (inState consume .inTrailersLineMiddle 0) [] := by
  simp [step, inState, hc]

theorem step_middle_lf : step (inState consume .inTrailersLineMiddle 0) lf =
    .next (inState consume .inTrailersLineHead 0) [] := rfl

theorem step_middle_other {c : UInt8} (hc : c ≠ lf) :
    step (inState consume .inTrailersLineMiddle 0) c =
      .next (inState consume .inTrailersLineMiddle 0) [] := by
  simp [step, inState, hc]

end Steps

/-! ## A body is decoded -/

section Decodes

variable {consume : Bool}

/-- Digits are added to the size. -/
theorem run_digits {d : Decoder} (hd : d.state = .inChunkSize) {ds : Bytes}
    (hds : ∀ c ∈ ds, (decodeHex c).isSome = true) (hlen : d.hexCount + ds.length ≤ 16) (w : Bytes) :
    run step d (ds ++ w) = run step
      { d with
        bytesLeftInChunk := hexValue d.bytesLeftInChunk ds
        hexCount := d.hexCount + ds.length } w := by
  induction ds generalizing d with
  | nil => rfl
  | cons c ds ih =>
    obtain ⟨v, hv⟩ := Option.isSome_iff_exists.mp (hds c List.mem_cons_self)
    rw [List.length_cons] at hlen
    have hstep : step d c = .next
        { d with bytesLeftInChunk := d.bytesLeftInChunk * 16 + v, hexCount := d.hexCount + 1 }
        [] := by
      simp only [step, hd, hv, if_neg (show ¬ d.hexCount = 16 by omega)]
    rw [List.cons_append, run_cons_next hstep, Outcome.emit_nil,
      ih (d := { d with bytesLeftInChunk := d.bytesLeftInChunk * 16 + v
                        hexCount := d.hexCount + 1 }) hd
        (fun c hc => hds c (List.mem_cons_of_mem _ hc)) (by simp only; omega)]
    simp only [hexValue, List.foldl_cons, hv, Option.getD_some, List.length_cons, Nat.add_assoc,
      Nat.add_comm 1]

/-- An extension is skipped up to the end of the line. -/
theorem run_extension {d : Decoder} (hd : d.state = .inChunkExt) {e : Bytes}
    (he : ∀ c ∈ e, c ≠ cr ∧ c ≠ lf) (w : Bytes) :
    run step d (e ++ cr :: w) = run step { d with state := .inChunkHeaderExpectLf } w := by
  induction e with
  | nil =>
    have hstep : step d cr = .next { d with state := .inChunkHeaderExpectLf } [] := by
      simp only [step, hd, if_true]
    rw [List.nil_append, run_cons_next hstep, Outcome.emit_nil]
  | cons c e ih =>
    obtain ⟨hcr, hlf⟩ := he c List.mem_cons_self
    have hstep : step d c = .next d [] := by simp only [step, hd, if_neg hcr, if_neg hlf]
    rw [List.cons_append, run_cons_next hstep, Outcome.emit_nil,
      ih fun c hc => he c (List.mem_cons_of_mem _ hc)]

/-- A line with a size, up to its line feed. -/
theorem run_sizeLine {n : ℕ} {l : Bytes} (hl : SizeLine n l) (w : Bytes) :
    run step (.fresh consume) (l ++ w) =
      run step (inState consume .inChunkHeaderExpectLf n) (lf :: w) := by
  obtain ⟨ds, ext, rfl, hne, hlen, hds, rfl, hext, hplain⟩ := hl.parts
  have hpos : ds.length ≠ 0 := fun h => hne (List.eq_nil_of_length_eq_zero h)
  have hsplit : ds ++ ext ++ [cr, lf] ++ w = ds ++ (ext ++ cr :: lf :: w) := by simp
  rw [hsplit, run_digits rfl hds (by simpa [Decoder.fresh] using hlen)]
  simp only [Decoder.fresh, Nat.zero_add]
  rcases hext with rfl | ⟨c, e, rfl, hc⟩
  · have hdigit : decodeHex cr = none := rfl
    have hstep : step ⟨hexValue 0 ds, consume, ds.length, .inChunkSize, 0, 0⟩ cr =
        .next (inState consume .inChunkHeaderExpectLf (hexValue 0 ds)) [] := by
      simp only [step, hdigit, if_neg hpos, if_true, inState, Decoder.fresh]
    rw [List.nil_append, run_read hstep]
  · have hdigit : decodeHex c = none := by rcases hc with rfl | rfl | rfl <;> rfl
    obtain ⟨hcr, -⟩ := hplain c List.mem_cons_self
    have hstep : step ⟨hexValue 0 ds, consume, ds.length, .inChunkSize, 0, 0⟩ c =
        .next (inState consume .inChunkExt (hexValue 0 ds)) [] := by
      simp only [step, hdigit, if_neg hpos, if_neg hcr, if_pos hc, inState, Decoder.fresh]
    rw [List.cons_append, run_read hstep,
      run_extension rfl fun c hc => hplain c (List.mem_cons_of_mem _ hc)]
    rfl

/-- Carriage returns in front of a trailer line are skipped. -/
theorem run_head_crs (k : ℕ) (w : Bytes) :
    run step (inState consume .inTrailersLineHead 0) (List.replicate k cr ++ w) =
      run step (inState consume .inTrailersLineHead 0) w := by
  induction k with
  | zero => rfl
  | succ k ih => rw [List.replicate_succ, List.cons_append, run_read step_head_cr, ih]

/-- A trailer line is skipped up to its line feed. -/
theorem run_middle {middle : Bytes} (h : lf ∉ middle) (w : Bytes) :
    run step (inState consume .inTrailersLineMiddle 0) (middle ++ lf :: w) =
      run step (inState consume .inTrailersLineHead 0) w := by
  induction middle with
  | nil => rw [List.nil_append, run_read step_middle_lf]
  | cons c middle ih =>
    obtain ⟨hc, hmiddle⟩ := not_or.mp (mt List.mem_cons.mpr h)
    rw [List.cons_append, run_read (step_middle_other (Ne.symm hc)), ih hmiddle]

theorem run_trailers {t : Bytes} (ht : Trailers t) (rest : Bytes) :
    run step (inState consume .inTrailersLineHead 0) (t ++ rest) = .done [] rest := by
  induction ht with
  | stop k =>
    rw [List.append_assoc, run_head_crs, List.singleton_append, run_cons_halt step_head_lf]
  | @line k c middle t hc hmiddle ht ih =>
    have hsplit : List.replicate k cr ++ c :: middle ++ lf :: t ++ rest =
        List.replicate k cr ++ c :: (middle ++ lf :: (t ++ rest)) := by simp
    rw [hsplit, run_head_crs, run_read (step_head_other hc), run_middle hmiddle, ih]

/-- **Every body is decoded.** -/
theorem run_body {w out : Bytes} (h : Body consume w out) (rest : Bytes) :
    run step (.fresh consume) (w ++ rest) = .done out rest := by
  induction h with
  | @last l t hl ht =>
    rw [List.append_assoc, run_sizeLine hl]
    cases consume with
    | false =>
      obtain rfl : t = [] := by simpa using ht
      rw [run_cons_halt step_lf_halt, List.nil_append]
    | true => rw [run_read step_lf_trailers, run_trailers (by simpa using ht)]
  | @chunk l data w out hl hdata hw ih =>
    have hpos : data.length ≠ 0 := fun h => hdata (List.eq_nil_of_length_eq_zero h)
    have hsplit : l ++ data ++ [cr, lf] ++ w ++ rest = l ++ (data ++ cr :: lf :: (w ++ rest)) := by
      simp
    have hbehind : (inState consume .inChunkData data.length).behindData data.length =
        inState consume .inChunkDataExpectCr 0 := if_pos rfl
    rw [hsplit, run_sizeLine hl, run_read (step_lf_data hpos),
      run_data (d := inState consume .inChunkData data.length) rfl data (Nat.le_refl _)
        (Nat.pos_of_ne_zero hpos),
      hbehind, run_read step_data_cr, run_read step_data_lf, ih, Outcome.emit_done]

end Decodes

/-! ## Nothing else is decoded -/

section Decoded

variable {consume : Bool} {out rest : Bytes}

theorem Trailers.cons_cr {t : Bytes} (ht : Trailers t) : Trailers (cr :: t) := by
  cases ht with
  | stop k => exact Trailers.stop (k + 1)
  | line k hc hmiddle ht => exact Trailers.line (k + 1) hc hmiddle ht

/-- What the decoder takes for trailer lines, at the head of one and in its middle. -/
theorem trailers_of_run {w : Bytes} :
    (run step (inState consume .inTrailersLineHead 0) w = .done out rest →
      out = [] ∧ ∃ t, w = t ++ rest ∧ Trailers t) ∧
    (run step (inState consume .inTrailersLineMiddle 0) w = .done out rest →
      out = [] ∧ ∃ middle t, w = middle ++ lf :: t ++ rest ∧ lf ∉ middle ∧ Trailers t) := by
  induction w with
  | nil => exact ⟨fun h => by simp [run] at h, fun h => by simp [run] at h⟩
  | cons c w ih =>
    obtain ⟨ihHead, ihMiddle⟩ := ih
    constructor
    · intro h
      by_cases hcr : c = cr
      · subst hcr
        rw [run_read step_head_cr] at h
        obtain ⟨hout, t, rfl, ht⟩ := ihHead h
        exact ⟨hout, cr :: t, rfl, ht.cons_cr⟩
      · by_cases hlf : c = lf
        · subst hlf
          rw [run_cons_halt step_head_lf] at h
          obtain ⟨rfl, rfl⟩ := Outcome.done.inj h
          exact ⟨rfl, [lf], rfl, Trailers.stop 0⟩
        · rw [run_read (step_head_other ⟨hcr, hlf⟩)] at h
          obtain ⟨hout, middle, t, rfl, hmiddle, ht⟩ := ihMiddle h
          exact ⟨hout, c :: middle ++ lf :: t, rfl, Trailers.line 0 ⟨hcr, hlf⟩ hmiddle ht⟩
    · intro h
      by_cases hlf : c = lf
      · subst hlf
        rw [run_read step_middle_lf] at h
        obtain ⟨hout, t, rfl, ht⟩ := ihHead h
        exact ⟨hout, [], t, rfl, List.not_mem_nil, ht⟩
      · rw [run_read (step_middle_other hlf)] at h
        obtain ⟨hout, middle, t, rfl, hmiddle, ht⟩ := ihMiddle h
        exact ⟨hout, c :: middle, t, rfl, by simp [Ne.symm hlf, hmiddle], ht⟩

/-- The end of a line is found behind an extension. -/
theorem extension_of_run {d : Decoder} (hd : d.state = .inChunkExt) {w : Bytes}
    (h : run step d w = .done out rest) :
    ∃ e w', w = e ++ cr :: w' ∧ (∀ c ∈ e, c ≠ cr ∧ c ≠ lf) ∧
      run step { d with state := .inChunkHeaderExpectLf } w' = .done out rest := by
  induction w with
  | nil => exact absurd h (by simp [run])
  | cons c w ih =>
    by_cases hcr : c = cr
    · have hstep : step d c = .next { d with state := .inChunkHeaderExpectLf } [] := by
        simp only [step, hd, if_pos hcr]
      rw [run_read hstep] at h
      exact ⟨[], w, by rw [hcr, List.nil_append], by simp, h⟩
    · by_cases hlf : c = lf
      · have hstep : step d c = .reject := by simp only [step, hd, if_neg hcr, if_pos hlf]
        exact absurd h (by simp [run_cons_reject hstep])
      · have hstep : step d c = .next d [] := by simp only [step, hd, if_neg hcr, if_neg hlf]
        rw [run_read hstep] at h
        obtain ⟨e, w', rfl, he, hrest⟩ := ih h
        exact ⟨c :: e, w', rfl, List.forall_mem_cons.mpr ⟨⟨hcr, hlf⟩, he⟩, hrest⟩

/-- What the decoder takes for a size, with the digits it has already. -/
theorem size_of_run {d : Decoder} (hd : d.state = .inChunkSize) (hhex : d.hexCount ≤ 16) {w : Bytes}
    (h : run step d w = .done out rest) :
    ∃ ds ext w', w = ds ++ ext ++ cr :: w' ∧ d.hexCount + ds.length ≠ 0 ∧
      d.hexCount + ds.length ≤ 16 ∧ (∀ c ∈ ds, (decodeHex c).isSome = true) ∧ Extension ext ∧
      run step
        { d with
          bytesLeftInChunk := hexValue d.bytesLeftInChunk ds
          hexCount := 0
          state := .inChunkHeaderExpectLf } w' = .done out rest := by
  induction w generalizing d with
  | nil => exact absurd h (by simp [run])
  | cons c w ih =>
    cases hv : decodeHex c with
    | some v =>
      by_cases h16 : d.hexCount = 16
      · have hstep : step d c = .reject := by simp only [step, hd, hv, if_pos h16]
        exact absurd h (by simp [run_cons_reject hstep])
      · have hstep : step d c = .next
            { d with bytesLeftInChunk := d.bytesLeftInChunk * 16 + v, hexCount := d.hexCount + 1 }
            [] := by
          simp only [step, hd, hv, if_neg h16]
        rw [run_read hstep] at h
        obtain ⟨ds, ext, w', rfl, hne, hle, hds, hext, hrest⟩ := ih
          (d := { d with bytesLeftInChunk := d.bytesLeftInChunk * 16 + v
                         hexCount := d.hexCount + 1 }) hd (by simp only; omega) h
        simp only at hle hrest
        refine ⟨c :: ds, ext, w', rfl, by simp, by rw [List.length_cons]; omega,
          List.forall_mem_cons.mpr ⟨by rw [hv]; rfl, hds⟩, hext, ?_⟩
        simpa only [hexValue, List.foldl_cons, hv, Option.getD_some] using hrest
    | none =>
      by_cases hzero : d.hexCount = 0
      · have hstep : step d c = .reject := by simp only [step, hd, hv, if_pos hzero]
        exact absurd h (by simp [run_cons_reject hstep])
      · by_cases hcr : c = cr
        · have hstep : step d c = .next
              { d with hexCount := 0, state := .inChunkHeaderExpectLf } [] := by
            simp only [step, hd, hv, if_neg hzero, if_pos hcr]
          rw [run_read hstep] at h
          exact ⟨[], [], w, by rw [hcr]; rfl, by simpa using hzero, by simpa using hhex, by simp,
            ⟨.inl rfl, by simp⟩, h⟩
        · by_cases hblank : c = sp ∨ c = ht ∨ c = 59
          · have hstep : step d c = .next { d with hexCount := 0, state := .inChunkExt } [] := by
              simp only [step, hd, hv, if_neg hzero, if_neg hcr, if_pos hblank]
            have hlf : c ≠ lf := by rcases hblank with rfl | rfl | rfl <;> decide
            rw [run_read hstep] at h
            obtain ⟨e, w', rfl, he, hrest⟩ := extension_of_run rfl h
            exact ⟨[], c :: e, w', rfl, by simpa using hzero, by simpa using hhex, by simp,
              ⟨.inr ⟨c, e, rfl, hblank⟩, List.forall_mem_cons.mpr ⟨⟨hcr, hlf⟩, he⟩⟩, hrest⟩
          · have hstep : step d c = .reject := by
              simp only [step, hd, hv, if_neg hzero, if_neg hcr, if_neg hblank]
            exact absurd h (by simp [run_cons_reject hstep])

/-- A line with a size stands at the beginning, up to its line feed. -/
theorem sizeLine_of_run {w : Bytes} (h : run step (.fresh consume) w = .done out rest) :
    ∃ n l w', w = l ++ w' ∧ SizeLine n l ∧
      run step (inState consume .inChunkHeaderExpectLf n) (lf :: w') = .done out rest := by
  obtain ⟨ds, ext, w', rfl, hne, hle, hds, hext, hrest⟩ := size_of_run rfl (Nat.zero_le _) h
  simp only [Decoder.fresh, Nat.zero_add] at hne hle hrest
  cases w' with
  | nil => exact absurd hrest (by simp [run])
  | cons c w' =>
    by_cases hc : c = lf
    · subst hc
      refine ⟨_, ds ++ ext ++ [cr, lf], w', by simp, ⟨ds, ext, rfl, ?_, hle, hds, rfl, hext⟩, hrest⟩
      rintro rfl
      exact hne rfl
    · exact absurd hrest (by simp [run, step, hc])

/-- The data of a chunk is all there when the decoder stops. -/
theorem data_of_run {n : ℕ} (hn : n ≠ 0) {w : Bytes}
    (h : run step (inState consume .inChunkData n) w = .done out rest) :
    ∃ data w' out', w = data ++ w' ∧ data.length = n ∧ out = data ++ out' ∧
      run step (inState consume .inChunkDataExpectCr 0) w' = .done out' rest := by
  by_cases hlt : w.length < n
  · have hrun := run_data (d := inState consume .inChunkData n) rfl w (Nat.le_of_lt hlt)
      (Nat.pos_of_ne_zero hn) []
    rw [List.append_nil, h] at hrun
    exact absurd hrun (by simp [run])
  · have hlen : (w.take n).length = n := List.length_take_of_le (Nat.not_lt.mp hlt)
    have hrun := run_data (d := inState consume .inChunkData n) rfl (w.take n)
      (Nat.le_of_eq hlen) (Nat.pos_of_ne_zero hn) (w.drop n)
    have hbehind : (inState consume .inChunkData n).behindData n =
        inState consume .inChunkDataExpectCr 0 := if_pos rfl
    rw [List.take_append_drop, h, hlen, hbehind] at hrun
    obtain ⟨out', hout, hrest⟩ := Outcome.emit_eq_done hrun.symm
    exact ⟨w.take n, w.drop n, out', (List.take_append_drop n w).symm, hlen, hout, hrest⟩

/-- The line end behind the data of a chunk. -/
theorem crlf_of_run {w : Bytes}
    (h : run step (inState consume .inChunkDataExpectCr 0) w = .done out rest) :
    ∃ w', w = [cr, lf] ++ w' ∧ run step (.fresh consume) w' = .done out rest := by
  rcases w with _ | ⟨c, w⟩
  · exact absurd h (by simp [run])
  by_cases hc : c = cr
  · subst hc
    rw [run_read step_data_cr] at h
    rcases w with _ | ⟨c, w⟩
    · exact absurd h (by simp [run])
    by_cases hc : c = lf
    · subst hc
      rw [run_read step_data_lf] at h
      exact ⟨w, rfl, h⟩
    · exact absurd h (by simp [run, step, inState, hc])
  · exact absurd h (by simp [run, step, inState, hc])

/-- **Nothing but a body is decoded.** -/
theorem body_of_run {w : Bytes} (h : run step (.fresh consume) w = .done out rest) :
    ∃ b, w = b ++ rest ∧ Body consume b out := by
  -- the body behind the first chunk is shorter
  induction hlen : w.length using Nat.strong_induction_on generalizing w out with
  | _ len ih =>
    obtain ⟨n, l, w', rfl, hl, hrun⟩ := sizeLine_of_run h
    by_cases hn : n = 0
    · subst hn
      cases consume with
      | false =>
        rw [run_cons_halt step_lf_halt] at hrun
        obtain ⟨rfl, rfl⟩ := Outcome.done.inj hrun
        exact ⟨l ++ [], by simp, .last hl (by simp)⟩
      | true =>
        rw [run_read step_lf_trailers] at hrun
        obtain ⟨rfl, t, rfl, ht⟩ := trailers_of_run.1 hrun
        exact ⟨l ++ t, by simp, .last hl (by simpa using ht)⟩
    · rw [run_read (step_lf_data hn)] at hrun
      obtain ⟨data, w'', out', rfl, rfl, rfl, hcr⟩ := data_of_run hn hrun
      obtain ⟨w₃, rfl, hfresh⟩ := crlf_of_run hcr
      obtain ⟨b, rfl, hb⟩ := ih w₃.length (by
        rw [← hlen]
        simp only [List.length_append, List.length_cons]
        omega) hfresh rfl
      refine ⟨l ++ data ++ [cr, lf] ++ b, by simp, .chunk hl ?_ hb⟩
      rintro rfl
      exact hn rfl

/-- **The grammar is exact.** -/
theorem run_eq_done_iff {w : Bytes} :
    run step (.fresh consume) w = .done out rest ↔ ∃ b, w = b ++ rest ∧ Body consume b out := by
  constructor
  · exact body_of_run
  · rintro ⟨b, rfl, hb⟩
    exact run_body hb rest

end Decoded

/-! ## What a caller gets -/

/-- The outcome of the calls, if the body is not refused where a piece ends. -/
theorem decodePieces_eq_run {consume : Bool} {ps : List Bytes}
    (hlt : ps.flatten.length < 18446744073709551616)
    (hnever : ∀ k, ¬ Overloaded consume (ps.take k).flatten) :
    (decodePieces (.fresh consume) ps).map (Outcome.map Decoder.bare) =
      some (run step (.fresh consume) ps.flatten) := by
  rw [decodePieces_eq (counted_fresh consume) (by omega),
    show (Decoder.fresh consume).bare = .fresh consume from rfl,
    feed_eq_run fun k out h => hnever (k + 1) ((refusedAt_iff _ _ _).mp ⟨out, h⟩)]

/-- **A body arrives**, in whatever pieces, exactly if what arrives begins with a body and is not
refused for its overhead where a piece ends.  The caller gets the data of the body, and behind it
what is not part of it. -/
theorem decodePieces_eq_done_iff (consume : Bool) {ps : List Bytes} {data rest : Bytes}
    (hlt : ps.flatten.length < 18446744073709551616) :
    decodePieces (.fresh consume) ps = some (.done data rest) ↔
      (∃ b, ps.flatten = b ++ rest ∧ Body consume b data) ∧
        ∀ k, ¬ Overloaded consume (ps.take k).flatten := by
  constructor
  · intro h
    have hnever : ∀ k, ¬ Overloaded consume (ps.take k).flatten := by
      intro k hk
      obtain ⟨out, hout⟩ := decodePieces_rejected consume hlt ⟨k, hk⟩
      exact absurd (h.symm.trans hout) (by simp)
    have hrun := decodePieces_eq_run hlt hnever
    rw [h, Option.map_some, Outcome.map, Option.some.injEq] at hrun
    exact ⟨run_eq_done_iff.mp hrun.symm, hnever⟩
  · rintro ⟨hbody, hnever⟩
    have hrun := decodePieces_eq_run hlt hnever
    rw [run_eq_done_iff.mpr hbody] at hrun
    obtain ⟨o, ho, hmap⟩ := Option.map_eq_some_iff.mp hrun
    cases o with
    | more d out => exact absurd hmap (by simp [Outcome.map])
    | done out rest' =>
      obtain ⟨rfl, rfl⟩ := Outcome.done.inj hmap
      exact ho
    | rejected out => exact absurd hmap (by simp [Outcome.map])

/-- A chunk of three bytes and the last one, in three pieces, with a byte behind them. -/
theorem decodePieces_eq_done_three :
    decodePieces (.fresh false) [[51, 13], [10, 97], [98, 99, 13, 10, 48, 13, 10, 120]] =
      some (.done [97, 98, 99] [120]) := by
  refine (decodePieces_eq_done_iff false (by decide)).mpr ⟨?_, fun k =>
    not_overloaded_of_lt (Nat.lt_of_le_of_lt (length_flatten_take_le _ k) (by decide))⟩
  have hfirst : SizeLine 3 [51, 13, 10] :=
    ⟨[51], [], rfl, by decide, by decide, List.forall_mem_singleton.mpr rfl, rfl, .inl rfl,
      List.forall_mem_nil _⟩
  have hlast : SizeLine 0 [48, 13, 10] :=
    ⟨[48], [], rfl, by decide, by decide, List.forall_mem_singleton.mpr rfl, rfl, .inl rfl,
      List.forall_mem_nil _⟩
  have hbody : Body false ([51, 13, 10] ++ [97, 98, 99] ++ [cr, lf] ++ ([48, 13, 10] ++ []))
      ([97, 98, 99] ++ []) := .chunk hfirst (by decide) (.last hlast (by simp))
  exact ⟨[51, 13, 10, 97, 98, 99, 13, 10, 48, 13, 10], rfl, hbody⟩

end Chunked
end BareHttp
