import BareHttp.Parser.Response

/-!
# The scans as they are compiled

`srclib/picohttpparser.c` has two ways to run over the bytes of a token.  With `__SSE4_2__`,
`findchar_fast` looks at sixteen bytes at a time for one that is in a table of ranges, and the byte
loops go on from there.  Without it, `get_token_to_eol` looks at eight bytes in a row before it
tests for the end of the buffer again.

Here both are modelled with their loads, and the parsers are written for any choice of the scans.
A load that is not within the buffer is an error, and so is a read that is not tested for its end.
`phrParse_scans` says that the two ways give the same on every buffer as the plain scans of `Pico`,
and that no such load is made.
-/

namespace BareHttp
namespace Pico

open Scanner

/-! ## Sixteen bytes at a time -/

/-- What was stepped over, what is left, and whether the byte in front was found. -/
structure Skipped where
  token : Bytes
  rest : Bytes
  found : Bool

/-- More that was stepped over before. -/
def Skipped.behind (token : Bytes) (s : Skipped) : Skipped := { s with token := token ++ s.token }

/-- The byte is in one of the ranges. -/
def inRanges (ranges : List (UInt8 × UInt8)) (c : UInt8) : Bool :=
  ranges.any fun r => r.1 ≤ c && c ≤ r.2

/-- `_mm_cmpestri` with `_SIDD_CMP_RANGES`: the first byte of the block in one of the ranges, or
sixteen. -/
def cmpestri (ranges : List (UInt8 × UInt8)) (block : Bytes) : ℕ := block.findIdx (inRanges ranges)

/-- The loop of `findchar_fast` over so many blocks.  A block that is not all there is not
loaded. -/
def findcharLoop (ranges : List (UInt8 × UInt8)) : ℕ → Bytes → Option Skipped
  | 0, buf => some ⟨[], buf, false⟩
  | k + 1, buf =>
    if buf.length < 16 then none
    else
      let r := cmpestri ranges (buf.take 16)
      if r ≠ 16 then some ⟨buf.take r, buf.drop r, true⟩
      else (findcharLoop ranges k (buf.drop 16)).map (Skipped.behind (buf.take 16))

/-- `findchar_fast` with `__SSE4_2__`; `left` is the length with its last four bits cleared. -/
def findcharFast (ranges : List (UInt8 × UInt8)) (buf : Bytes) : Option Skipped :=
  if 16 ≤ buf.length then findcharLoop ranges (buf.length / 16) buf else some ⟨[], buf, false⟩

/-- `ranges` of `parse_token`. -/
def tokenRanges : List (UInt8 × UInt8) :=
  [(0, 32), (34, 34), (40, 41), (44, 44), (47, 47), (58, 64), (91, 93), (123, 255)]

/-- `ranges1` of `get_token_to_eol`. -/
def eolRanges : List (UInt8 × UInt8) := [(0, 8), (10, 31), (127, 127)]

/-- `ranges2` of `ADVANCE_TOKEN`. -/
def pathRanges : List (UInt8 × UInt8) := [(0, 32), (127, 127)]

/-! ## Eight bytes at a time -/

/-- `IS_PRINTABLE_ASCII`, a comparison of unsigned numbers. -/
def isPrintableAscii (c : UInt8) : Bool := (c.toNat + 4294967296 - 32) % 4294967296 < 95

/-- So many times `DOIT`.  `found` says that a byte is not printable, where the source goes to
`NonPrintable`. -/
def doit : ℕ → Bytes → Option Skipped
  | 0, buf => some ⟨[], buf, false⟩
  | _ + 1, [] => none
  | k + 1, c :: buf =>
    if isPrintableAscii c then (doit k buf).map (Skipped.behind [c])
    else some ⟨[], c :: buf, true⟩

/-- The unrolled loop of `get_token_to_eol`.  A round reads a byte at least, so `fuel` is the number
of bytes, and one. -/
def unrolledLoop : ℕ → Bytes → Option Skipped
  | 0, _ => none
  | fuel + 1, buf =>
    if buf.length < 8 then some ⟨[], buf, false⟩
    else
      (doit 8 buf).bind fun s =>
        if s.found then
          match s.rest with
          | [] => none
          | c :: rest =>
            if eolStop c then some s
            else (unrolledLoop fuel rest).map (Skipped.behind (s.token ++ [c]))
        else (unrolledLoop fuel s.rest).map (Skipped.behind s.token)

/-! ## The scans -/

/-- `parse_token`, behind what `skip` steps over. -/
def parseTokenVia (skip : Bytes → Option Skipped) (nextChar : UInt8) : Parser Bytes := fun buf =>
  match skip buf with
  | none => .fail .overrun
  | some s => (parseToken nextChar s.rest).bind fun token buf => .done (s.token ++ token) buf

/-- `ADVANCE_TOKEN`, behind what `skip` steps over. -/
def advanceTokenVia (skip : Bytes → Option Skipped) : Parser Bytes := fun buf =>
  match skip buf with
  | none => .fail .overrun
  | some s => (advanceToken s.rest).bind fun token buf => .done (s.token ++ token) buf

/-- `get_token_to_eol`, behind what `skip` steps over.  What is found there is the end of the
token. -/
def getTokenToEolVia (skip : Bytes → Option Skipped) : Parser Bytes := fun buf =>
  match skip buf with
  | none => .fail .overrun
  | some s =>
    if s.found then (endOfLine s.rest).bind fun _ buf => .done s.token buf
    else (getTokenToEol s.rest).bind fun token buf => .done (s.token ++ token) buf

/-- A choice of the scans. -/
structure Scans where
  token : UInt8 → Parser Bytes
  path : Parser Bytes
  toEol : Parser Bytes

/-- Compiled with `__SSE4_2__`. -/
def Scans.sse : Scans where
  token := parseTokenVia (findcharFast tokenRanges)
  path := advanceTokenVia (findcharFast pathRanges)
  toEol := getTokenToEolVia (findcharFast eolRanges)

/-- Compiled without it: `findchar_fast` returns its argument. -/
def Scans.portable : Scans where
  token := parseTokenVia fun buf => some ⟨[], buf, false⟩
  path := advanceTokenVia fun buf => some ⟨[], buf, false⟩
  toEol := getTokenToEolVia fun buf => unrolledLoop (buf.length + 1) buf

/-! ## What is stepped over -/

/-- **What a scan relies on**: what is stepped over is clean, and what is found is a hit. -/
structure Skips (skip : Bytes → Option Skipped) (clean hit : UInt8 → Prop) : Prop where
  spec : ∀ buf, ∃ s, skip buf = some s ∧ buf = s.token ++ s.rest ∧ (∀ c ∈ s.token, clean c) ∧
    (s.found = true → ∃ c t, s.rest = c :: t ∧ hit c)

/-- Every load and every read is within the buffer. -/
theorem Skips.isSome {skip : Bytes → Option Skipped} {clean hit : UInt8 → Prop}
    (h : Skips skip clean hit) (buf : Bytes) : (skip buf).isSome = true := by
  obtain ⟨s, hs, -⟩ := h.spec buf
  rw [hs]
  rfl

/-- A block without a hit, or the hit that comes first. -/
theorem cmpestri_cases (ranges : List (UInt8 × UInt8)) {block : Bytes} (hlen : block.length = 16) :
    (cmpestri ranges block = 16 ∧ ∀ c ∈ block, inRanges ranges c = false) ∨
      (cmpestri ranges block < 16 ∧ (∀ c ∈ block.take (cmpestri ranges block),
        inRanges ranges c = false) ∧
        ∃ c t, block.drop (cmpestri ranges block) = c :: t ∧ inRanges ranges c = true) := by
  by_cases hlt : cmpestri ranges block < 16
  · refine .inr ⟨hlt, fun c hc => ?_, ?_⟩
    · obtain ⟨i, hi, rfl⟩ := List.mem_iff_getElem.mp hc
      rw [List.length_take] at hi
      rw [List.getElem_take]
      have hnot := List.not_of_lt_findIdx (show i < block.findIdx (inRanges ranges) by
        unfold cmpestri at hi
        omega)
      simpa using hnot
    · have hlt' : block.findIdx (inRanges ranges) < block.length := by
        rw [hlen]
        exact hlt
      exact ⟨_, _, List.drop_eq_getElem_cons hlt', List.findIdx_getElem⟩
  · have hle : block.findIdx (inRanges ranges) ≤ block.length := List.findIdx_le_length
    have heq : block.findIdx (inRanges ranges) = block.length := by
      unfold cmpestri at hlt
      omega
    refine .inl ⟨heq.trans hlen, fun c hc => ?_⟩
    simpa using List.findIdx_eq_length.mp heq c hc

theorem findcharLoop_spec (ranges : List (UInt8 × UInt8)) {k : ℕ} {buf : Bytes}
    (hlen : 16 * k ≤ buf.length) :
    ∃ s, findcharLoop ranges k buf = some s ∧ buf = s.token ++ s.rest ∧
      (∀ c ∈ s.token, inRanges ranges c = false) ∧
      (s.found = true → ∃ c t, s.rest = c :: t ∧ inRanges ranges c = true) := by
  induction k generalizing buf with
  | zero => exact ⟨_, rfl, rfl, by simp, by simp⟩
  | succ k ih =>
    have hblock : (buf.take 16).length = 16 := by
      rw [List.length_take]
      omega
    rw [findcharLoop, if_neg (by omega)]
    rcases cmpestri_cases ranges hblock with ⟨heq, hclean⟩ | ⟨hlt, hclean, c, t, hdrop, hc⟩
    · have hlen' : 16 * k ≤ (buf.drop 16).length := by
        rw [List.length_drop]
        omega
      obtain ⟨s, hs, hsplit, htoken, hfound⟩ := ih hlen'
      refine ⟨s.behind (buf.take 16), by simp [heq, hs], ?_, fun c hc => ?_, hfound⟩
      · rw [Skipped.behind, List.append_assoc, ← hsplit, List.take_append_drop]
      · rcases List.mem_append.mp hc with hc | hc
        · exact hclean c hc
        · exact htoken c hc
    · generalize cmpestri ranges (buf.take 16) = r at hlt hclean hdrop
      simp only [if_pos (Nat.ne_of_lt hlt)]
      refine ⟨_, rfl, (List.take_append_drop r buf).symm, ?_, fun _ => ?_⟩
      · rwa [List.take_take, Nat.min_eq_left (Nat.le_of_lt hlt)] at hclean
      · have hsplit : buf.drop r = (buf.take 16).drop r ++ buf.drop 16 := by
          rw [← List.drop_append_of_le_length (by omega), List.take_append_drop]
        exact ⟨c, t ++ buf.drop 16, by rw [hsplit, hdrop, List.cons_append], hc⟩

theorem findcharFast_skips (ranges : List (UInt8 × UInt8)) :
    Skips (findcharFast ranges) (fun c => inRanges ranges c = false)
      (fun c => inRanges ranges c = true) := by
  refine ⟨fun buf => ?_⟩
  unfold findcharFast
  split_ifs
  · exact findcharLoop_spec ranges (Nat.mul_div_le _ _)
  · exact ⟨_, rfl, rfl, by simp, by simp⟩

theorem nothing_skips (clean hit : UInt8 → Prop) :
    Skips (fun buf => some ⟨[], buf, false⟩) clean hit :=
  ⟨fun _ => ⟨_, rfl, rfl, by simp, by simp⟩⟩

/-- A printable byte does not end a line. -/
theorem eolStop_of_isPrintableAscii {c : UInt8} (h : isPrintableAscii c = true) :
    eolStop c = false := by
  have hlt := c.toNat_lt
  have hrange : 32 ≤ c.toNat ∧ c.toNat < 127 := by
    have hmod := of_decide_eq_true h
    omega
  simp only [eolStop, Bool.or_eq_false_iff, Bool.and_eq_false_iff, decide_eq_false_iff_not]
  refine ⟨.inl fun hlt' => ?_, ?_⟩
  · have hlt'' : c.toNat < 32 := hlt'
    omega
  · rintro rfl
    exact absurd hrange.2 (by decide)

theorem doit_spec {k : ℕ} {buf : Bytes} (hlen : k ≤ buf.length) :
    ∃ s, doit k buf = some s ∧ buf = s.token ++ s.rest ∧ (∀ c ∈ s.token, eolStop c = false) ∧
      (if s.found then ∃ c t, s.rest = c :: t else s.token.length = k) := by
  induction k generalizing buf with
  | zero => exact ⟨_, rfl, rfl, by simp, rfl⟩
  | succ k ih =>
    cases buf with
    | nil => exact absurd hlen (by simp)
    | cons c buf =>
      by_cases hc : isPrintableAscii c = true
      · obtain ⟨s, hs, rfl, htoken, hfound⟩ := ih (Nat.le_of_succ_le_succ hlen)
        refine ⟨s.behind [c], by simp [doit, hc, hs], rfl,
          List.forall_mem_cons.mpr ⟨eolStop_of_isPrintableAscii hc, htoken⟩, ?_⟩
        cases hf : s.found with
        | true => simpa [Skipped.behind, hf] using hfound
        | false => simpa [Skipped.behind, hf] using hfound
      · exact ⟨⟨[], c :: buf, true⟩, by simp [doit, hc], rfl, by simp, ⟨c, buf, rfl⟩⟩

theorem unrolledLoop_spec {fuel : ℕ} {buf : Bytes} (hfuel : buf.length < fuel) :
    ∃ s, unrolledLoop fuel buf = some s ∧ buf = s.token ++ s.rest ∧
      (∀ c ∈ s.token, eolStop c = false) ∧
      (s.found = true → ∃ c t, s.rest = c :: t ∧ eolStop c = true) := by
  induction fuel generalizing buf with
  | zero => exact absurd hfuel (Nat.not_lt_zero _)
  | succ fuel ih =>
    by_cases hshort : buf.length < 8
    · exact ⟨⟨[], buf, false⟩, by rw [unrolledLoop, if_pos hshort], rfl, by simp, by simp⟩
    · obtain ⟨s, hs, rfl, htoken, hfound⟩ := doit_spec (Nat.not_lt.mp hshort)
      rw [unrolledLoop, if_neg hshort, hs, Option.bind_some]
      rw [List.length_append] at hfuel
      cases hf : s.found with
      | true =>
        rw [hf, if_pos rfl] at hfound
        obtain ⟨c, t, hrest⟩ := hfound
        rw [hrest, List.length_cons] at hfuel
        simp only [if_true, hrest]
        by_cases hc : eolStop c = true
        · rw [if_pos hc]
          exact ⟨s, rfl, by rw [hrest], htoken, fun _ => ⟨c, t, hrest, hc⟩⟩
        · -- the byte is not printable and does not end the line, as a tab
          rw [if_neg hc]
          obtain ⟨s', hs', rfl, htoken', hfound'⟩ := ih (show t.length < fuel by omega)
          refine ⟨s'.behind (s.token ++ [c]), by rw [hs']; rfl, by simp [Skipped.behind],
            fun d hd => ?_, hfound'⟩
          rcases List.mem_append.mp hd with hd | hd
          · rcases List.mem_append.mp hd with hd | hd
            · exact htoken d hd
            · rw [List.mem_singleton.mp hd]
              simpa using hc
          · exact htoken' d hd
      | false =>
        rw [hf, if_neg (by simp)] at hfound
        simp only [Bool.false_eq_true, if_false]
        obtain ⟨s', hs', hsplit, htoken', hfound'⟩ := ih (show s.rest.length < fuel by omega)
        refine ⟨s'.behind s.token, by rw [hs']; rfl, by simp [Skipped.behind, ← hsplit],
          fun d hd => ?_, hfound'⟩
        rcases List.mem_append.mp hd with hd | hd
        · exact htoken d hd
        · exact htoken' d hd

theorem unrolledLoop_skips :
    Skips (fun buf => unrolledLoop (buf.length + 1) buf) (fun c => eolStop c = false)
      (fun c => eolStop c = true) :=
  ⟨fun _ => unrolledLoop_spec (Nat.lt_succ_self _)⟩

/-! ## The scans agree -/

/-- A fact about all bytes, byte by byte. -/
theorem forall_byte {P : UInt8 → Prop} (h : ∀ i : Fin 256, P (UInt8.ofFin i)) (c : UInt8) : P c :=
  h c.toFin

/-- The bytes outside `ranges` are in a token, and neither a space nor a colon. -/
theorem of_not_tokenRanges (c : UInt8) :
    inRanges tokenRanges c = false → tokenCharMap c = true ∧ c ≠ sp ∧ c ≠ colon := by
  revert c
  exact forall_byte (by decide +kernel)

theorem of_not_pathRanges (c : UInt8) :
    inRanges pathRanges c = false → pathChar c = true ∧ c ≠ sp := by
  revert c
  exact forall_byte (by decide +kernel)

/-- The bytes in `ranges1` are those that end a line. -/
theorem inRanges_eolRanges (c : UInt8) : inRanges eolRanges c = eolStop c := by
  revert c
  exact forall_byte (by decide +kernel)

section Agree

variable {skip : Bytes → Option Skipped} {clean hit : UInt8 → Prop}

theorem parseTokenVia_eq (hskip : Skips skip clean hit) {nextChar : UInt8}
    (hclean : ∀ c, clean c → c ≠ nextChar ∧ tokenCharMap c = true) :
    parseTokenVia skip nextChar = parseToken nextChar := by
  funext buf
  obtain ⟨s, hs, rfl, htoken, -⟩ := hskip.spec buf
  have hall : ∀ c ∈ s.token, decide (c = nextChar) = false ∧ tokenCharMap c = true := fun c hc =>
    ⟨decide_eq_false (hclean c (htoken c hc)).1, (hclean c (htoken c hc)).2⟩
  simp only [parseTokenVia, hs]
  exact (takeUntil_append_eq hall s.rest).symm

theorem advanceTokenVia_eq (hskip : Skips skip clean hit)
    (hclean : ∀ c, clean c → c ≠ sp ∧ pathChar c = true) :
    advanceTokenVia skip = advanceToken := by
  funext buf
  obtain ⟨s, hs, rfl, htoken, -⟩ := hskip.spec buf
  have hall : ∀ c ∈ s.token, decide (c = sp) = false ∧ pathChar c = true := fun c hc =>
    ⟨decide_eq_false (hclean c (htoken c hc)).1, (hclean c (htoken c hc)).2⟩
  simp only [advanceTokenVia, hs]
  exact (takeUntil_append_eq hall s.rest).symm

theorem getTokenToEolVia_eq (hskip : Skips skip clean hit)
    (hclean : ∀ c, clean c → eolStop c = false)
    (hhit : ∀ c, hit c → eolStop c = true) : getTokenToEolVia skip = getTokenToEol := by
  funext buf
  obtain ⟨s, hs, rfl, htoken, hfound⟩ := hskip.spec buf
  have hall : ∀ c ∈ s.token, eolStop c = false ∧ true = true := fun c hc =>
    ⟨hclean c (htoken c hc), rfl⟩
  have hplain : getTokenToEol (s.token ++ s.rest) =
      (takeUntil PhrError.invalid eolStop (fun _ => true) s.rest).bind fun t rest =>
        (endOfLine rest).bind fun _ buf => .done (s.token ++ t) buf := by
    rw [getTokenToEol, takeUntil_append_eq hall, Scan.bind_assoc]
    rfl
  simp only [getTokenToEolVia, hs]
  rw [hplain]
  cases hf : s.found with
  | true =>
    -- what was found ends the scan at once
    obtain ⟨c, t, hrest, hc⟩ := hfound hf
    rw [hrest, takeUntil, if_pos (hhit c hc), Scan.bind_done, List.append_nil, if_pos rfl]
  | false =>
    simp only [Bool.false_eq_true, if_false, getTokenToEol, Scan.bind_assoc, Scan.bind_done]

end Agree

/-- The scans are those of `Pico`, where they are used. -/
structure Scans.Agree (S : Scans) : Prop where
  method : S.token sp = parseToken sp
  name : S.token colon = parseToken colon
  path : S.path = advanceToken
  toEol : S.toEol = getTokenToEol

theorem agree_sse : Scans.sse.Agree where
  method := parseTokenVia_eq (findcharFast_skips _) fun c hc =>
    ⟨(of_not_tokenRanges c hc).2.1, (of_not_tokenRanges c hc).1⟩
  name := parseTokenVia_eq (findcharFast_skips _) fun c hc =>
    ⟨(of_not_tokenRanges c hc).2.2, (of_not_tokenRanges c hc).1⟩
  path := advanceTokenVia_eq (findcharFast_skips _) fun c hc => (of_not_pathRanges c hc).symm
  toEol := getTokenToEolVia_eq (findcharFast_skips _)
    (fun c hc => by rwa [inRanges_eolRanges] at hc) (fun c hc => by rwa [inRanges_eolRanges] at hc)

theorem agree_portable : Scans.portable.Agree where
  method := parseTokenVia_eq (nothing_skips (fun _ => False) fun _ => False) fun _ hc => hc.elim
  name := parseTokenVia_eq (nothing_skips (fun _ => False) fun _ => False) fun _ hc => hc.elim
  path := advanceTokenVia_eq (nothing_skips (fun _ => False) fun _ => False) fun _ hc => hc.elim
  toEol := getTokenToEolVia_eq unrolledLoop_skips (fun _ hc => hc) fun _ hc => hc

/-! ## The parsers for a choice of the scans -/

section Parsers

variable (S : Scans)

/-- The name part of one header line. -/
def parseHeaderNameWith (slots n : ℕ) : Parser (Option Bytes)
  | [] => .incomplete
  | c :: buf =>
    if n ≠ 0 ∧ isBlank c then
      if slots ≤ n then .fail .overrun else .done none (c :: buf)
    else
      (S.token colon (c :: buf)).bind fun name buf =>
        if slots ≤ n then .fail .overrun
        else if name = [] then .fail .invalid
        else
          (Scanner.one .invalid (fun _ => true) buf).bind fun _ buf =>
            (skipWhile isBlank buf).bind fun _ buf => .done (some name) buf

/-- `parse_headers`. -/
def parseHeadersWith (slots maxHeaders : ℕ) : ℕ → List PhrHeader → Parser (List PhrHeader)
  | 0, _, _ => .incomplete
  | _ + 1, _, [] => .incomplete
  | fuel + 1, headers, c :: buf =>
    if c = cr then (expectChar lf buf).bind fun _ buf => .done headers buf
    else if c = lf then .done headers buf
    else if headers.length = maxHeaders then .fail .invalid
    else
      (parseHeaderNameWith S slots headers.length (c :: buf)).bind fun name buf =>
        (S.toEol buf).bind fun value buf =>
          parseHeadersWith slots maxHeaders fuel (headers ++ [⟨name, trimValue value⟩]) buf

/-- The request line of `parse_request`. -/
def parseRequestLineWith : Parser (Bytes × Bytes × Int) := fun buf =>
  (skipFirstLine buf).bind fun _ buf =>
    (S.token sp buf).bind fun method buf =>
      (skipSpaces buf).bind fun _ buf =>
        (S.path buf).bind fun path buf =>
          (skipSpaces buf).bind fun _ buf =>
            if method = [] ∨ path = [] then .fail .invalid
            else
              (parseHttpVersion buf).bind fun minorVersion buf =>
                (endOfLine buf).bind fun _ buf => .done (method, path, minorVersion) buf

/-- `phr_parse_request`. -/
def phrParseRequestWith (slots maxHeaders lastLen : ℕ) : Parser Parsed := fun buf =>
  let parse : Parser Parsed := fun buf =>
    (parseRequestLineWith S buf).bind fun line buf =>
      (parseHeadersWith S slots maxHeaders (buf.length + 1) [] buf).bind fun headers buf =>
        .done ⟨line.1, line.2.1, line.2.2, headers⟩ buf
  if lastLen ≠ 0 then (isComplete lastLen buf).bind fun _ _ => parse buf else parse buf

/-- The status line of `parse_response`. -/
def parseStatusLineWith : Parser (Int × Int × Bytes) := fun buf =>
  (parseHttpVersion buf).bind fun minorVersion buf =>
    (expectSpaces buf).bind fun _ buf =>
      if buf.length < 4 then .incomplete
      else
        (parseInt3 buf).bind fun status buf =>
          (S.toEol buf).bind fun msg buf =>
            match trimMsg msg with
            | none => .fail .invalid
            | some msg => .done (minorVersion, status, msg) buf

/-- `phr_parse_response`. -/
def phrParseResponseWith (slots maxHeaders lastLen : ℕ) : Parser ParsedResponse := fun buf =>
  let parse : Parser ParsedResponse := fun buf =>
    (parseStatusLineWith S buf).bind fun line buf =>
      (parseHeadersWith S slots maxHeaders (buf.length + 1) [] buf).bind fun headers buf =>
        .done ⟨line.1, line.2.1, line.2.2, headers⟩ buf
  if lastLen ≠ 0 then (isComplete lastLen buf).bind fun _ _ => parse buf else parse buf

end Parsers

section Same

variable {S : Scans}

theorem parseHeaderNameWith_eq (hS : S.Agree) (slots n : ℕ) :
    parseHeaderNameWith S slots n = parseHeaderName slots n := by
  funext buf
  cases buf with
  | nil => rfl
  | cons c buf => simp only [parseHeaderNameWith, parseHeaderName, hS.name]

theorem parseHeadersWith_eq (hS : S.Agree) (slots maxHeaders fuel : ℕ) (headers : List PhrHeader) :
    parseHeadersWith S slots maxHeaders fuel headers =
      parseHeaders slots maxHeaders fuel headers := by
  funext buf
  induction fuel generalizing headers buf with
  | zero => rfl
  | succ fuel ih =>
    cases buf with
    | nil => rfl
    | cons c buf =>
      simp only [parseHeadersWith, parseHeaders, parseHeaderNameWith_eq hS, hS.toEol, ih]

/-- **The scans make no difference to a request.** -/
theorem phrParseRequestWith_eq (hS : S.Agree) (slots maxHeaders lastLen : ℕ) :
    phrParseRequestWith S slots maxHeaders lastLen = phrParseRequest slots maxHeaders lastLen := by
  have hline : parseRequestLineWith S = parseRequestLine := by
    funext buf
    simp only [parseRequestLineWith, parseRequestLine, hS.method, hS.path]
  funext buf
  simp only [phrParseRequestWith, hline, parseHeadersWith_eq hS]
  rfl

/-- **The scans make no difference to a response.** -/
theorem phrParseResponseWith_eq (hS : S.Agree) (slots maxHeaders lastLen : ℕ) :
    phrParseResponseWith S slots maxHeaders lastLen =
      phrParseResponse slots maxHeaders lastLen := by
  have hline : parseStatusLineWith S = parseStatusLine := by
    funext buf
    unfold parseStatusLineWith parseStatusLine
    exact hS.toEol ▸ rfl
  funext buf
  simp only [phrParseResponseWith, hline, parseHeadersWith_eq hS]
  rfl

end Same

/-- **However the file is compiled**, the parsers give the same on every buffer, and no scan reads
behind its end. -/
theorem phrParse_scans (slots maxHeaders lastLen : ℕ) (buf : Bytes) :
    (phrParseRequestWith .sse slots maxHeaders lastLen buf =
        phrParseRequestWith .portable slots maxHeaders lastLen buf ∧
      phrParseRequestWith .portable slots maxHeaders lastLen buf =
        phrParseRequest slots maxHeaders lastLen buf) ∧
    (phrParseResponseWith .sse slots maxHeaders lastLen buf =
        phrParseResponseWith .portable slots maxHeaders lastLen buf ∧
      phrParseResponseWith .portable slots maxHeaders lastLen buf =
        phrParseResponse slots maxHeaders lastLen buf) ∧
    ∀ p : Bytes, (findcharFast tokenRanges p).isSome ∧ (findcharFast pathRanges p).isSome ∧
      (findcharFast eolRanges p).isSome ∧ (unrolledLoop (p.length + 1) p).isSome := by
  refine ⟨⟨?_, ?_⟩, ⟨?_, ?_⟩, fun p => ?_⟩
  · rw [phrParseRequestWith_eq agree_sse, phrParseRequestWith_eq agree_portable]
  · rw [phrParseRequestWith_eq agree_portable]
  · rw [phrParseResponseWith_eq agree_sse, phrParseResponseWith_eq agree_portable]
  · rw [phrParseResponseWith_eq agree_portable]
  · exact ⟨(findcharFast_skips _).isSome p, (findcharFast_skips _).isSome p,
      (findcharFast_skips _).isSome p, unrolledLoop_skips.isSome p⟩

end Pico
end BareHttp
