import BareHttp.Parser.Grammar

/-!
# The bundled response parser

The rest of `srclib/picohttpparser.c` but for the chunked bodies: `phr_parse_response`, which reads
a status line and header lines, and `phr_parse_headers`, which reads header lines alone.  A server
does not need them, but they are the readers this repository has for what its server writes.

`ResponseText` is the grammar of what they take for a response, and
`phrParseResponse_eq_done_iff` says that it is exact.
-/

namespace BareHttp
namespace Pico

open Scanner

/-! ## The functions -/

/-- `PARSE_INT_3`. -/
def parseInt3 : Parser Int := fun buf =>
  (parseInt buf).bind fun a buf =>
    (parseInt buf).bind fun b buf =>
      (parseInt buf).bind fun c buf => .done (100 * a + 10 * b + c) buf

/-- What `phr_parse_response` writes through its out-parameters. -/
structure ParsedResponse where
  minorVersion : Int
  status : Int
  msg : Bytes
  headers : List PhrHeader
  deriving DecidableEq

/-- The text behind the status code without the spaces in front of it, or garbage. -/
def trimMsg : Bytes → Option Bytes
  | [] => some []
  | c :: msg => if c = sp then some ((c :: msg).dropWhile fun c => c = sp) else none

/-- One space or more. -/
def expectSpaces : Parser Bytes := fun buf =>
  (expectChar sp buf).bind fun _ buf => skipWhile (fun c => c = sp) buf

/-- The status line of `parse_response`: minor version, status and message. -/
def parseStatusLine : Parser (Int × Int × Bytes) := fun buf =>
  (parseHttpVersion buf).bind fun minorVersion buf =>
    (expectSpaces buf).bind fun _ buf =>
      if buf.length < 4 then .incomplete
      else
        (parseInt3 buf).bind fun status buf =>
          (getTokenToEol buf).bind fun msg buf =>
            match trimMsg msg with
            | none => .fail .invalid
            | some msg => .done (minorVersion, status, msg) buf

/-- `parse_response`. -/
def parseResponse (slots maxHeaders : ℕ) : Parser ParsedResponse := fun buf =>
  (parseStatusLine buf).bind fun line buf =>
    (parseHeaders slots maxHeaders (buf.length + 1) [] buf).bind fun headers buf =>
      .done ⟨line.1, line.2.1, line.2.2, headers⟩ buf

/-- `phr_parse_response`. -/
def phrParseResponse (slots maxHeaders lastLen : ℕ) : Parser ParsedResponse := fun buf =>
  if lastLen ≠ 0 then
    (isComplete lastLen buf).bind fun _ _ => parseResponse slots maxHeaders buf
  else parseResponse slots maxHeaders buf

/-- `phr_parse_headers`. -/
def phrParseHeaders (slots maxHeaders lastLen : ℕ) : Parser (List PhrHeader) := fun buf =>
  if lastLen ≠ 0 then
    (isComplete lastLen buf).bind fun _ _ =>
      parseHeaders slots maxHeaders (buf.length + 1) [] buf
  else parseHeaders slots maxHeaders (buf.length + 1) [] buf

/-! ## The grammar -/

/-- Three digits. -/
def StatusText (status : Int) (w : Bytes) : Prop :=
  ∃ a b c : UInt8, (48 ≤ a ∧ a ≤ 57) ∧ (48 ≤ b ∧ b ≤ 57) ∧ (48 ≤ c ∧ c ≤ 57) ∧
    status = 100 * ((a.toNat : Int) - 48) + 10 * ((b.toNat : Int) - 48) + ((c.toNat : Int) - 48) ∧
    w = [a, b, c]

/-- **A response**, up to its body. -/
structure ResponseText (p : ParsedResponse) (w : Bytes) : Prop where
  parts : ∃ version status raw e text k, VersionText p.minorVersion version ∧
    StatusText p.status status ∧ InLine raw ∧ trimMsg raw = some p.msg ∧ LineEnd e ∧
    HeadersText true p.headers text ∧
    w = version ++ (List.replicate (k + 1) sp ++ (status ++ (raw ++ (e ++ text))))

/-! ## The status line -/

theorem parseInt_cons {c : UInt8} (hc : 48 ≤ c ∧ c ≤ 57) (buf : Bytes) :
    parseInt (c :: buf) = .done ((c.toNat : Int) - 48) buf := by
  simp [parseInt, one, hc.1, hc.2]

theorem parseInt_eq_done {buf rest : Bytes} {z : Int} (h : parseInt buf = .done z rest) :
    ∃ c : UInt8, buf = c :: rest ∧ (48 ≤ c ∧ c ≤ 57) ∧ z = (c.toNat : Int) - 48 := by
  obtain ⟨c, b, hc, h⟩ := Scan.bind_eq_done h
  obtain ⟨rfl, rfl⟩ := Scan.done.inj h
  obtain ⟨rfl, hdigit⟩ := one_eq_done hc
  obtain ⟨hle, hge⟩ := Bool.and_eq_true_iff.mp hdigit
  exact ⟨c, rfl, ⟨of_decide_eq_true hle, of_decide_eq_true hge⟩, rfl⟩

theorem parseInt3_eq_done_iff {buf rest : Bytes} {z : Int} :
    parseInt3 buf = .done z rest ↔ ∃ w, buf = w ++ rest ∧ StatusText z w := by
  constructor
  · intro h
    obtain ⟨x, b₁, hx, h⟩ := Scan.bind_eq_done h
    obtain ⟨y, b₂, hy, h⟩ := Scan.bind_eq_done h
    obtain ⟨z', b₃, hz, h⟩ := Scan.bind_eq_done h
    obtain ⟨rfl, rfl⟩ := Scan.done.inj h
    obtain ⟨a, rfl, ha, rfl⟩ := parseInt_eq_done hx
    obtain ⟨b, rfl, hb, rfl⟩ := parseInt_eq_done hy
    obtain ⟨c, rfl, hc, rfl⟩ := parseInt_eq_done hz
    exact ⟨[a, b, c], rfl, a, b, c, ha, hb, hc, rfl, rfl⟩
  · rintro ⟨w, rfl, a, b, c, ha, hb, hc, rfl, rfl⟩
    simp only [List.cons_append, List.nil_append, parseInt3, parseInt_cons ha, parseInt_cons hb,
      parseInt_cons hc, Scan.bind_done]

/-- Spaces are expected and skipped. -/
theorem expectSpaces_replicate {k : ℕ} {buf : Bytes} (hbuf : ∃ c t, buf = c :: t ∧ c ≠ sp) :
    expectSpaces (List.replicate (k + 1) sp ++ buf) = .done (List.replicate k sp) buf := by
  rw [← skipSpaces_replicate hbuf, List.replicate_succ]
  rfl

theorem replicate_of_expectSpaces {buf rest s : Bytes} (h : expectSpaces buf = .done s rest) :
    ∃ k, buf = List.replicate (k + 1) sp ++ rest := by
  obtain ⟨d, b, hone, hskip⟩ := Scan.bind_eq_done h
  obtain ⟨rfl, hd⟩ := one_eq_done hone
  obtain rfl : d = sp := by simpa using hd
  exact replicate_of_skipSpaces rfl hskip

/-- The status is behind its spaces. -/
theorem StatusText.exists_cons {z : Int} {w : Bytes} (h : StatusText z w) (buf : Bytes) :
    ∃ c t, w ++ buf = c :: t ∧ c ≠ sp := by
  obtain ⟨a, b, c, ha, -, -, -, rfl⟩ := h
  refine ⟨a, _, rfl, ?_⟩
  rintro rfl
  exact absurd ha.1 (by decide)

theorem parseStatusLine_eq_done_iff {buf rest msg : Bytes} {v z : Int} :
    parseStatusLine buf = .done (v, z, msg) rest ↔
      ∃ version status raw e k, VersionText v version ∧ StatusText z status ∧ InLine raw ∧
        trimMsg raw = some msg ∧ LineEnd e ∧
        buf = version ++ (List.replicate (k + 1) sp ++ (status ++ (raw ++ (e ++ rest)))) := by
  constructor
  · intro h
    obtain ⟨v', b₁, hversion, h⟩ := Scan.bind_eq_done h
    obtain ⟨s, b₂, hskip, h⟩ := Scan.bind_eq_done h
    split_ifs at h
    obtain ⟨z', b₃, hstatus, h⟩ := Scan.bind_eq_done h
    obtain ⟨raw, b₄, htoken, h⟩ := Scan.bind_eq_done h
    cases htrim : trimMsg raw with
    | none => exact absurd h (by simp [htrim])
    | some msg' =>
      simp only [htrim] at h
      obtain ⟨hline, rfl⟩ := Scan.done.inj h
      obtain ⟨rfl, rfl, rfl⟩ : v' = v ∧ z' = z ∧ msg' = msg := by simpa using hline
      obtain ⟨k, rfl⟩ := replicate_of_expectSpaces hskip
      obtain ⟨version, rfl, hv⟩ := (parseHttpVersion_eq_done_iff (by simp)).mp hversion
      obtain ⟨status, rfl, hs⟩ := parseInt3_eq_done_iff.mp hstatus
      obtain ⟨e, rfl, hraw, he⟩ := getTokenToEol_eq_done_iff.mp htoken
      exact ⟨version, status, raw, e, k, hv, hs, hraw, htrim, he, rfl⟩
  · rintro ⟨version, status, raw, e, k, hv, hs, hraw, htrim, he, rfl⟩
    have hspaces : List.replicate (k + 1) sp ++ (status ++ (raw ++ (e ++ rest))) ≠ [] := by simp
    have htoken : getTokenToEol (raw ++ (e ++ rest)) = .done raw rest :=
      getTokenToEol_eq_done_iff.mpr ⟨e, rfl, hraw, he⟩
    have hlen : ¬ (status ++ (raw ++ (e ++ rest))).length < 4 := by
      obtain ⟨a, b, c, -, -, -, -, rfl⟩ := hs
      obtain ⟨d, t, rfl, -, -⟩ := he.exists_cons
      simp only [List.length_append, List.length_cons]
      omega
    rw [parseStatusLine, (parseHttpVersion_eq_done_iff hspaces).mpr ⟨version, rfl, hv⟩,
      Scan.bind_done, expectSpaces_replicate (hs.exists_cons _), Scan.bind_done, if_neg hlen,
      parseInt3_eq_done_iff.mpr ⟨status, rfl, hs⟩, Scan.bind_done, htoken, Scan.bind_done, htrim]

/-! ## The response -/

theorem parseResponse_eq_done_iff {slots maxHeaders : ℕ} {buf rest : Bytes} {p : ParsedResponse} :
    parseResponse slots maxHeaders buf = .done p rest ↔
      (p.headers.length ≤ maxHeaders ∧ p.headers.length ≤ slots) ∧
        ∃ w, buf = w ++ rest ∧ ResponseText p w := by
  constructor
  · intro h
    obtain ⟨⟨v, z, msg⟩, b, hline, h⟩ := Scan.bind_eq_done h
    obtain ⟨hs, b', hheaders, h⟩ := Scan.bind_eq_done h
    obtain ⟨rfl, rfl⟩ := Scan.done.inj h
    obtain ⟨hle, text, rfl, htext⟩ := parseHeaders_eq_done_iff.mp hheaders
    obtain ⟨version, status, raw, e, k, hv, hs, hraw, htrim, he, rfl⟩ :=
      parseStatusLine_eq_done_iff.mp hline
    exact ⟨hle, _, by simp, ⟨version, status, raw, e, text, k, hv, hs, hraw, htrim, he, htext, rfl⟩⟩
  · rintro ⟨hle, w, rfl, ⟨version, status, raw, e, text, k, hv, hs, hraw, htrim, he, htext, rfl⟩⟩
    simp only [List.append_assoc]
    rw [parseResponse, parseStatusLine_eq_done_iff.mpr
        ⟨version, status, raw, e, k, hv, hs, hraw, htrim, he, rfl⟩,
      Scan.bind_done, parseHeaders_eq_done_iff.mpr ⟨hle, text, rfl, htext⟩, Scan.bind_done]

/-- The scan for the empty line is at a line end behind the status line. -/
theorem isCompleteLoop_statusLine {buf rest : Bytes} {line : Int × Int × Bytes}
    (h : parseStatusLine buf = .done line rest) : isCompleteLoop 0 buf = isCompleteLoop 1 rest := by
  obtain ⟨version, status, raw, e, k, hv, hs, hraw, -, he, rfl⟩ :=
    parseStatusLine_eq_done_iff.mp h
  have hplain : ∀ c ∈ version ++ (List.replicate (k + 1) sp ++ status), Plain c := by
    obtain ⟨v, hle, hge, -, rfl⟩ := hv
    obtain ⟨a, b, c, ha, hb, hc, -, rfl⟩ := hs
    have hdigit : ∀ {d : UInt8}, 48 ≤ d ∧ d ≤ 57 → Plain d := fun hd => by
      constructor <;> rintro rfl <;> exact absurd hd.1 (by decide)
    intro d hd
    simp only [List.mem_append, List.mem_cons, List.not_mem_nil, or_false, List.mem_replicate] at hd
    rcases hd with (rfl | rfl | rfl | rfl | rfl | rfl | rfl | rfl) | ⟨-, rfl⟩ | rfl | rfl | rfl
    all_goals first
      | exact hdigit ⟨hle, hge⟩
      | exact hdigit ha
      | exact hdigit hb
      | exact hdigit hc
      | exact ⟨by decide, by decide⟩
  have hne : version ++ (List.replicate (k + 1) sp ++ status) ≠ [] := by simp
  have hsplit : version ++ (List.replicate (k + 1) sp ++ (status ++ (raw ++ (e ++ rest)))) =
      version ++ (List.replicate (k + 1) sp ++ status) ++ (raw ++ (e ++ rest)) := by simp
  rw [hsplit, isCompleteLoop_plain hne hplain 0]
  exact isCompleteLoop_getTokenToEol (getTokenToEol_eq_done_iff.mpr ⟨e, rfl, hraw, he⟩) (.inl rfl)

theorem isCompleteLoop_of_parseResponse {slots maxHeaders : ℕ} {buf rest : Bytes}
    {p : ParsedResponse} (h : parseResponse slots maxHeaders buf = .done p rest) :
    isCompleteLoop 0 buf = .done () rest := by
  obtain ⟨line, b, hline, h⟩ := Scan.bind_eq_done h
  obtain ⟨hs, b', hheaders, h⟩ := Scan.bind_eq_done h
  obtain ⟨-, rfl⟩ := Scan.done.inj h
  rw [isCompleteLoop_statusLine hline]
  exact isCompleteLoop_parseHeaders hheaders

/-- The header loop with as much fuel as there are bytes. -/
theorem stable_parseHeaders_fuel (slots maxHeaders : ℕ) :
    Stable fun buf => parseHeaders slots maxHeaders (buf.length + 1) [] buf := by
  intro p x hne
  have hstable := stable_parseHeaders slots maxHeaders (p.length + 1) [] p x hne
  have hne' : parseHeaders slots maxHeaders (p.length + 1) [] (p ++ x) ≠ .incomplete := by
    rw [hstable]
    cases hp : parseHeaders slots maxHeaders (p.length + 1) [] p with
    | done hs rest => simp
    | fail e => simp
    | incomplete => exact absurd hp hne
  have hlen : (p ++ x).length + 1 = p.length + 1 + x.length := by
    rw [List.length_append]
    omega
  simp only [hlen]
  rw [parseHeaders_fuel hne', hstable]

theorem stable_parseStatusLine : Stable parseStatusLine := by
  have hmsg : ∀ v z msg, Stable (fun buf => match trimMsg msg with
      | none => .fail .invalid
      | some msg => .done (v, z, msg) buf : Parser (Int × Int × Bytes)) := by
    intro v z msg
    cases trimMsg msg with
    | none => exact Stable.const_fail _
    | some msg => exact Stable.pure _
  have hint : Stable parseInt3 := stable_parseInt.bind fun _ => stable_parseInt.bind fun _ =>
    stable_parseInt.bind fun _ => Stable.pure _
  refine stable_parseHttpVersion.bind fun v => Stable.bind ?_ fun _ => Stable.atLeast ?_ 4
  · exact (stable_expectChar sp).bind fun _ => stable_skipWhile _
  · exact hint.bind fun z => stable_getTokenToEol.bind fun msg => hmsg v z msg

/-- **A decided response survives more input.** -/
theorem stable_parseResponse (slots maxHeaders : ℕ) : Stable (parseResponse slots maxHeaders) := by
  refine stable_parseStatusLine.bind fun line => ?_
  exact (stable_parseHeaders_fuel slots maxHeaders).bind fun headers => Stable.pure _

/-- Where there is room for the headers. -/
theorem parseResponse_text_iff {slots maxHeaders : ℕ} {buf rest : Bytes} {p : ParsedResponse}
    (hslots : maxHeaders ≤ slots) :
    parseResponse slots maxHeaders buf = .done p rest ↔
      p.headers.length ≤ maxHeaders ∧ ∃ w, buf = w ++ rest ∧ ResponseText p w := by
  rw [parseResponse_eq_done_iff]
  exact and_congr_left fun _ => ⟨fun h => h.1, fun h => ⟨h, Nat.le_trans h hslots⟩⟩

/-- What was there at the last call does not matter, as long as it was not a whole response. -/
theorem phrParseResponse_eq_done {slots maxHeaders lastLen : ℕ} {buf rest : Bytes}
    {p : ParsedResponse} (hlast : lastLen + rest.length < buf.length) :
    phrParseResponse slots maxHeaders lastLen buf = .done p rest ↔
      parseResponse slots maxHeaders buf = .done p rest := by
  unfold phrParseResponse isComplete
  split_ifs
  · constructor
    · intro h
      obtain ⟨_, b, -, h⟩ := Scan.bind_eq_done h
      exact h
    · intro h
      rw [isCompleteLoop_drop_done (isCompleteLoop_of_parseResponse h) (by omega), Scan.bind_done]
      exact h
  · exact Iff.rfl

/-- **The grammar of responses is exact.** -/
theorem phrParseResponse_eq_done_iff {slots maxHeaders lastLen : ℕ} {buf rest : Bytes}
    {p : ParsedResponse} (hslots : maxHeaders ≤ slots)
    (hlast : lastLen + rest.length < buf.length) :
    phrParseResponse slots maxHeaders lastLen buf = .done p rest ↔
      p.headers.length ≤ maxHeaders ∧ ∃ w, buf = w ++ rest ∧ ResponseText p w :=
  (phrParseResponse_eq_done hlast).trans (parseResponse_text_iff hslots)

/-- A status line without a text, with two spaces in front of the status and a bare line feed. -/
theorem phrParseResponse_eq_done_bare :
    phrParseResponse 4 4 3 (ascii "HTTP/1.1  204\n\r\nx") =
      .done ⟨1, 204, [], []⟩ (ascii "x") := by
  have htext : ResponseText ⟨1, 204, [], []⟩ (ascii "HTTP/1.1  204\n\r\n") :=
    ⟨ascii "HTTP/1.1", ascii "204", [], [lf], [cr, lf], 1,
      ⟨49, by decide, by decide, by decide, by decide⟩,
      ⟨50, 48, 52, by decide, by decide, by decide, by decide, by decide⟩, by decide, rfl, .inr rfl,
      .stop (.inl rfl), by decide⟩
  exact (phrParseResponse_eq_done_iff (Nat.le_refl 4) (by decide)).mpr
    ⟨by decide, _, by decide, htext⟩

/-- On a proper prefix of a response every call wants more, whatever `last_len` says. -/
theorem phrParseResponse_cut {slots maxHeaders lastLen : ℕ} {q x : Bytes} {p : ParsedResponse}
    (h : parseResponse slots maxHeaders (q ++ x) = .done p []) (hx : x ≠ []) :
    phrParseResponse slots maxHeaders lastLen q = .incomplete := by
  have hparse : parseResponse slots maxHeaders q = .incomplete :=
    (stable_parseResponse slots maxHeaders).incomplete_of_append h hx
  have hloop : isCompleteLoop 0 q = .incomplete :=
    (stable_isCompleteLoop 0).incomplete_of_append (isCompleteLoop_of_parseResponse h) hx
  unfold phrParseResponse isComplete
  split_ifs
  · rw [isCompleteLoop_drop_incomplete hloop, Scan.bind_incomplete]
  · exact hparse

/-- **The grammar of header lines is exact** for `phr_parse_headers`, where there is a header.  An
empty line alone is read without a `last_len` only: the scan for the end begins with no line in
front of it. -/
theorem phrParseHeaders_eq_done_iff {slots maxHeaders lastLen : ℕ} {buf rest : Bytes}
    {hs : List PhrHeader} (hslots : maxHeaders ≤ slots)
    (hlast : lastLen + rest.length < buf.length) (hne : lastLen = 0 ∨ hs ≠ []) :
    phrParseHeaders slots maxHeaders lastLen buf = .done hs rest ↔
      hs.length ≤ maxHeaders ∧ ∃ text, buf = text ++ rest ∧ HeadersText true hs text := by
  have hiff : parseHeaders slots maxHeaders (buf.length + 1) [] buf = .done hs rest ↔
      hs.length ≤ maxHeaders ∧ ∃ text, buf = text ++ rest ∧ HeadersText true hs text := by
    rw [parseHeaders_eq_done_iff]
    exact and_congr_left fun _ =>
      ⟨fun h => h.1, fun h => ⟨h, Nat.le_trans h hslots⟩⟩
  rw [← hiff]
  unfold phrParseHeaders isComplete
  split_ifs with hlen
  · constructor
    · intro h
      obtain ⟨_, b, -, h⟩ := Scan.bind_eq_done h
      exact h
    · intro h
      -- the first line is not empty, so it does not matter how many line ends were counted
      have hloop : isCompleteLoop 0 buf = isCompleteLoop 1 buf := by
        obtain ⟨-, text, rfl, htext⟩ := hiff.mp h
        cases htext with
        | stop he => exact absurd rfl (hne.resolve_left hlen)
        | line hl ht =>
          obtain ⟨c, t, rfl, hcr, hlf⟩ := hl.exists_cons
          rw [List.append_assoc, List.cons_append, isCompleteLoop_other 0 _ hcr hlf,
            isCompleteLoop_other 1 _ hcr hlf]
      rw [isCompleteLoop_drop_done (hloop.trans (isCompleteLoop_parseHeaders h)) (by omega),
        Scan.bind_done]
      exact h
  · exact Iff.rfl

end Pico
end BareHttp
