import BareHttp.Parser.Completeness

/-!
# What a request is

`RequestText` is the grammar of a header block: a request line, header lines and an empty line,
with the `Parsed` they stand for.  It is what `phr_parse_request` takes for one: an empty line may
come first, the parts of the request line may be several spaces apart, a line may end with a bare
line feed, and a line that begins with a blank continues the header in front of it.

`phrParseRequest_eq_done_iff` says that the grammar is exact.  Since the parser is a function, the
grammar is then unambiguous, and no header block is the beginning of another: no two readers of the
same bytes can disagree on where the request ends (`requestText_unique`).
-/

namespace BareHttp
namespace Pico

open Scanner

/-! ## The grammar -/

/-- The end of a line. -/
def LineEnd (e : Bytes) : Prop := e = [cr, lf] ∨ e = [lf]

/-- Bytes that may stand in a header value or behind a status code. -/
def InLine (raw : Bytes) : Prop := ∀ c ∈ raw, eolStop c = false

instance (raw : Bytes) : Decidable (InLine raw) := List.decidableBAll _ raw

/-- **A header line.**  The first line has a name. -/
inductive HeaderText : Bool → PhrHeader → Bytes → Prop
  | named {first : Bool} {name blanks raw e : Bytes} (hname : name ≠ [])
      (htoken : ∀ c ∈ name, tokenCharMap c = true) (hblanks : ∀ c ∈ blanks, isBlank c = true)
      (hhead : ∀ c t, raw = c :: t → isBlank c = false) (hraw : InLine raw) (he : LineEnd e) :
      HeaderText first ⟨some name, trimValue raw⟩ (name ++ colon :: (blanks ++ (raw ++ e)))
  | folded {c : UInt8} {raw e : Bytes} (hc : isBlank c = true) (hraw : InLine raw)
      (he : LineEnd e) : HeaderText false ⟨none, trimValue (c :: raw)⟩ (c :: raw ++ e)

/-- Header lines up to the empty one. -/
inductive HeadersText : Bool → List PhrHeader → Bytes → Prop
  | stop {first : Bool} {e : Bytes} (he : LineEnd e) : HeadersText first [] e
  | line {first : Bool} {h : PhrHeader} {hs : List PhrHeader} {l t : Bytes}
      (hl : HeaderText first h l) (ht : HeadersText false hs t) :
      HeadersText first (h :: hs) (l ++ t)

/-- `HTTP/1.` and a digit. -/
def VersionText (minorVersion : Int) (w : Bytes) : Prop :=
  ∃ v : UInt8, 48 ≤ v ∧ v ≤ 57 ∧ minorVersion = (v.toNat : Int) - 48 ∧
    w = [72, 84, 84, 80, 47, 49, 46, v]

/-- **A request.** -/
structure RequestText (p : Parsed) (w : Bytes) : Prop where
  method_ne : p.method ≠ []
  method_token : ∀ c ∈ p.method, tokenCharMap c = true
  path_ne : p.path ≠ []
  path_plain : ∀ c ∈ p.path, pathChar c = true ∧ c ≠ sp
  parts : ∃ lead version e text j k, (lead = [] ∨ LineEnd lead) ∧
    VersionText p.minorVersion version ∧ LineEnd e ∧ HeadersText true p.headers text ∧
    w = lead ++ (p.method ++ (List.replicate (j + 1) sp ++ (p.path ++
      (List.replicate (k + 1) sp ++ (version ++ (e ++ text))))))

/-! ## Lines -/

theorem endOfLine_eq_done_iff {buf rest : Bytes} :
    endOfLine buf = .done () rest ↔ ∃ e, buf = e ++ rest ∧ LineEnd e := by
  constructor
  · intro h
    cases buf with
    | nil => exact absurd h (by simp [endOfLine])
    | cons c buf =>
      simp only [endOfLine] at h
      split_ifs at h with hcr hlf
      · obtain ⟨d, b, hd, heq⟩ := Scan.bind_eq_done h
        obtain ⟨-, rfl⟩ := Scan.done.inj heq
        obtain ⟨rfl, hdlf⟩ := one_eq_done hd
        obtain rfl : d = lf := by simpa using hdlf
        exact ⟨[cr, lf], by rw [hcr]; rfl, .inl rfl⟩
      · obtain ⟨-, rfl⟩ := Scan.done.inj h
        exact ⟨[lf], by rw [hlf]; rfl, .inr rfl⟩
  · rintro ⟨e, rfl, rfl | rfl⟩
    · rfl
    · rfl

/-- A line end begins with a byte that ends a value. -/
theorem LineEnd.exists_cons {e : Bytes} (he : LineEnd e) :
    ∃ c t, e = c :: t ∧ eolStop c = true ∧ (c = cr ∨ c = lf) := by
  rcases he with rfl | rfl
  · exact ⟨cr, [lf], rfl, rfl, .inl rfl⟩
  · exact ⟨lf, [], rfl, rfl, .inr rfl⟩

theorem getTokenToEol_eq_done_iff {buf raw rest : Bytes} :
    getTokenToEol buf = .done raw rest ↔
      ∃ e, buf = raw ++ (e ++ rest) ∧ InLine raw ∧ LineEnd e := by
  constructor
  · intro h
    obtain ⟨tok, b, htok, h⟩ := Scan.bind_eq_done h
    obtain ⟨_, b', hend, h⟩ := Scan.bind_eq_done h
    obtain ⟨rfl, rfl⟩ := Scan.done.inj h
    obtain ⟨rfl, hraw, -⟩ := takeUntil_eq_done htok
    obtain ⟨e, rfl, he⟩ := endOfLine_eq_done_iff.mp hend
    exact ⟨e, rfl, fun c hc => (hraw c hc).1, he⟩
  · rintro ⟨e, rfl, hraw, he⟩
    have hend : endOfLine (e ++ rest) = .done () rest := endOfLine_eq_done_iff.mpr ⟨e, rfl, he⟩
    obtain ⟨c, t, rfl, hstop, -⟩ := he.exists_cons
    rw [List.cons_append] at hend ⊢
    rw [getTokenToEol, takeUntil_append (fun c hc => ⟨hraw c hc, rfl⟩) hstop, Scan.bind_done, hend,
      Scan.bind_done]

/-- A blank is no byte of a name. -/
theorem tokenCharMap_of_isBlank {c : UInt8} (h : isBlank c = true) : tokenCharMap c = false := by
  simp only [isBlank, Bool.or_eq_true, decide_eq_true_eq] at h
  rcases h with rfl | rfl <;> rfl

theorem eolStop_of_isBlank {c : UInt8} (h : isBlank c = true) : eolStop c = false := by
  simp only [isBlank, Bool.or_eq_true, decide_eq_true_eq] at h
  rcases h with rfl | rfl <;> rfl

theorem isBlank_of_lineEnd {c : UInt8} (h : c = cr ∨ c = lf) : isBlank c = false := by
  rcases h with rfl | rfl <;> rfl

/-- The byte behind the blanks is none, also where the value is empty. -/
theorem exists_head_of_value {raw e : Bytes}
    (hhead : ∀ c t, raw = c :: t → isBlank c = false) (he : LineEnd e) (rest : Bytes) :
    ∃ c t, raw ++ (e ++ rest) = c :: t ∧ isBlank c = false := by
  cases raw with
  | nil =>
    obtain ⟨c, t, rfl, -, hc⟩ := he.exists_cons
    exact ⟨c, t ++ rest, rfl, isBlank_of_lineEnd hc⟩
  | cons c t => exact ⟨c, t ++ (e ++ rest), rfl, hhead c t rfl⟩

/-! ## One header line -/

section HeaderLine

variable {slots n : ℕ}

/-- What is read as a header line is one. -/
theorem headerText_of_parse {c : UInt8} {buf b value rest : Bytes} {name : Option Bytes}
    (hname : parseHeaderName slots n (c :: buf) = .done name b)
    (hvalue : getTokenToEol b = .done value rest) :
    n < slots ∧ ∃ l, c :: buf = l ++ rest ∧
      HeaderText (decide (n = 0)) ⟨name, trimValue value⟩ l := by
  obtain ⟨e, rfl, hraw, he⟩ := getTokenToEol_eq_done_iff.mp hvalue
  simp only [parseHeaderName] at hname
  split_ifs at hname with hblank hslots hslots'
  · -- a continuation line, the blank of which is part of the value
    obtain ⟨rfl, heq⟩ := Scan.done.inj hname
    refine ⟨Nat.not_le.mp hslots, ?_⟩
    rw [decide_eq_false hblank.1, heq]
    cases value with
    | nil =>
      obtain ⟨d, t, rfl, hstop, -⟩ := he.exists_cons
      obtain ⟨rfl, -⟩ := List.cons.inj heq
      exact absurd hstop (by simp [eolStop_of_isBlank hblank.2])
    | cons d raw =>
      obtain ⟨rfl, -⟩ := List.cons.inj heq
      exact ⟨c :: raw ++ e, by simp, .folded hblank.2 (List.forall_mem_cons.mp hraw).2 he⟩
  · obtain ⟨tok, b', htok, h⟩ := Scan.bind_eq_done hname
    exact absurd h (by simp)
  · obtain ⟨tok, b', htok, h⟩ := Scan.bind_eq_done hname
    split_ifs at h with hnil
    obtain ⟨d, b₁, hone, h⟩ := Scan.bind_eq_done h
    obtain ⟨blanks, b₂, hskip, h⟩ := Scan.bind_eq_done h
    obtain ⟨rfl, rfl⟩ := Scan.done.inj h
    obtain ⟨heq, htoken, x, t, rfl, hx⟩ := takeUntil_eq_done htok
    obtain ⟨hcons, -⟩ := one_eq_done hone
    obtain ⟨rfl, rfl⟩ := List.cons.inj hcons
    obtain ⟨rfl, hblanks, y, t', hy, hyblank⟩ := takeUntil_eq_done hskip
    obtain rfl : x = colon := by simpa using hx
    refine ⟨Nat.not_le.mp hslots', tok ++ colon :: (blanks ++ (value ++ e)), ?_, ?_⟩
    · rw [heq]
      simp
    · refine .named hnil (fun c hc => (htoken c hc).2) (fun c hc => by simpa using (hblanks c hc).1)
        (fun c t hct => ?_) hraw he
      rw [hct, List.cons_append] at hy
      obtain ⟨rfl, -⟩ := List.cons.inj hy
      simpa using hyblank

/-- A header line does not begin like an empty one. -/
theorem HeaderText.exists_cons {first : Bool} {h : PhrHeader} {l : Bytes}
    (hl : HeaderText first h l) : ∃ c t, l = c :: t ∧ c ≠ cr ∧ c ≠ lf := by
  cases hl with
  | @named _ name _ _ _ hname htoken _ _ _ _ =>
    cases name with
    | nil => exact absurd rfl hname
    | cons c name =>
      obtain ⟨hcr, hlf⟩ := plain_of_tokenCharMap (htoken c List.mem_cons_self)
      exact ⟨c, _, rfl, hcr, hlf⟩
  | folded hc _ _ =>
    obtain ⟨hcr, hlf⟩ := plain_of_isBlank hc
    exact ⟨_, _, rfl, hcr, hlf⟩

/-- A header line is read as one. -/
theorem parse_of_headerText {h : PhrHeader} {l : Bytes} (hl : HeaderText (decide (n = 0)) h l)
    (hslots : n < slots) (rest : Bytes) :
    ∃ b value, parseHeaderName slots n (l ++ rest) = .done h.name b ∧
      getTokenToEol b = .done value rest ∧ h.value = trimValue value := by
  generalize hfirst : decide (n = 0) = first at hl
  cases hl with
  | @named _ name blanks raw e hname htoken hblanks hhead hraw he =>
    obtain ⟨c, name', rfl⟩ := List.exists_cons_of_ne_nil hname
    obtain ⟨y, t, hy, hyblank⟩ := exists_head_of_value hhead he rest
    have hsplit : c :: name' ++ colon :: (blanks ++ (raw ++ e)) ++ rest =
        c :: name' ++ colon :: (blanks ++ (raw ++ (e ++ rest))) := by simp
    have hfolded : ¬ (n ≠ 0 ∧ isBlank c = true) := by
      rintro ⟨-, hc⟩
      have htok := htoken c List.mem_cons_self
      rw [tokenCharMap_of_isBlank hc] at htok
      exact absurd htok (by simp)
    have hstop : ∀ d ∈ c :: name', decide (d = colon) = false ∧ tokenCharMap d = true := by
      intro d hd
      have htok := htoken d hd
      refine ⟨decide_eq_false ?_, htok⟩
      rintro rfl
      exact absurd htok (by decide)
    refine ⟨raw ++ (e ++ rest), raw, ?_, getTokenToEol_eq_done_iff.mpr ⟨e, rfl, hraw, he⟩, rfl⟩
    rw [hsplit, List.cons_append, parseHeaderName, if_neg hfolded, ← List.cons_append, parseToken,
      takeUntil_append hstop (by simp), Scan.bind_done, if_neg (Nat.not_le.mpr hslots),
      if_neg hname,
      one, if_pos rfl, Scan.bind_done, hy, skipWhile,
      takeUntil_append (fun d hd => ⟨by simp [hblanks d hd], rfl⟩) (by simp [hyblank]),
      Scan.bind_done]
  | @folded c raw e hc hraw he =>
    have hvalue : InLine (c :: raw) :=
      List.forall_mem_cons.mpr ⟨eolStop_of_isBlank hc, hraw⟩
    refine ⟨c :: raw ++ e ++ rest, c :: raw, ?_,
      getTokenToEol_eq_done_iff.mpr ⟨e, by simp, hvalue, he⟩, rfl⟩
    rw [List.cons_append, List.cons_append, parseHeaderName,
      if_pos ⟨of_decide_eq_false hfirst, hc⟩, if_neg (Nat.not_le.mpr hslots)]

end HeaderLine

/-! ## Header lines -/

section Headers

variable {slots maxHeaders : ℕ}

theorem headersText_of_parse {fuel : ℕ} {headers hs : List PhrHeader} {buf rest : Bytes}
    (hle : headers.length ≤ maxHeaders ∧ headers.length ≤ slots)
    (h : parseHeaders slots maxHeaders fuel headers buf = .done hs rest) :
    (hs.length ≤ maxHeaders ∧ hs.length ≤ slots) ∧ ∃ new text, hs = headers ++ new ∧
      buf = text ++ rest ∧ HeadersText (decide (headers.length = 0)) new text := by
  induction fuel generalizing headers buf with
  | zero => exact absurd h (by simp [parseHeaders])
  | succ fuel ih =>
    cases buf with
    | nil => exact absurd h (by simp [parseHeaders])
    | cons c buf =>
      simp only [parseHeaders] at h
      split_ifs at h with hcr hlf hmax
      · obtain ⟨d, b, hd, heq⟩ := Scan.bind_eq_done h
        obtain ⟨rfl, rfl⟩ := Scan.done.inj heq
        obtain ⟨rfl, hdlf⟩ := one_eq_done hd
        obtain rfl : d = lf := by simpa using hdlf
        exact ⟨hle, [], [cr, lf], by simp, by rw [hcr]; rfl, .stop (.inl rfl)⟩
      · obtain ⟨rfl, rfl⟩ := Scan.done.inj h
        exact ⟨hle, [], [lf], by simp, by rw [hlf]; rfl, .stop (.inr rfl)⟩
      · obtain ⟨name, b, hname, h⟩ := Scan.bind_eq_done h
        obtain ⟨value, b', hvalue, h⟩ := Scan.bind_eq_done h
        obtain ⟨hslots, l, hl, hline⟩ := headerText_of_parse hname hvalue
        obtain ⟨hle', new, text, rfl, rfl, htext⟩ := ih (by
          rw [List.length_append, List.length_singleton]
          omega) h
        rw [List.length_append, List.length_singleton, decide_eq_false (by omega)] at htext
        exact ⟨hle', ⟨name, trimValue value⟩ :: new, l ++ text, by simp, by rw [hl]; simp,
          .line hline htext⟩

theorem parse_of_headersText {fuel : ℕ} {headers new : List PhrHeader} {text : Bytes}
    (htext : HeadersText (decide (headers.length = 0)) new text)
    (hmax : (headers ++ new).length ≤ maxHeaders) (hslots : (headers ++ new).length ≤ slots)
    (hfuel : text.length ≤ fuel) (rest : Bytes) :
    parseHeaders slots maxHeaders fuel headers (text ++ rest) = .done (headers ++ new) rest := by
  generalize hfirst : decide (headers.length = 0) = first at htext
  induction htext generalizing headers fuel with
  | stop he =>
    rcases he with rfl | rfl
    · obtain ⟨fuel, rfl⟩ := Nat.exists_eq_add_of_lt hfuel
      rw [List.append_nil]
      rfl
    · obtain ⟨fuel, rfl⟩ := Nat.exists_eq_add_of_le hfuel
      rw [List.append_nil, Nat.add_comm]
      rfl
  | @line first h new l t hl ht ih =>
    have hlen : headers.length < maxHeaders ∧ headers.length < slots := by
      rw [List.length_append, List.length_cons] at hmax hslots
      omega
    subst hfirst
    obtain ⟨b, value, hname, hvalue, htrim⟩ := parse_of_headerText hl hlen.2 (t ++ rest)
    obtain ⟨c, l', rfl, hcr, hlf⟩ := hl.exists_cons
    obtain ⟨fuel, rfl⟩ : ∃ k, fuel = k + 1 := by
      rw [List.length_append, List.length_cons] at hfuel
      exact Nat.exists_eq_succ_of_ne_zero (by omega)
    have happend : headers ++ h :: new = (headers ++ [h]) ++ new := by simp
    rw [happend] at hmax hslots
    have hfuel' : t.length ≤ fuel := by
      rw [List.length_append, List.length_cons] at hfuel
      omega
    have hrest := ih hmax hslots hfuel' (decide_eq_false (by simp))
    rw [List.cons_append] at hname
    rw [List.append_assoc, List.cons_append, parseHeaders, if_neg hcr, if_neg hlf,
      if_neg (Nat.ne_of_lt hlen.1), hname, Scan.bind_done, hvalue, Scan.bind_done, ← htrim, happend]
    exact hrest

/-- **The header lines that are read.** -/
theorem parseHeaders_eq_done_iff {hs : List PhrHeader} {buf rest : Bytes} :
    parseHeaders slots maxHeaders (buf.length + 1) [] buf = .done hs rest ↔
      (hs.length ≤ maxHeaders ∧ hs.length ≤ slots) ∧
        ∃ text, buf = text ++ rest ∧ HeadersText true hs text := by
  constructor
  · intro h
    obtain ⟨hle, new, text, rfl, hbuf, htext⟩ := headersText_of_parse (by simp) h
    exact ⟨hle, text, hbuf, htext⟩
  · rintro ⟨⟨hmax, hslots⟩, text, rfl, htext⟩
    show _ = Scan.done ([] ++ hs) rest
    refine parse_of_headersText ?_ hmax hslots ?_ rest
    · exact htext
    · rw [List.length_append]
      omega

end Headers

/-! ## The request line -/

theorem skipFirstLine_of_lead {lead buf : Bytes} (hlead : lead = [] ∨ LineEnd lead)
    (hbuf : ∃ c t, buf = c :: t ∧ Plain c) : skipFirstLine (lead ++ buf) = .done () buf := by
  obtain ⟨c, t, rfl, hc⟩ := hbuf
  rcases hlead with rfl | rfl | rfl
  · rw [List.nil_append, skipFirstLine, if_neg hc.1, if_neg hc.2]
  · rfl
  · rfl

theorem lead_of_skipFirstLine {buf rest : Bytes} (h : skipFirstLine buf = .done () rest) :
    ∃ lead, buf = lead ++ rest ∧ (lead = [] ∨ LineEnd lead) := by
  cases buf with
  | nil => exact absurd h (by simp [skipFirstLine])
  | cons c buf =>
    simp only [skipFirstLine] at h
    split_ifs at h with hcr hlf
    · obtain ⟨d, b, hd, heq⟩ := Scan.bind_eq_done h
      obtain ⟨-, rfl⟩ := Scan.done.inj heq
      obtain ⟨rfl, hdlf⟩ := one_eq_done hd
      obtain rfl : d = lf := by simpa using hdlf
      exact ⟨[cr, lf], by rw [hcr]; rfl, .inr (.inl rfl)⟩
    · obtain ⟨-, rfl⟩ := Scan.done.inj h
      exact ⟨[lf], by rw [hlf]; rfl, .inr (.inr rfl)⟩
    · obtain ⟨-, rfl⟩ := Scan.done.inj h
      exact ⟨[], rfl, .inl rfl⟩

/-- A word of the request line ends with a space. -/
theorem takeUntil_word {ok : UInt8 → Bool} {tok buf : Bytes} {k : ℕ}
    (htok : ∀ c ∈ tok, c ≠ sp ∧ ok c = true) :
    takeUntil PhrError.invalid (fun c => c = sp) ok (tok ++ (List.replicate (k + 1) sp ++ buf)) =
      .done tok (List.replicate (k + 1) sp ++ buf) := by
  rw [List.replicate_succ, List.cons_append]
  exact takeUntil_append (fun c hc => ⟨decide_eq_false (htok c hc).1, (htok c hc).2⟩) (by simp)

/-- Spaces are skipped up to a byte that is none. -/
theorem skipSpaces_replicate {k : ℕ} {buf : Bytes} (hbuf : ∃ c t, buf = c :: t ∧ c ≠ sp) :
    skipSpaces (List.replicate (k + 1) sp ++ buf) = .done (List.replicate k sp) buf := by
  obtain ⟨c, t, rfl, hc⟩ := hbuf
  have hstop : ∀ d ∈ List.replicate k sp, (!decide (d = sp)) = false ∧ true = true := by
    intro d hd
    simp [List.eq_of_mem_replicate hd]
  rw [List.replicate_succ, List.cons_append, skipSpaces, one, if_pos rfl, Scan.bind_done, skipWhile,
    takeUntil_append hstop (by simp [hc])]

/-- What is skipped behind a token that ends with a space is spaces. -/
theorem replicate_of_skipSpaces {buf rest s : Bytes} {t : Bytes} (hbuf : buf = sp :: t)
    (h : skipSpaces buf = .done s rest) : ∃ k, buf = List.replicate (k + 1) sp ++ rest := by
  obtain ⟨d, b, hone, h⟩ := Scan.bind_eq_done h
  obtain ⟨rfl, -⟩ := one_eq_done hone
  obtain ⟨rfl, -⟩ := List.cons.inj hbuf
  obtain ⟨rfl, hs, -⟩ := takeUntil_eq_done h
  refine ⟨s.length, ?_⟩
  rw [List.replicate_succ, List.cons_append,
    ← List.eq_replicate_of_mem fun c hc => by simpa using (hs c hc).1]

theorem parseHttpVersion_eq_done_iff {buf rest : Bytes} {v : Int} (hrest : rest ≠ []) :
    parseHttpVersion buf = .done v rest ↔ ∃ w, buf = w ++ rest ∧ VersionText v w := by
  constructor
  · intro h
    unfold parseHttpVersion at h
    split_ifs at h
    obtain ⟨_, b, hb, h⟩ := Scan.bind_eq_done h
    obtain ⟨c, b', hc, h⟩ := Scan.bind_eq_done h
    obtain ⟨rfl, rfl⟩ := Scan.done.inj h
    obtain ⟨rfl, hdigit⟩ := one_eq_done hc
    obtain ⟨hle, hge⟩ := Bool.and_eq_true_iff.mp hdigit
    exact ⟨[72, 84, 84, 80, 47, 49, 46, c], by rw [expectBytes_eq_done hb]; rfl, c,
      of_decide_eq_true hle, of_decide_eq_true hge, rfl, rfl⟩
  · rintro ⟨w, rfl, c, hle, hge, rfl, rfl⟩
    have hlen : ¬ ([72, 84, 84, 80, 47, 49, 46, c] ++ rest).length < 9 := by
      have hpos := List.length_pos_iff.mpr hrest
      rw [List.length_append]
      simp only [List.length_cons, List.length_nil]
      omega
    rw [parseHttpVersion, if_neg hlen]
    simp [expectBytes, expectChar, one, parseInt, hle, hge]

theorem parseRequestLine_eq_done_iff {buf rest method path : Bytes} {v : Int} :
    parseRequestLine buf = .done (method, path, v) rest ↔
      (method ≠ [] ∧ ∀ c ∈ method, tokenCharMap c = true) ∧
      (path ≠ [] ∧ ∀ c ∈ path, pathChar c = true ∧ c ≠ sp) ∧
      ∃ lead version e j k, (lead = [] ∨ LineEnd lead) ∧ VersionText v version ∧ LineEnd e ∧
        buf = lead ++ (method ++ (List.replicate (j + 1) sp ++ (path ++
          (List.replicate (k + 1) sp ++ (version ++ (e ++ rest)))))) := by
  constructor
  · intro h
    obtain ⟨_, b₁, hfirst, h⟩ := Scan.bind_eq_done h
    obtain ⟨method', b₂, hmethod, h⟩ := Scan.bind_eq_done h
    obtain ⟨s₁, b₃, hskip₁, h⟩ := Scan.bind_eq_done h
    obtain ⟨path', b₄, hpath, h⟩ := Scan.bind_eq_done h
    obtain ⟨s₂, b₅, hskip₂, h⟩ := Scan.bind_eq_done h
    split_ifs at h with hne
    obtain ⟨v', b₆, hversion, h⟩ := Scan.bind_eq_done h
    obtain ⟨_, b₇, hend, h⟩ := Scan.bind_eq_done h
    obtain ⟨hline, rfl⟩ := Scan.done.inj h
    obtain ⟨rfl, rfl, rfl⟩ : method' = method ∧ path' = path ∧ v' = v := by simpa using hline
    obtain ⟨hmethod_ne, hpath_ne⟩ := not_or.mp hne
    obtain ⟨lead, rfl, hlead⟩ := lead_of_skipFirstLine hfirst
    obtain ⟨rfl, htoken, d₁, t₁, hd₁, hsp₁⟩ := takeUntil_eq_done hmethod
    obtain rfl : d₁ = sp := by simpa using hsp₁
    obtain ⟨j, rfl⟩ := replicate_of_skipSpaces hd₁ hskip₁
    obtain ⟨rfl, hplain, d₂, t₂, hd₂, hsp₂⟩ := takeUntil_eq_done hpath
    obtain rfl : d₂ = sp := by simpa using hsp₂
    obtain ⟨k, rfl⟩ := replicate_of_skipSpaces hd₂ hskip₂
    obtain ⟨e, rfl, he⟩ := endOfLine_eq_done_iff.mp hend
    have hrest : e ++ b₇ ≠ [] := by
      obtain ⟨c, t, rfl, -, -⟩ := he.exists_cons
      simp
    obtain ⟨version, rfl, hv⟩ := (parseHttpVersion_eq_done_iff hrest).mp hversion
    refine ⟨⟨hmethod_ne, fun c hc => (htoken c hc).2⟩, ⟨hpath_ne, fun c hc => ?_⟩, lead, version, e,
      j, k, hlead, hv, he, rfl⟩
    exact ⟨(hplain c hc).2, by simpa using (hplain c hc).1⟩
  · rintro ⟨⟨hmethod_ne, htoken⟩, ⟨hpath_ne, hplain⟩, lead, version, e, j, k, hlead, hv, he, rfl⟩
    have hrest : e ++ rest ≠ [] := by
      obtain ⟨c, t, rfl, -, -⟩ := he.exists_cons
      simp
    have hversion := (parseHttpVersion_eq_done_iff hrest).mpr ⟨version, rfl, hv⟩
    have hend : endOfLine (e ++ rest) = .done () rest := endOfLine_eq_done_iff.mpr ⟨e, rfl, he⟩
    have hword : ∀ c ∈ method, c ≠ sp ∧ tokenCharMap c = true := by
      intro c hc
      refine ⟨?_, htoken c hc⟩
      rintro rfl
      exact absurd (htoken sp hc) (by decide)
    have hfirst : ∃ c t, method ++ (List.replicate (j + 1) sp ++ (path ++
        (List.replicate (k + 1) sp ++ (version ++ (e ++ rest))))) = c :: t ∧ Plain c := by
      obtain ⟨m, method, rfl⟩ := List.exists_cons_of_ne_nil hmethod_ne
      exact ⟨m, _, rfl, plain_of_tokenCharMap (htoken m List.mem_cons_self)⟩
    have hpath : ∃ c t, path ++ (List.replicate (k + 1) sp ++ (version ++ (e ++ rest))) = c :: t ∧
        c ≠ sp := by
      obtain ⟨p, path, rfl⟩ := List.exists_cons_of_ne_nil hpath_ne
      exact ⟨p, _, rfl, (hplain p List.mem_cons_self).2⟩
    have hletter : ∃ c t, version ++ (e ++ rest) = c :: t ∧ c ≠ sp := by
      obtain ⟨c, -, -, -, rfl⟩ := hv
      exact ⟨72, _, rfl, by decide⟩
    rw [parseRequestLine, skipFirstLine_of_lead hlead hfirst, Scan.bind_done, parseToken,
      takeUntil_word hword, Scan.bind_done, skipSpaces_replicate hpath, Scan.bind_done,
      advanceToken, takeUntil_word fun c hc => (hplain c hc).symm, Scan.bind_done,
      skipSpaces_replicate hletter, Scan.bind_done, if_neg (not_or.mpr ⟨hmethod_ne, hpath_ne⟩),
      hversion, Scan.bind_done, hend, Scan.bind_done]

/-! ## The request -/

/-- **The requests that are read.** -/
theorem parseRequest_eq_done_iff {slots maxHeaders : ℕ} {buf rest : Bytes} {p : Parsed} :
    parseRequest slots maxHeaders buf = .done p rest ↔
      (p.headers.length ≤ maxHeaders ∧ p.headers.length ≤ slots) ∧
        ∃ w, buf = w ++ rest ∧ RequestText p w := by
  constructor
  · intro h
    obtain ⟨⟨method, path, v⟩, b, hline, h⟩ := Scan.bind_eq_done h
    obtain ⟨hs, b', hheaders, h⟩ := Scan.bind_eq_done h
    obtain ⟨rfl, rfl⟩ := Scan.done.inj h
    obtain ⟨hle, text, rfl, htext⟩ := parseHeaders_eq_done_iff.mp hheaders
    obtain ⟨⟨hmethod, htoken⟩, ⟨hpath, hplain⟩, lead, version, e, j, k, hlead, hv, he, rfl⟩ :=
      parseRequestLine_eq_done_iff.mp hline
    exact ⟨hle, _, by simp, hmethod, htoken, hpath, hplain, lead, version, e, text, j, k, hlead, hv,
      he, htext, rfl⟩
  · rintro ⟨hle, w, rfl, hw⟩
    obtain ⟨hmethod, htoken, hpath, hplain, lead, version, e, text, j, k, hlead, hv, he, htext,
      rfl⟩ := hw
    simp only [List.append_assoc]
    rw [parseRequest, parseRequestLine_eq_done_iff.mpr
        ⟨⟨hmethod, htoken⟩, ⟨hpath, hplain⟩, lead, version, e, j, k, hlead, hv, he, rfl⟩,
      Scan.bind_done,
      parseHeaders_eq_done_iff.mpr ⟨hle, text, rfl, htext⟩, Scan.bind_done]

/-- What is read with a `last_len` is read without one. -/
theorem parseRequest_of_phrParseRequest {slots maxHeaders lastLen : ℕ} {buf rest : Bytes}
    {p : Parsed} (h : phrParseRequest slots maxHeaders lastLen buf = .done p rest) :
    parseRequest slots maxHeaders buf = .done p rest := by
  unfold phrParseRequest at h
  split_ifs at h
  · obtain ⟨_, b, -, h⟩ := Scan.bind_eq_done h
    exact h
  · exact h

/-- **The grammar is exact.**  If what was there at the last call was not yet a whole request,
`phr_parse_request` finishes exactly on a request with no more headers than there is room for, with
its parts, and in front of what is behind it. -/
theorem phrParseRequest_eq_done_iff {slots maxHeaders lastLen : ℕ} {buf rest : Bytes} {p : Parsed}
    (hslots : maxHeaders ≤ slots) (hlast : lastLen + rest.length < buf.length) :
    phrParseRequest slots maxHeaders lastLen buf = .done p rest ↔
      p.headers.length ≤ maxHeaders ∧ ∃ w, buf = w ++ rest ∧ RequestText p w := by
  constructor
  · intro h
    obtain ⟨⟨hmax, -⟩, hw⟩ := parseRequest_eq_done_iff.mp (parseRequest_of_phrParseRequest h)
    exact ⟨hmax, hw⟩
  · rintro ⟨hmax, hw⟩
    exact phrParseRequest_whole
      (parseRequest_eq_done_iff.mpr ⟨⟨hmax, Nat.le_trans hmax hslots⟩, hw⟩) hlast

/-- A request with a header that is continued on a second line, and the first byte of a body. -/
theorem phrParseRequest_eq_done_folded :
    phrParseRequest 32 32 4 (ascii "GET /a HTTP/1.0\nA: b\r\n c\n\r\nx") =
      .done ⟨ascii "GET", ascii "/a", 0, [⟨some (ascii "A"), ascii "b"⟩, ⟨none, ascii " c"⟩]⟩
        (ascii "x") := by
  have hb : HeaderText true ⟨some (ascii "A"), trimValue (ascii "b")⟩
      (ascii "A" ++ colon :: (ascii " " ++ (ascii "b" ++ [cr, lf]))) :=
    .named (by decide) (List.all_eq_true.mp rfl) (List.forall_mem_singleton.mpr rfl)
      (fun c t h => by obtain ⟨rfl, -⟩ := List.cons.inj h; rfl) (by decide) (.inl rfl)
  have hc : HeaderText false ⟨none, trimValue (sp :: ascii "c")⟩ (sp :: ascii "c" ++ [lf]) :=
    .folded rfl (by decide) (.inr rfl)
  have htext := HeadersText.line hb (.line hc (.stop (.inl rfl)))
  refine (phrParseRequest_eq_done_iff (Nat.le_refl 32) (by decide)).mpr
    ⟨by decide, ascii "GET /a HTTP/1.0\nA: b\r\n c\n\r\n", by decide, ?_⟩
  exact ⟨by decide, List.all_eq_true.mp rfl, by decide, by decide +kernel, [], ascii "HTTP/1.0",
    [lf], _, 0, 0, .inl rfl, ⟨48, by decide, by decide, rfl, by decide⟩, .inr rfl, htext, by decide⟩

/-- **The grammar is unambiguous**, and no request is the beginning of another. -/
theorem requestText_unique {p p' : Parsed} {w w' r r' : Bytes} (h : RequestText p w)
    (h' : RequestText p' w') (heq : w ++ r = w' ++ r') : p = p' ∧ w = w' ∧ r = r' := by
  have hdone : parseRequest (p.headers.length + p'.headers.length)
      (p.headers.length + p'.headers.length) (w ++ r) = .done p r :=
    parseRequest_eq_done_iff.mpr ⟨⟨Nat.le_add_right _ _, Nat.le_add_right _ _⟩, w, rfl, h⟩
  have hdone' : parseRequest (p.headers.length + p'.headers.length)
      (p.headers.length + p'.headers.length) (w ++ r) = .done p' r' :=
    parseRequest_eq_done_iff.mpr ⟨⟨Nat.le_add_left _ _, Nat.le_add_left _ _⟩, w', heq, h'⟩
  obtain ⟨hp, hr⟩ := Scan.done.inj (hdone.symm.trans hdone')
  subst hr
  exact ⟨hp, List.append_cancel_right heq, rfl⟩

/-- A shortest request, which is none any more with a byte behind it. -/
theorem requestText_unique_shortest :
    RequestText ⟨ascii "A", ascii "/", 0, []⟩ (ascii "A / HTTP/1.0\n\n") ∧
      ¬ ∃ p, RequestText p (ascii "A / HTTP/1.0\n\nB") := by
  have hshort : RequestText ⟨ascii "A", ascii "/", 0, []⟩ (ascii "A / HTTP/1.0\n\n") :=
    ⟨by decide, List.all_eq_true.mp rfl, by decide, by decide +kernel, [], ascii "HTTP/1.0", [lf],
      [lf], 0, 0, .inl rfl, ⟨48, by decide, by decide, rfl, by decide⟩, .inr rfl, .stop (.inr rfl),
      by decide⟩
  refine ⟨hshort, ?_⟩
  rintro ⟨p, hlong⟩
  have heq : ascii "A / HTTP/1.0\n\nB" ++ [] = ascii "A / HTTP/1.0\n\n" ++ ascii "B" := by decide
  obtain ⟨-, hw, -⟩ := requestText_unique hlong hshort heq
  exact absurd hw (by decide)

end Pico
end BareHttp
