import BareHttp.Http.Framing
import BareHttp.Http.Serialize
import BareHttp.Parser.Response

/-!
# What the server writes is read back

`serialize_response` and `http_send_error` write header blocks, `phr_parse_response` reads them.
The first result is the round trip between the two: a response that `add_header` builds from names
that are tokens and values without control bytes is read back with its status, its text and its
headers, however much of it the reader has seen before.

The second one is about the server.  Whatever the request and whatever the system calls give, if
the socket takes what it is given then the client gets nothing at all, or a header block that
`phr_parse_response` accepts and the body that belongs to it; and except for files the header
`Content-Length` is the length of that body (`httpProcessRequest_readable`).
-/

namespace BareHttp

open Pico

/-! ## Header values -/

/-- A header value that is read back: no control bytes, and no blanks at its ends. -/
def Clean (value : Bytes) : Prop :=
  InLine value ∧ value.head?.any isBlank = false ∧ trimValue value = value

instance (value : Bytes) : Decidable (Clean value) :=
  inferInstanceAs (Decidable (_ ∧ _ ∧ _))

/-- A header that is read back. -/
def HeaderOk (h : Bytes × Bytes) : Prop :=
  (h.1 ≠ [] ∧ ∀ c ∈ h.1, tokenCharMap c = true) ∧ Clean h.2

/-- The header as the parser stores it. -/
def asParsed (h : Bytes × Bytes) : PhrHeader := ⟨some h.1, h.2⟩

/-- Visible characters. -/
theorem clean_of_visible {value : Bytes} (h : ∀ c ∈ value, 33 ≤ c ∧ c ≤ 126) : Clean value := by
  have hblank : ∀ c ∈ value, isBlank c = false := by
    intro c hc
    obtain ⟨hle, -⟩ := h c hc
    simp only [isBlank, Bool.or_eq_false_iff, decide_eq_false_iff_not]
    constructor <;> rintro rfl <;> exact absurd hle (by decide)
  refine ⟨fun c hc => ?_, ?_, ?_⟩
  · obtain ⟨hle, hge⟩ := h c hc
    have hle' : (33 : ℕ) ≤ c.toNat := hle
    have hge' : c.toNat ≤ 126 := hge
    simp only [eolStop, Bool.or_eq_false_iff, Bool.and_eq_false_iff, decide_eq_false_iff_not]
    refine ⟨.inl fun hlt => ?_, ?_⟩
    · have hlt' : c.toNat < 32 := hlt
      omega
    · rintro rfl
      exact absurd hge' (by decide)
  · cases value with
    | nil => rfl
    | cons c t => exact hblank c List.mem_cons_self
  · have hrev : value.reverse.dropWhile isBlank = value.reverse := by
      rcases hr : value.reverse with _ | ⟨c, t⟩
      · rfl
      · have hmem : c ∈ value := List.mem_reverse.mp (hr ▸ List.mem_cons_self)
        rw [List.dropWhile_cons, if_neg (by simp [hblank c hmem])]
    rw [trimValue, hrev, List.reverse_reverse]

theorem clean_printInt (z : Int) : Clean (printInt z) := by
  have hdigits : ∀ n : ℕ, ∀ c ∈ ascii n.repr, 33 ≤ c ∧ c ≤ 126 := by
    intro n c hc
    obtain ⟨-, hall, -⟩ := digits_repr n
    have hdigit := List.all_eq_true.mp hall c hc
    simp only [isDigit, Bool.and_eq_true, decide_eq_true_eq] at hdigit
    have hle : (48 : ℕ) ≤ c.toNat := hdigit.1
    have hge : c.toNat ≤ 57 := hdigit.2
    exact ⟨show (33 : ℕ) ≤ c.toNat by omega, show c.toNat ≤ 126 by omega⟩
  refine clean_of_visible ?_
  cases z with
  | ofNat n => exact hdigits n
  | negSucc n =>
    have hprint : printInt (Int.negSucc n) = 45 :: ascii (n + 1).repr := by
      show ascii ("-" ++ (n + 1).repr) = _
      rw [ascii, String.toList_append, List.map_append]
      rfl
    rw [hprint]
    exact List.forall_mem_cons.mpr ⟨by decide, hdigits (n + 1)⟩

theorem clean_getMimeType (path : Bytes) : Clean (getMimeType path) := by
  unfold getMimeType
  split
  · decide
  · split_ifs <;> decide

/-! ## The round trip -/

theorem headerText_headerLine {first : Bool} {h : Bytes × Bytes} (hok : HeaderOk h) :
    HeaderText first (asParsed h) (headerLine h) := by
  obtain ⟨⟨hname, htoken⟩, hraw, hhead, htrim⟩ := hok
  have hline : headerLine h = h.1 ++ colon :: ([sp] ++ (h.2 ++ [cr, lf])) := by
    simp [headerLine, crlf, show ascii ": " = [colon, sp] from rfl]
  have htext : HeaderText first ⟨some h.1, trimValue h.2⟩ _ :=
    .named hname htoken (List.forall_mem_singleton.mpr (show isBlank sp = true from rfl))
      (fun c t heq => by simpa [heq] using hhead) hraw (.inl rfl)
  rw [htrim] at htext
  rw [hline]
  exact htext

theorem headersText_headerLines {first : Bool} {hs : List (Bytes × Bytes)}
    (hok : ∀ h ∈ hs, HeaderOk h) :
    HeadersText first (hs.map asParsed) ((hs.map headerLine).flatten ++ crlf) := by
  induction hs generalizing first with
  | nil => exact .stop (.inl rfl)
  | cons h hs ih =>
    obtain ⟨hh, hrest⟩ := List.forall_mem_cons.mp hok
    rw [List.map_cons, List.map_cons, List.flatten_cons, List.append_assoc]
    exact .line (headerText_headerLine hh) (ih hrest)

/-- What the parser gives for a response. -/
def HttpResponse.parsed (res : HttpResponse) : ParsedResponse :=
  ⟨0, res.status.code, statusText res.status, res.headers.map asParsed⟩

/-- The text of a response is one for the parser. -/
theorem responseText_fullText {res : HttpResponse} (hok : ∀ h ∈ res.headers, HeaderOk h) :
    ResponseText res.parsed (fullText res) := by
  obtain ⟨status, headers⟩ := res
  have hversion : VersionText 0 (ascii "HTTP/1.0") := ⟨48, by decide, by decide, rfl, rfl⟩
  have hcode : StatusText status.code (printInt status.code) := by
    cases status <;> exact ⟨_, _, _, by decide, by decide, by decide, by decide, rfl⟩
  have hraw : InLine (sp :: statusText status) ∧
      trimMsg (sp :: statusText status) = some (statusText status) := by
    cases status <;> decide +kernel
  refine ⟨ascii "HTTP/1.0", printInt status.code, sp :: statusText status, crlf,
    (headers.map headerLine).flatten ++ crlf, 0, hversion, hcode, hraw.1, hraw.2, .inl rfl,
    headersText_headerLines hok, ?_⟩
  simp [fullText, statusLine, show ascii "HTTP/1.0 " = ascii "HTTP/1.0" ++ [sp] from rfl,
    show ascii " " = [sp] from rfl]

/-- The text of a response and a body, read in one go or piece by piece. -/
theorem phrParseResponse_fullText {res : HttpResponse} (hok : ∀ h ∈ res.headers, HeaderOk h)
    (hmax : res.headers.length ≤ maxHeaders) (body : Bytes) {lastLen : ℕ}
    (hlast : lastLen < (fullText res).length) :
    phrParseResponse maxHeaders maxHeaders lastLen (fullText res ++ body) =
      .done res.parsed body := by
  have hwhole : lastLen + body.length < (fullText res ++ body).length := by
    rw [List.length_append]
    omega
  rw [phrParseResponse_eq_done hwhole, parseResponse_text_iff (Nat.le_refl _)]
  exact ⟨by simpa [HttpResponse.parsed] using hmax, _, rfl, responseText_fullText hok⟩

/-- **Writing and reading a response.** -/
theorem serializeResponse_readback (status : HttpStatus) {adds : List (Bytes × Bytes)}
    (hok : ∀ h ∈ adds, HeaderOk h) {size : ℕ} {text : Bytes}
    (h : serializeResponse (built status adds) size = some text) (body : Bytes) {lastLen : ℕ}
    (hlast : lastLen < text.length) :
    phrParseResponse maxHeaders maxHeaders lastLen (text ++ body) =
      .done ⟨0, status.code, statusText status, (adds.take maxHeaders).map asParsed⟩ body := by
  rw [serializeResponse_eq] at h
  split_ifs at h
  obtain rfl := Option.some.inj h
  rw [built_eq] at hlast ⊢
  refine phrParseResponse_fullText (fun h hh => hok h (List.mem_of_mem_take hh)) ?_ body hlast
  rw [List.length_take]
  exact Nat.min_le_left _ _

/-- A response with one header, of which a reader has seen ten bytes, and a body. -/
theorem serializeResponse_readback_one :
    phrParseResponse maxHeaders maxHeaders 10
        (ascii "HTTP/1.0 404 Not Found\r\nServer: b\r\n\r\n" ++ ascii "x") =
      .done ⟨0, 404, ascii "Not Found", [⟨some (ascii "Server"), ascii "b"⟩]⟩ (ascii "x") := by
  have hser : serializeResponse (built .notFound [(ascii "Server", ascii "b")]) 64 =
      some (ascii "HTTP/1.0 404 Not Found\r\nServer: b\r\n\r\n") := by decide +kernel
  have hok : ∀ h ∈ [(ascii "Server", ascii "b")], HeaderOk h := by
    simp only [List.forall_mem_cons, List.not_mem_nil, false_implies, implies_true, and_true]
    exact ⟨by decide +kernel, by decide +kernel⟩
  exact serializeResponse_readback .notFound hok hser (ascii "x") (by decide)

/-! ## The answers of the server -/

/-- The response that `http_send_error` writes out. -/
def errorResponse (code : HttpStatus) : HttpResponse :=
  ⟨code, [(ascii "Content-Type", ascii "text/html"),
    (ascii "Content-Length", printInt (errorBody code).length),
    (ascii "Connection", ascii "close")]⟩

theorem errorHeaders_eq (code : HttpStatus) :
    errorHeaders code = fullText (errorResponse code) := by
  have hopen : ascii "Content-Type: text/html\r\nContent-Length: " =
      headerLine (ascii "Content-Type", ascii "text/html") ++
        (ascii "Content-Length" ++ ascii ": ") := rfl
  have hclose : ascii "\r\nConnection: close\r\n\r\n" =
      crlf ++ (headerLine (ascii "Connection", ascii "close") ++ crlf) := rfl
  rw [errorHeaders, hopen, hclose]
  simp [fullText, errorResponse, headerLine]

/-- The response that `process_options` writes out. -/
def optionsResponse : HttpResponse :=
  ⟨.noContent, [(ascii "Allow", ascii "GET, POST, OPTIONS"), (ascii "Content-Length", ascii "0")]⟩

theorem optionsHeader_eq : optionsHeader = fullText optionsResponse := by
  simp [optionsHeader, fullText, optionsResponse]

/-- A response that is read back. -/
def HttpResponse.Readable (res : HttpResponse) : Prop :=
  (∀ h ∈ res.headers, HeaderOk h) ∧ res.headers.length ≤ maxHeaders

/-- The header that says how long the body is. -/
def lengthHeader (body : Bytes) : Bytes × Bytes := (ascii "Content-Length", printInt body.length)

/-- **What a client gets**: a header block that is read back, and a body.  The body of a file may
be of another length than the header says. -/
def Plan.Answers (env : Env) (p : Plan) (res : HttpResponse) (body : Bytes) : Prop :=
  res.Readable ∧ p.delivered env = fullText res ++ body ∧
    ((∀ header path, p ≠ .file header path) → lengthHeader body ∈ res.headers)

/-- A name of the source and a value that is read back. -/
theorem headerOk_of_clean {name value : Bytes}
    (hname : (!name.isEmpty && name.all tokenCharMap) = true) (hvalue : Clean value) :
    HeaderOk (name, value) := by
  obtain ⟨hne, htoken⟩ := Bool.and_eq_true_iff.mp hname
  exact ⟨⟨by simpa using hne, List.all_eq_true.mp htoken⟩, hvalue⟩

theorem clean_close : Clean (ascii "Close") := by
  decide +kernel

theorem readable_errorResponse (code : HttpStatus) : (errorResponse code).Readable := by
  refine ⟨?_, by simp [errorResponse, maxHeaders]⟩
  simp only [errorResponse, List.forall_mem_cons, List.not_mem_nil, false_implies, implies_true,
    and_true]
  have htype : Clean (ascii "text/html") := by decide +kernel
  have hclose : Clean (ascii "close") := by decide +kernel
  exact ⟨headerOk_of_clean rfl htype, headerOk_of_clean rfl (clean_printInt _),
    headerOk_of_clean rfl hclose⟩

theorem readable_optionsResponse : optionsResponse.Readable := by
  refine ⟨?_, by decide +kernel⟩
  simp only [optionsResponse, List.forall_mem_cons, List.not_mem_nil, false_implies, implies_true,
    and_true]
  have hallow : Clean (ascii "GET, POST, OPTIONS") := by decide +kernel
  have hzero : Clean (ascii "0") := by decide +kernel
  exact ⟨headerOk_of_clean rfl hallow, headerOk_of_clean rfl hzero⟩

section Answers

variable {sc : ServerConf} {date lastMod : Bytes}

theorem headers_scriptResponse (sc : ServerConf) (date : Bytes) (totalBytes : ℕ) :
    (scriptResponse sc date totalBytes).headers =
      [(ascii "Date", date), (ascii "Server", sc.serverSignature),
        (ascii "Content-Length", printInt totalBytes), (ascii "Content-Type", ascii "text/plain"),
        (ascii "Connection", ascii "Close")] := by
  simp [scriptResponse, addHeader, maxHeaders]

theorem headers_fileResponse (sc : ServerConf) (date lastMod : Bytes) (fileSize : Int)
    (mimeType : Bytes) :
    (fileResponse sc date lastMod fileSize mimeType).headers =
      [(ascii "Date", date), (ascii "Server", sc.serverSignature),
        (ascii "Last-Modified", lastMod), (ascii "Content-Length", printInt fileSize),
        (ascii "Content-Type", mimeType), (ascii "Connection", ascii "Close")] := by
  simp [fileResponse, addHeader, maxHeaders]

theorem readable_scriptResponse (hsig : Clean sc.serverSignature) (hdate : Clean date)
    (totalBytes : ℕ) : (scriptResponse sc date totalBytes).Readable := by
  unfold HttpResponse.Readable
  rw [headers_scriptResponse]
  refine ⟨?_, by simp [maxHeaders]⟩
  simp only [List.forall_mem_cons, List.not_mem_nil, false_implies, implies_true, and_true]
  have htype : Clean (ascii "text/plain") := by decide +kernel
  exact ⟨headerOk_of_clean rfl hdate, headerOk_of_clean rfl hsig,
    headerOk_of_clean rfl (clean_printInt _), headerOk_of_clean rfl htype,
    headerOk_of_clean rfl clean_close⟩

theorem readable_fileResponse (hsig : Clean sc.serverSignature) (hdate : Clean date)
    (hmod : Clean lastMod) (fileSize : Int) (path : Bytes) :
    (fileResponse sc date lastMod fileSize (getMimeType path)).Readable := by
  unfold HttpResponse.Readable
  rw [headers_fileResponse]
  refine ⟨?_, by simp [maxHeaders]⟩
  simp only [List.forall_mem_cons, List.not_mem_nil, false_implies, implies_true, and_true]
  exact ⟨headerOk_of_clean rfl hdate, headerOk_of_clean rfl hsig, headerOk_of_clean rfl hmod,
    headerOk_of_clean rfl (clean_printInt _), headerOk_of_clean rfl (clean_getMimeType path),
    headerOk_of_clean rfl clean_close⟩

/-- A page is an answer. -/
theorem answers_page {env : Env} (hsend : ∀ k, env.send k = .all) (status : HttpStatus)
    (ret : Option Int) :
    (Plan.page status ret).Answers env (errorResponse status) (errorBody status) := by
  refine ⟨readable_errorResponse status, ?_, fun _ => by simp [errorResponse, lengthHeader]⟩
  simp [Plan.delivered, pageBytes, hsend, SendResult.accepted, SendResult.failed, errorHeaders_eq]

theorem answers_options {env : Env} (hsend : ∀ k, env.send k = .all) :
    (Plan.options optionsHeader).Answers env optionsResponse [] := by
  refine ⟨readable_optionsResponse, ?_, fun _ => ?_⟩
  · simp [Plan.delivered, hsend, SendResult.accepted, optionsHeader_eq]
  · have hzero : lengthHeader [] = (ascii "Content-Length", ascii "0") := by decide
    rw [hzero]
    simp [optionsResponse]

theorem eq_fullText_of_serializeResponse {res : HttpResponse} {size : ℕ} {text : Bytes}
    (h : serializeResponse res size = some text) : text = fullText res := by
  rw [serializeResponse_eq] at h
  split_ifs at h
  exact (Option.some.inj h).symm

theorem answers_file {env : Env} (hsend : ∀ k, env.send k = .all) {res : HttpResponse}
    (hres : res.Readable) (path : Bytes) :
    (Plan.file (fullText res) path).Answers env res
      (fileBytes (env.openat2 1) (env.fstat 1) env.sendfile) := by
  refine ⟨hres, ?_, fun hfile => absurd rfl (hfile (fullText res) path)⟩
  simp [Plan.delivered, hsend, SendResult.accepted, SendResult.failed]

/-- The output of a script is an answer, or a page is. -/
theorem answers_outputPlan {env : Env} (hsend : ∀ k, env.send k = .all)
    (hsig : Clean sc.serverSignature) (out : Bytes) {d : Option Bytes}
    (hdate : ∀ date, d = some date → Clean date) :
    ∃ res body, (outputPlan sc out d).Answers env res body := by
  cases d with
  | none => exact ⟨_, _, answers_page hsend _ _⟩
  | some date =>
    simp only [outputPlan]
    cases hser : serializeResponse (scriptResponse sc date out.length) maxBuffr with
    | none => exact ⟨_, _, answers_page hsend _ _⟩
    | some header =>
      refine ⟨scriptResponse sc date out.length, out,
        readable_scriptResponse hsig (hdate date rfl) _, ?_, fun _ => ?_⟩
      · simp [Plan.delivered, hsend, SendResult.accepted, SendResult.failed,
          eq_fullText_of_serializeResponse hser]
      · simp [headers_scriptResponse, lengthHeader]

/-- A plan that gives the client something it can read, or nothing. -/
def Plan.Sound (env : Env) (p : Plan) : Prop :=
  (∃ ret, p = .silent ret) ∨ ∃ res body, p.Answers env res body

theorem sound_page {env : Env} (hsend : ∀ k, env.send k = .all) (status : HttpStatus)
    (ret : Option Int) : (Plan.page status ret).Sound env :=
  .inr ⟨_, _, answers_page hsend status ret⟩

theorem sound_scriptPlan {env : Env} (hsend : ∀ k, env.send k = .all)
    (hsig : Clean sc.serverSignature) (hdate : ∀ k date, env.strftime k = some date → Clean date) :
    (scriptPlan sc env).Sound env := by
  unfold scriptPlan
  split
  · exact sound_page hsend _ _
  · exact sound_page hsend _ _
  · exact sound_page hsend _ _
  · exact .inl ⟨_, rfl⟩
  · unfold runPlan
    split_ifs
    · exact .inl ⟨_, rfl⟩
    · split
      · exact .inl ⟨_, rfl⟩
      · exact .inr (answers_outputPlan hsend hsig _ (hdate 0))

theorem sound_filePlan {env : Env} (hsend : ∀ k, env.send k = .all)
    (hsig : Clean sc.serverSignature) (hdate : ∀ k date, env.strftime k = some date → Clean date)
    (path : Bytes) : (filePlan sc path env).Sound env := by
  unfold filePlan
  split
  · exact sound_page hsend _ _
  · exact sound_page hsend _ _
  · exact sound_page hsend _ _
  · exact .inl ⟨_, rfl⟩
  · split
    · exact .inl ⟨_, rfl⟩
    · split
      · next date lastMod hd hm =>
        simp only
        split
        · exact sound_page hsend _ _
        · next header hser =>
          rw [eq_fullText_of_serializeResponse hser]
          exact .inr ⟨_, _, answers_file hsend
            (readable_fileResponse hsig (hdate 0 date hd) (hdate 1 lastMod hm) _ path) path⟩
      · exact sound_page hsend _ _

/-- **Every plan is sound.** -/
theorem sound_plan {env : Env} (hsend : ∀ k, env.send k = .all) (hsig : Clean sc.serverSignature)
    (hdate : ∀ k date, env.strftime k = some date → Clean date) (request : HttpRequest) :
    (plan sc request env).Sound env := by
  unfold plan
  split
  · exact sound_page hsend _ _
  · exact .inr ⟨_, _, answers_options hsend⟩
  · by_cases htraversal : checkPathTraversal request.url = true
    · rw [if_pos htraversal]
      exact sound_page hsend _ _
    · rw [if_neg htraversal]
      cases buildPath (urlPath request.url) with
      | none => exact sound_page hsend _ _
      | some path =>
        simp only
        split_ifs
        · exact sound_scriptPlan hsend hsig hdate
        · exact sound_filePlan hsend hsig hdate _
        · exact .inl ⟨_, rfl⟩

end Answers

/-- **Every answer is readable.**  If the socket takes what it is given, the client gets nothing, or
a header block and a body.  On the header block `phr_parse_response` wants more as long as it is
not whole, and then gives a status of this server and its text; and unless the answer is a file,
the header `Content-Length` is the length of the body. -/
theorem httpProcessRequest_readable (sc : ServerConf) (request : HttpRequest) (w : World)
    (hsig : Clean sc.serverSignature)
    (hdate : ∀ k date, w.env.strftime k = some date → Clean date)
    (hsend : ∀ k, w.env.send k = .all) :
    (httpProcessRequest sc request w).2.sent = w.sent ∨
      ∃ header p body, (httpProcessRequest sc request w).2.sent = w.sent ++ (header ++ body) ∧
        (∀ lastLen < header.length,
          phrParseResponse maxHeaders maxHeaders lastLen (header ++ body) = .done p body) ∧
        (∀ lastLen, ∀ n < header.length,
          phrParseResponse maxHeaders maxHeaders lastLen (header.take n) = .incomplete) ∧
        (∃ status : HttpStatus, p.minorVersion = 0 ∧ p.status = status.code ∧
          p.msg = statusText status) ∧
        ((∀ header path, plan sc request w.env ≠ .file header path) →
          asParsed (lengthHeader body) ∈ p.headers) := by
  obtain ⟨-, hsent⟩ := httpProcessRequest_spec sc request w
  rcases sound_plan hsend hsig hdate request with ⟨ret, hsilent⟩ | ⟨res, body, hread, hdel, hlen⟩
  · rw [hsilent] at hsent
    exact .inl (by simpa [Plan.delivered] using hsent)
  · rw [hdel] at hsent
    obtain ⟨hok, hmax⟩ := hread
    refine .inr ⟨fullText res, res.parsed, body, hsent,
      fun lastLen hlast => phrParseResponse_fullText hok hmax body hlast, ?_,
      ⟨res.status, rfl, rfl, rfl⟩, fun hfile => ?_⟩
    · intro lastLen n hn
      have hwhole : parseResponse maxHeaders maxHeaders
          ((fullText res).take n ++ (fullText res).drop n) = .done res.parsed [] := by
        rw [List.take_append_drop]
        exact parseResponse_eq_done_iff.mpr ⟨⟨by simpa [HttpResponse.parsed] using hmax,
          by simpa [HttpResponse.parsed] using hmax⟩, _, by simp, responseText_fullText hok⟩
      refine phrParseResponse_cut hwhole fun hnil => ?_
      have := List.drop_eq_nil_iff.mp hnil
      omega
    · exact List.mem_map_of_mem (hlen hfile)

/-- The answer to a request for a small file. -/
theorem httpProcessRequest_readable_smallFile :
    ∃ header p body, (httpProcessRequest sampleConf getFile ⟨smallFile, []⟩).2.sent =
        header ++ body ∧
      ∀ lastLen < header.length,
        phrParseResponse maxHeaders maxHeaders lastLen (header ++ body) = .done p body := by
  have hdate : ∀ k date, smallFile.strftime k = some date → Clean date := by
    intro k date h
    obtain rfl : ascii "Thu, 01 Jan 1970 00:00:00 GMT" = date := Option.some.inj h
    decide
  have hne : (httpProcessRequest sampleConf getFile ⟨smallFile, []⟩).2.sent ≠ [] := by
    decide +kernel
  rcases httpProcessRequest_readable sampleConf getFile ⟨smallFile, []⟩ (by decide) hdate
    (fun _ => rfl) with hnone | ⟨header, p, body, hsent, hparse, -⟩
  · exact absurd hnone hne
  · exact ⟨header, p, body, hsent, hparse⟩

end BareHttp
