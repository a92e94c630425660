import BareHttp.Http.World

/-!
# Composing a response

The parts of `srclib/http.c` that produce response text: `status_text`,
`add_header`, `serialize_response` and `http_send_error`.
-/

namespace BareHttp

/-- `http_status_t`. -/
inductive HttpStatus where
  | ok
  | noContent
  | badRequest
  | forbidden
  | notFound
  | notAllowed
  | internalError
  | versionNotSupported
  deriving DecidableEq

/-- The numbers of `http_status_t`. -/
def HttpStatus.code : HttpStatus → ℕ
  | .ok => 200
  | .noContent => 204
  | .badRequest => 400
  | .forbidden => 403
  | .notFound => 404
  | .notAllowed => 405
  | .internalError => 500
  | .versionNotSupported => 505

/-- `status_text`. -/
def statusText : HttpStatus → Bytes
  | .ok => ascii "OK"
  | .badRequest => ascii "Bad Request"
  | .forbidden => ascii "Forbidden"
  | .notFound => ascii "Not Found"
  | .notAllowed => ascii "Method Not Allowed"
  | .noContent => ascii "No Content"
  | .internalError => ascii "Internal Error"
  | .versionNotSupported => ascii "Version Not Supported"

/-- `"%d"`. -/
def printInt (z : Int) : Bytes := ascii (toString z)

/-- `"\r\n"`. -/
def crlf : Bytes := [13, 10]

/-- `"HTTP/1.0 %d %s\r\n"`. -/
def statusLine (status : HttpStatus) : Bytes :=
  ascii "HTTP/1.0 " ++ printInt status.code ++ ascii " " ++ statusText status ++ crlf

/-- `http_response`, with the `n_headers` headers added so far. -/
structure HttpResponse where
  status : HttpStatus
  headers : List (Bytes × Bytes)
  deriving DecidableEq

/-- `add_header`; a full response is left as it is. -/
def addHeader (response : HttpResponse) (name value : Bytes) : HttpResponse :=
  if response.headers.length = maxHeaders then response
  else { response with headers := response.headers ++ [(name, value)] }

@[simp] theorem status_addHeader (response : HttpResponse) (name value : Bytes) :
    (addHeader response name value).status = response.status := by
  unfold addHeader
  split_ifs <;> rfl

/-- `"%s: %s\r\n"`. -/
def headerLine (h : Bytes × Bytes) : Bytes := h.1 ++ ascii ": " ++ h.2 ++ crlf

/-- The loop of `serialize_response`: after each `snprintf` the text so far has to be
shorter than the buffer. -/
def serializeHeaders (size : ℕ) : Bytes → List (Bytes × Bytes) → Option Bytes
  | text, [] =>
    let text := text ++ crlf
    if size ≤ text.length then none else some text
  | text, h :: hs =>
    let text := text ++ headerLine h
    if size ≤ text.length then none else serializeHeaders size text hs

/-- `serialize_response`: the text left in the buffer, or `none` for `-1`. -/
def serializeResponse (res : HttpResponse) (size : ℕ) : Option Bytes :=
  let text := statusLine res.status
  if size ≤ text.length then none else serializeHeaders size text res.headers

/-- The page `http_send_error` sends. -/
def errorBody (code : HttpStatus) : Bytes :=
  let title := printInt code.code ++ ascii " " ++ statusText code
  ascii "<html><head><title>" ++ title ++ ascii "</title></head><body><h1>" ++ title ++
    ascii "</h1></body></html>"

/-- The header block `http_send_error` sends before the page. -/
def errorHeaders (code : HttpStatus) : Bytes :=
  statusLine code ++ ascii "Content-Type: text/html\r\nContent-Length: " ++
    printInt (errorBody code).length ++ ascii "\r\nConnection: close\r\n\r\n"

/-- `http_send_error`.  Both texts fit their arrays of 256 and 512 bytes, so what
`snprintf` returns is the length of what it wrote. -/
def httpSendError (code : HttpStatus) (w : World) : Int × World :=
  let (ret, w) := tcpSend (errorHeaders code) w
  if ret < 0 then (-1, w) else (0, (tcpSend (errorBody code) w).2)

theorem length_ascii (s : String) : (ascii s).length = s.length := by
  rw [ascii, List.length_map, String.length_toList]

/-- A number with three digits or fewer. -/
theorem length_printInt_le {n : ℕ} (h : n < 1000) : (printInt n).length ≤ 3 := by
  have hprint : printInt n = ascii n.repr := rfl
  rw [hprint, length_ascii, Nat.length_repr_le_iff (by decide)]
  exact h

theorem length_statusText_le (code : HttpStatus) : (statusText code).length ≤ 21 := by
  cases code <;> simp only [statusText, length_ascii] <;> decide

theorem code_lt (code : HttpStatus) : code.code < 1000 := by
  cases code <;> decide

/-- `char body[512]` in `http_send_error` holds every page. -/
theorem length_errorBody_lt (code : HttpStatus) : (errorBody code).length < 512 := by
  have hcode := length_printInt_le (code_lt code)
  have htext := length_statusText_le code
  have hopen : "<html><head><title>".length = 19 := by decide
  have hmid : "</title></head><body><h1>".length = 25 := by decide
  have hclose : "</h1></body></html>".length = 19 := by decide
  have hspace : " ".length = 1 := by decide
  simp only [errorBody, List.length_append, length_ascii, hopen, hmid, hclose, hspace]
  omega

/-- `char headers[256]` in `http_send_error` holds every header block. -/
theorem length_errorHeaders_lt (code : HttpStatus) : (errorHeaders code).length < 256 := by
  have hcode := length_printInt_le (code_lt code)
  have htext := length_statusText_le code
  have hbody := length_printInt_le (Nat.lt_trans (length_errorBody_lt code) (by decide))
  have hversion : "HTTP/1.0 ".length = 9 := by decide
  have hspace : " ".length = 1 := by decide
  have htype : "Content-Type: text/html\r\nContent-Length: ".length = 41 := by decide
  have hclose : "\r\nConnection: close\r\n\r\n".length = 23 := by decide
  have hcrlf : crlf.length = 2 := rfl
  simp only [errorHeaders, statusLine, List.length_append, length_ascii, hversion, hspace, htype,
    hclose, hcrlf]
  omega

/-- The text only grows: a serialized response starts with what was there. -/
theorem prefix_of_serializeHeaders {size : ℕ} {text out : Bytes} {hs : List (Bytes × Bytes)}
    (h : serializeHeaders size text hs = some out) : text <+: out := by
  induction hs generalizing text with
  | nil =>
    simp only [serializeHeaders] at h
    split_ifs at h
    rw [← Option.some.inj h]
    exact List.prefix_append _ _
  | cons x hs ih =>
    simp only [serializeHeaders] at h
    split_ifs at h
    exact (List.prefix_append _ _).trans (ih h)

/-- A serialized response starts with its status line. -/
theorem statusLine_prefix_of_serializeResponse {res : HttpResponse} {size : ℕ} {out : Bytes}
    (h : serializeResponse res size = some out) : statusLine res.status <+: out := by
  simp only [serializeResponse] at h
  split_ifs at h
  exact prefix_of_serializeHeaders h

theorem statusLine_prefix_errorHeaders (code : HttpStatus) :
    statusLine code <+: errorHeaders code := by
  simp only [errorHeaders, List.append_assoc]
  exact List.prefix_append _ _

end BareHttp
