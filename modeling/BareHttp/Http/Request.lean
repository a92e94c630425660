import BareHttp.Foundation.Buffer
import BareHttp.Foundation.CInt
import BareHttp.Parser.Completeness

/-!
# Requests

`http_request` of `includes/http.h` and the functions of `srclib/http.c` that fill
it in: `http_parse_request`, `http_get_content_length`, `http_add_body`.

`http_parse_request` passes the address of the four-byte field `num_headers` as a
`size_t *`.  What `phr_parse_request` reads there as the header limit is therefore
the eight bytes formed by the field and the four bytes of padding behind it, and
what it writes back clears that padding.  `headersPad` is the number in the
padding: zero after any parse and in memory from `calloc`, anything in a fresh
stack frame.
-/

namespace BareHttp

open Pico

/-- `MAX_BUFFR`. -/
def maxBuffr : ℕ := 8192

/-- `MAX_HEADERS`. -/
def maxHeaders : ℕ := 50

/-- `MAX_HEADER_VALUE_LEN`. -/
def maxHeaderValueLen : ℕ := 16

theorem maxBuffr_eq : maxBuffr = 8192 := rfl

/-- `body` and `body_size`.  The bytes are `none` when the pointer and the size
describe memory that is not inside the request buffer. -/
structure Body where
  size : Int
  bytes : Option Bytes
  deriving DecidableEq

/-- `http_request`.  The length fields are the lengths of the byte strings. -/
structure HttpRequest where
  method : Bytes
  url : Bytes
  version : Int
  headers : List PhrHeader
  headersPad : ℕ
  body : Body
  deriving DecidableEq

namespace HttpRequest

/-- An `http_request` in memory from `calloc`. -/
def zeroed : HttpRequest := ⟨[], [], 0, [], 0, ⟨0, some []⟩⟩

/-- What a failed parse leaves: `phr_parse_request` starts by clearing its
out-parameters, and no caller reads what a failed parse wrote after that. -/
def cleared (rq : HttpRequest) : HttpRequest :=
  { rq with method := [], url := [], version := -1, headers := [], headersPad := 0 }

/-- The result of a successful parse. -/
def filled (rq : HttpRequest) (p : Parsed) : HttpRequest :=
  { rq with
    method := p.method, url := p.path, version := p.minorVersion, headers := p.headers,
    headersPad := 0 }

@[simp] theorem headersPad_zeroed : zeroed.headersPad = 0 := rfl

@[simp] theorem headersPad_cleared (rq : HttpRequest) : rq.cleared.headersPad = 0 := rfl

@[simp] theorem headersPad_filled (rq : HttpRequest) (p : Parsed) :
    (rq.filled p).headersPad = 0 := rfl

end HttpRequest

/-- The return value of `http_parse_request`: a count, `-1`, `-2`; or no return
value at all, because a header was stored behind the array. -/
inductive ParseAnswer where
  | parsed (consumed : ℕ)
  | invalid
  | incomplete
  | overrun
  deriving DecidableEq

/-- The header limit `phr_parse_request` reads through the `size_t *`. -/
def HttpRequest.headerLimit (rq : HttpRequest) : ℕ := maxHeaders + 4294967296 * rq.headersPad

theorem HttpRequest.headerLimit_eq {rq : HttpRequest} (h : rq.headersPad = 0) :
    rq.headerLimit = maxHeaders := by
  simp [headerLimit, h]

theorem HttpRequest.le_headerLimit (rq : HttpRequest) : maxHeaders ≤ rq.headerLimit :=
  Nat.le_add_right _ _

/-- `http_parse_request` on the first `buff_len` bytes of the buffer. -/
def httpParseRequest (buff : Bytes) (request : HttpRequest) (lastLen : ℕ) :
    ParseAnswer × HttpRequest :=
  match phrParseRequest maxHeaders request.headerLimit lastLen buff with
  | .done p rest => (.parsed (buff.length - rest.length), request.filled p)
  | .fail .invalid => (.invalid, request.cleared)
  | .fail .overrun => (.overrun, request.cleared)
  | .incomplete => (.incomplete, request.cleared)

/-- `http_add_body`, for a body of `size` bytes at offset `off` of the buffer `m`. -/
def httpAddBody (request : HttpRequest) (m : ℕ → UInt8) (off : ℕ) (size : Int) : HttpRequest :=
  { request with
    body :=
      { size
        bytes := if 0 ≤ size ∧ off + size ≤ maxBuffr then some (Buffer.slice m off size.toNat)
          else none } }

/-- `isspace` in the C locale. -/
def isSpace (c : UInt8) : Bool := (9 ≤ c && c ≤ 13) || c = 32

/-- `isdigit`. -/
def isDigit (c : UInt8) : Bool := 48 ≤ c && c ≤ 57

/-- The number a run of decimal digits denotes. -/
def decimal (s : Bytes) : ℕ := s.foldl (fun n c => 10 * n + (c.toNat - 48)) 0

/-- `atoi`: blanks, a sign, digits up to the first other byte, reduced to an `int`.
The argument has at most fifteen bytes, so the `long` in between does not
saturate. -/
def atoi (s : Bytes) : Int :=
  match s.dropWhile isSpace with
  | 45 :: t => CInt.toInt32 (-(decimal (t.takeWhile isDigit)))
  | 43 :: t => CInt.toInt32 (decimal (t.takeWhile isDigit))
  | t => CInt.toInt32 (decimal (t.takeWhile isDigit))

/-- `http_get_content_length`: the first header with exactly this name, its value
cut to fifteen bytes. -/
def httpGetContentLength (request : HttpRequest) : Int :=
  match request.headers.find? fun h => h.name = some (ascii "Content-Length") with
  | some h => atoi (h.value.take (maxHeaderValueLen - 1))
  | none => 0

/-- The return value of `http_get_content_length` is an `int`. -/
theorem httpGetContentLength_mem (rq : HttpRequest) :
    -2147483648 ≤ httpGetContentLength rq ∧ httpGetContentLength rq < 2147483648 := by
  unfold httpGetContentLength
  split
  · unfold atoi
    split <;> exact ⟨CInt.le_toInt32 _, CInt.toInt32_lt _⟩
  · omega

/-! ## What a parse does, whatever the struct held before -/

/-- A parse clears the padding and leaves the body alone. -/
theorem httpParseRequest_frame {buff : Bytes} {rq rq' : HttpRequest} {lastLen : ℕ}
    {a : ParseAnswer} (h : httpParseRequest buff rq lastLen = (a, rq')) :
    rq'.headersPad = 0 ∧ rq'.body = rq.body := by
  unfold httpParseRequest at h
  split at h
  all_goals
    obtain ⟨-, rfl⟩ := Prod.mk.inj h
    exact ⟨rfl, rfl⟩

/-- With the padding clear the limit is the size of the array, and no header is
stored behind it. -/
theorem httpParseRequest_ne_overrun {buff : Bytes} {rq : HttpRequest} {lastLen : ℕ}
    (h : rq.headersPad = 0) : (httpParseRequest buff rq lastLen).1 ≠ .overrun := by
  unfold httpParseRequest
  rw [HttpRequest.headerLimit_eq h]
  split
  · simp
  · simp
  · rename_i heq
    exact absurd heq phrParseRequest_ne_overrun
  · simp

/-- A one-shot parse that accepts `h` as a whole. -/
theorem parseRequest_of_httpParseRequest {h : Bytes} {rq : HttpRequest}
    (hparse : httpParseRequest h .zeroed 0 = (.parsed h.length, rq)) :
    ∃ r, parseRequest maxHeaders maxHeaders h = .done r [] ∧ rq = HttpRequest.zeroed.filled r := by
  unfold httpParseRequest at hparse
  rw [HttpRequest.headerLimit_eq HttpRequest.headersPad_zeroed] at hparse
  split at hparse
  · rename_i r rest heq
    obtain ⟨hlen, hrq⟩ := Prod.mk.inj hparse
    have hlen' : h.length - rest.length = h.length := ParseAnswer.parsed.inj hlen
    have hparse' : parseRequest maxHeaders maxHeaders h = .done r rest := heq
    have hloop := isCompleteLoop_of_parseRequest hparse'
    have hpos : h ≠ [] := by
      rintro rfl
      exact absurd hloop (by simp [isCompleteLoop])
    have hrest : rest = [] := by
      have := List.length_pos_of_ne_nil hpos
      exact List.eq_nil_of_length_eq_zero (by omega)
    subst hrest
    exact ⟨r, hparse', hrq.symm⟩
  · exact absurd (congrArg Prod.fst hparse) (by simp)
  · exact absurd (congrArg Prod.fst hparse) (by simp)
  · exact absurd (congrArg Prod.fst hparse) (by simp)

/-- A count is positive, and not above the length of the buffer. -/
theorem httpParseRequest_mem {buff : Bytes} {rq rq' : HttpRequest} {lastLen size : ℕ}
    (h : httpParseRequest buff rq lastLen = (.parsed size, rq')) :
    1 ≤ size ∧ size ≤ buff.length := by
  unfold httpParseRequest at h
  split at h
  · next p rest heq =>
    have hparse : ∃ limit, parseRequest maxHeaders limit buff = .done p rest := by
      unfold phrParseRequest at heq
      split_ifs at heq
      · obtain ⟨-, -, -, hparse⟩ := Scan.bind_eq_done heq
        exact ⟨_, hparse⟩
      · exact ⟨_, heq⟩
    obtain ⟨limit, hparse⟩ := hparse
    have hlt := length_lt_of_isCompleteLoop (isCompleteLoop_of_parseRequest hparse)
    rw [← ParseAnswer.parsed.inj (Prod.mk.inj h).1]
    omega
  · exact absurd (Prod.mk.inj h).1 (by simp)
  · exact absurd (Prod.mk.inj h).1 (by simp)
  · exact absurd (Prod.mk.inj h).1 (by simp)

/-- A parse reads nothing of the struct but the padding behind `num_headers`. -/
theorem httpParseRequest_congr (buff : Bytes) {rq rq' : HttpRequest} (lastLen : ℕ)
    (h : rq.headersPad = rq'.headersPad) :
    (httpParseRequest buff rq lastLen).1 = (httpParseRequest buff rq' lastLen).1 ∧
      ∀ b, { (httpParseRequest buff rq lastLen).2 with body := b } =
        { (httpParseRequest buff rq' lastLen).2 with body := b } := by
  have hlim : rq.headerLimit = rq'.headerLimit := by
    unfold HttpRequest.headerLimit
    rw [h]
  unfold httpParseRequest
  rw [hlim]
  split
  · exact ⟨rfl, fun b => rfl⟩
  · exact ⟨rfl, fun b => rfl⟩
  · exact ⟨rfl, fun b => rfl⟩
  · exact ⟨rfl, fun b => rfl⟩

/-- Two parses of one buffer into structs with the same padding. -/
theorem httpParseRequest_alike (buff : Bytes) {rq rq' : HttpRequest} (lastLen : ℕ)
    (h : rq.headersPad = rq'.headersPad) :
    ∃ answer rq₁ rq₁', httpParseRequest buff rq lastLen = (answer, rq₁) ∧
      httpParseRequest buff rq' lastLen = (answer, rq₁') ∧
      (∀ b, { rq₁ with body := b } = { rq₁' with body := b }) ∧
      rq₁.headersPad = 0 ∧ rq₁'.headersPad = 0 := by
  obtain ⟨hanswer, hrequest⟩ := httpParseRequest_congr buff lastLen h
  refine ⟨(httpParseRequest buff rq lastLen).1, (httpParseRequest buff rq lastLen).2,
    (httpParseRequest buff rq' lastLen).2, rfl, ?_, hrequest, ?_, ?_⟩
  · rw [hanswer]
  · exact (httpParseRequest_frame rfl).1
  · exact (httpParseRequest_frame rfl).1

end BareHttp
