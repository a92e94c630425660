import BareHttp.Foundation.Scanner

/-!
# The bundled request parser

`srclib/picohttpparser.c`, the part reachable from `phr_parse_request`.  The C
functions move a pointer `buf` towards `buf_end`; here a function takes the bytes
between the two and returns the bytes it left.  `*ret = -2` is
`Scan.incomplete` and `*ret = -1` is `Scan.fail .invalid`.

Pointers into the buffer (`*method`, `*path`, `headers[i].name`) are modelled by
the bytes they denote: nobody writes below the fill level of a request buffer
between the parse and the use of its result.

The build compiles this file without `-msse4.2`, so `findchar_fast` returns its
argument with `found = 0`, and every scan below is the byte loop that follows it.
In `get_token_to_eol` the eight-fold unrolled loop performs the same test on each
byte as the loop after it, so the two are one scan.

The `headers` array has `slots` entries and the caller passes its idea of that
number, `max_headers`, separately.  The two agree only if the caller says so,
hence the second failure `overrun`: an entry behind the array was written.
-/

namespace BareHttp

/-- Byte strings. -/
abbrev Bytes := List UInt8

/-- The bytes of a C string literal. -/
def ascii (s : String) : Bytes := s.toList.map fun c => c.toNat.toUInt8

namespace Pico

abbrev cr : UInt8 := 13
abbrev lf : UInt8 := 10
abbrev sp : UInt8 := 32
abbrev ht : UInt8 := 9
abbrev colon : UInt8 := 58

@[simp] theorem lf_ne_cr : lf ≠ cr := by decide

@[simp] theorem cr_ne_lf : cr ≠ lf := by decide

/-- How a parse goes wrong for good: `*ret = -1`, or a write behind the header
array. -/
inductive PhrError where
  | invalid
  | overrun
  deriving DecidableEq

/-- A parser function over the bytes between `buf` and `buf_end`. -/
abbrev Parser (α : Type) := Scanner PhrError UInt8 α

/-- `struct phr_header`.  `name = none` is the `NULL` of a continuation line, with
`name_len = 0`. -/
structure PhrHeader where
  name : Option Bytes
  value : Bytes
  deriving DecidableEq

/-- `token_char_map`: the 77 bytes that may occur in a method or a header name. -/
def tokenCharMap (c : UInt8) : Bool :=
  c = 33 || (35 ≤ c && c ≤ 39) || c = 42 || c = 43 || c = 45 || c = 46 ||
    (48 ≤ c && c ≤ 57) || (65 ≤ c && c ≤ 90) || (94 ≤ c && c ≤ 122) || c = 124 || c = 126

/-- The bytes `ADVANCE_TOKEN` steps over: no control byte and no `DEL`. -/
def pathChar (c : UInt8) : Bool := !(c < 32 || c = 127)

/-- The bytes that end the scan of `get_token_to_eol`: the control bytes other
than HT, and `DEL`. -/
def eolStop (c : UInt8) : Bool := (c < 32 && c ≠ ht) || c = 127

/-- A space or a tab. -/
def isBlank (c : UInt8) : Bool := c = sp || c = ht

/-- `EXPECT_CHAR`. -/
def expectChar (ch : UInt8) : Parser UInt8 := Scanner.one .invalid fun c => c = ch

/-- `parse_token`: the token up to `next_char`, which stays unread. -/
def parseToken (nextChar : UInt8) : Parser Bytes :=
  Scanner.takeUntil .invalid (fun c => c = nextChar) tokenCharMap

/-- `ADVANCE_TOKEN`: the path up to the next space, which stays unread. -/
def advanceToken : Parser Bytes :=
  Scanner.takeUntil .invalid (fun c => c = sp) pathChar

/-- `for (;; ++buf) { CHECK_EOF(); ... break; }`: step over bytes that satisfy `p`. -/
def skipWhile (p : UInt8 → Bool) : Parser Bytes :=
  Scanner.takeUntil .invalid (fun c => !p c) fun _ => true

/-- `do { ++buf; CHECK_EOF(); } while (*buf == ' ')`: step over the separator the
scan stands on and the spaces after it. -/
def skipSpaces : Parser Bytes := fun buf =>
  (Scanner.one .invalid (fun _ => true) buf).bind fun _ buf => skipWhile (fun c => c = sp) buf

/-- `CR LF` or a bare `LF`; anything else is invalid. -/
def endOfLine : Parser Unit
  | [] => .incomplete
  | c :: buf =>
    if c = cr then (expectChar lf buf).bind fun _ buf => .done () buf
    else if c = lf then .done () buf
    else .fail .invalid

/-- `get_token_to_eol`: the bytes up to the end of the line, which is consumed. -/
def getTokenToEol : Parser Bytes := fun buf =>
  (Scanner.takeUntil .invalid eolStop (fun _ => true) buf).bind fun token buf =>
    (endOfLine buf).bind fun _ buf => .done token buf

/-- The loop of `is_complete`: two line ends in a row, `ret_cnt` of them seen. -/
def isCompleteLoop : ℕ → Parser Unit
  | _, [] => .incomplete
  | retCnt, c :: buf =>
    if c = cr then
      match buf with
      | [] => .incomplete
      | d :: buf =>
        if d = lf then
          if retCnt + 1 = 2 then .done () buf else isCompleteLoop (retCnt + 1) buf
        else .fail .invalid
    else if c = lf then
      if retCnt + 1 = 2 then .done () buf else isCompleteLoop (retCnt + 1) buf
    else isCompleteLoop 0 buf

/-- `is_complete`: the scan starts three bytes before `last_len`. -/
def isComplete (lastLen : ℕ) (buf : Bytes) : Scan PhrError UInt8 Unit :=
  isCompleteLoop 0 (buf.drop (lastLen - 3))

/-- `PARSE_INT(valp_, 1)`: one decimal digit. -/
def parseInt : Parser Int := fun buf =>
  (Scanner.one .invalid (fun c => 48 ≤ c && c ≤ 57) buf).bind fun c buf =>
    .done ((c.toNat : Int) - 48) buf

/-- `EXPECT_CHAR_NO_CHECK` for each byte of `s`. -/
def expectBytes : Bytes → Parser Unit
  | [], buf => .done () buf
  | ch :: s, buf => (expectChar ch buf).bind fun _ buf => expectBytes s buf

/-- `parse_http_version`: nothing is tested before nine bytes are there. -/
def parseHttpVersion : Parser Int := fun buf =>
  if buf.length < 9 then .incomplete
  else (expectBytes [72, 84, 84, 80, 47, 49, 46] buf).bind fun _ buf => parseInt buf

/-- The loop that removes trailing spaces and tabs from a header value. -/
def trimValue (value : Bytes) : Bytes := (value.reverse.dropWhile isBlank).reverse

/-- The name part of one header line, with the write to `headers[n].name`: a
continuation line has no name, any other line a token followed by a colon and
blanks. -/
def parseHeaderName (slots n : ℕ) : Parser (Option Bytes)
  | [] => .incomplete
  | c :: buf =>
    if n ≠ 0 ∧ isBlank c then
      if slots ≤ n then .fail .overrun else .done none (c :: buf)
    else
      (parseToken colon (c :: buf)).bind fun name buf =>
        if slots ≤ n then .fail .overrun
        else if name = [] then .fail .invalid
        else
          (Scanner.one .invalid (fun _ => true) buf).bind fun _ buf =>
            (skipWhile isBlank buf).bind fun _ buf => .done (some name) buf

/-- `parse_headers`.  Each round reads one line, so `fuel` is the number of bytes
left plus one. -/
def parseHeaders (slots maxHeaders : ℕ) : ℕ → List PhrHeader → Parser (List PhrHeader)
  | 0, _, _ => .incomplete
  | _ + 1, _, [] => .incomplete
  | fuel + 1, headers, c :: buf =>
    if c = cr then (expectChar lf buf).bind fun _ buf => .done headers buf
    else if c = lf then .done headers buf
    else if headers.length = maxHeaders then .fail .invalid
    else
      (parseHeaderName slots headers.length (c :: buf)).bind fun name buf =>
        (getTokenToEol buf).bind fun value buf =>
          parseHeaders slots maxHeaders fuel (headers ++ [⟨name, trimValue value⟩]) buf

/-- What `phr_parse_request` writes through its out-parameters. -/
structure Parsed where
  method : Bytes
  path : Bytes
  minorVersion : Int
  headers : List PhrHeader
  deriving DecidableEq

/-- The empty line some clients send before a request. -/
def skipFirstLine : Parser Unit
  | [] => .incomplete
  | c :: buf =>
    if c = cr then (expectChar lf buf).bind fun _ buf => .done () buf
    else if c = lf then .done () buf
    else .done () (c :: buf)

/-- The request line of `parse_request`: method, path and minor version. -/
def parseRequestLine : Parser (Bytes × Bytes × Int) := fun buf =>
  (skipFirstLine buf).bind fun _ buf =>
    (parseToken sp buf).bind fun method buf =>
      (skipSpaces buf).bind fun _ buf =>
        (advanceToken buf).bind fun path buf =>
          (skipSpaces buf).bind fun _ buf =>
            if method = [] ∨ path = [] then .fail .invalid
            else
              (parseHttpVersion buf).bind fun minorVersion buf =>
                (endOfLine buf).bind fun _ buf => .done (method, path, minorVersion) buf

/-- `parse_request`. -/
def parseRequest (slots maxHeaders : ℕ) : Parser Parsed := fun buf =>
  (parseRequestLine buf).bind fun line buf =>
    (parseHeaders slots maxHeaders (buf.length + 1) [] buf).bind fun headers buf =>
      .done ⟨line.1, line.2.1, line.2.2, headers⟩ buf

/-- `phr_parse_request`.  The C function returns the number of bytes consumed; here
that is the length of the buffer minus the length of the rest. -/
def phrParseRequest (slots maxHeaders lastLen : ℕ) : Parser Parsed := fun buf =>
  if lastLen ≠ 0 then
    (isComplete lastLen buf).bind fun _ _ => parseRequest slots maxHeaders buf
  else parseRequest slots maxHeaders buf

end Pico
end BareHttp
