import BareHttp.Foundation.Lockstep
import BareHttp.Parser.Pico

/-!
# The parser and its out-parameters

`phr_parse_request` returns its results through pointers, and it also uses them as variables:
it counts the headers in `*num_headers`, and tests `*method_len`, `*path_len` and the name
length of a header after it has written them.  Where two of them overlap the order of the
accesses matters.  So here the functions of `srclib/picohttpparser.c` are given once more, over
any store that has the out-parameters as slots (`Store`), with every read and every write in
the order of the source.  What they do with the bytes between `buf` and `buf_end` is what the
scans of `Parser.Pico` do.

A pointer into the buffer is a number here: `buf_end` less the number of bytes left.
-/

namespace BareHttp
namespace Pico

/-- The out-parameters of `phr_parse_request`. -/
inductive Slot where
  | method
  | methodLen
  | path
  | pathLen
  | minorVersion
  | numHeaders
  | name (i : ℕ)
  | nameLen (i : ℕ)
  | value (i : ℕ)
  | valueLen (i : ℕ)
  deriving DecidableEq

/-- A place to keep them. -/
structure Store (σ : Type) where
  read : σ → Slot → ℕ
  write : σ → Slot → ℕ → σ

namespace Stored

/-- A function of the parser, run over a store. -/
abbrev Routine (σ α : Type) := Action σ PhrError UInt8 α

variable {σ : Type} (S : Store σ) (bufEnd : ℕ)

/-- `buf` as a pointer. -/
def pointer : Parser ℕ := fun buf => .done (bufEnd - buf.length) buf

/-- `CHECK_EOF`, and the byte `*buf`. -/
def peek : Parser UInt8
  | [] => .incomplete
  | c :: buf => .done c (c :: buf)

/-- `*ret = -1; return NULL`. -/
def invalid : Parser Unit := fun _ => .fail .invalid

/-- The value of an out-parameter. -/
def get (b : Slot) : Routine σ ℕ := Action.read fun s => S.read s b

/-- An assignment to an out-parameter. -/
def set (b : Slot) (x : ℕ) : Routine σ Unit := Action.modify fun s => S.write s b x

/-- A field of `headers[*num_headers]`. -/
def header (field : ℕ → Slot) : Routine σ Slot := Action.read fun s => field (S.read s .numHeaders)

/-- `parse_token` and `ADVANCE_TOKEN`: behind the scan `*token` and `*token_len` are set. -/
def storeToken (scan : Parser Bytes) (token tokenLen : Slot) : Routine σ Unit :=
  (Action.scan (pointer bufEnd)).bind fun start =>
    (Action.scan scan).bind fun tok =>
      (set S token start).bind fun _ => set S tokenLen tok.length

/-- The colon behind a header name and the blanks behind it. -/
def skipColon : Parser Bytes := fun buf =>
  (Scanner.one .invalid (fun _ => true) buf).bind fun _ buf => skipWhile isBlank buf

/-- The name part of a header line that begins with `c`. -/
def parseHeaderName (c : UInt8) : Routine σ Unit :=
  (get S .numHeaders).bind fun n =>
    if n ≠ 0 ∧ isBlank c then
      (header S .name).bind fun name =>
        (set S name 0).bind fun _ =>
          (header S .nameLen).bind fun nameLen => set S nameLen 0
    else
      (header S .name).bind fun name =>
        (header S .nameLen).bind fun nameLen =>
          (storeToken S bufEnd (parseToken colon) name nameLen).bind fun _ =>
            (header S .nameLen).bind fun nameLen =>
              (get S nameLen).bind fun len =>
                if len = 0 then Action.scan invalid
                else (Action.scan skipColon).bind fun _ => Action.scan fun buf => .done () buf

/-- The value part. -/
def parseHeaderValue : Routine σ Unit :=
  (Action.scan (pointer bufEnd)).bind fun start =>
    (Action.scan getTokenToEol).bind fun token =>
      (header S .value).bind fun value =>
        (set S value start).bind fun _ =>
          (header S .valueLen).bind fun valueLen => set S valueLen (trimValue token).length

/-- `++*num_headers`. -/
def countHeader : Routine σ Unit := (get S .numHeaders).bind fun n => set S .numHeaders (n + 1)

/-- `parse_headers`.  Each round reads one line, so `fuel` is the number of bytes left plus
one. -/
def parseHeaders (maxHeaders : ℕ) : ℕ → Routine σ Unit
  | 0 => Action.scan fun _ => .incomplete
  | fuel + 1 =>
    (Action.scan peek).bind fun c =>
      if c = cr ∨ c = lf then Action.scan endOfLine
      else
        (get S .numHeaders).bind fun n =>
          if n = maxHeaders then Action.scan invalid
          else
            (parseHeaderName S bufEnd c).bind fun _ =>
              (parseHeaderValue S bufEnd).bind fun _ =>
                (countHeader S).bind fun _ => parseHeaders maxHeaders fuel

/-- `parse_http_version`. -/
def parseHttpVersion : Routine σ Unit :=
  (Action.scan Pico.parseHttpVersion).bind fun version => set S .minorVersion version.toNat

/-- `parse_request`. -/
def parseRequest (maxHeaders : ℕ) : Routine σ Unit :=
  (Action.scan skipFirstLine).bind fun _ =>
    (storeToken S bufEnd (parseToken sp) .method .methodLen).bind fun _ =>
      (Action.scan skipSpaces).bind fun _ =>
        (storeToken S bufEnd advanceToken .path .pathLen).bind fun _ =>
          (Action.scan skipSpaces).bind fun _ =>
            (get S .methodLen).bind fun methodLen =>
              (get S .pathLen).bind fun pathLen =>
                if methodLen = 0 ∨ pathLen = 0 then Action.scan invalid
                else
                  (parseHttpVersion S).bind fun _ =>
                    (Action.scan endOfLine).bind fun _ buf =>
                      parseHeaders S bufEnd maxHeaders (buf.length + 1) buf

/-- The out-parameters are cleared.  The version is `-1`. -/
def clear : Routine σ Unit :=
  (set S .method 0).bind fun _ =>
    (set S .methodLen 0).bind fun _ =>
      (set S .path 0).bind fun _ =>
        (set S .pathLen 0).bind fun _ =>
          (set S .minorVersion 4294967295).bind fun _ => set S .numHeaders 0

/-- The test that is made where the request has been parsed before. -/
def checkComplete (lastLen : ℕ) : Parser Unit := fun buf =>
  if lastLen ≠ 0 then (isComplete lastLen buf).bind fun _ _ => .done () buf else .done () buf

/-- `phr_parse_request`, which takes the value of `*num_headers` for the limit. -/
def phrParseRequest (lastLen : ℕ) : Routine σ Unit :=
  (get S .numHeaders).bind fun maxHeaders =>
    (clear S).bind fun _ =>
      (Action.scan (checkComplete lastLen)).bind fun _ => parseRequest S bufEnd maxHeaders

/-- What it returns, for a buffer of `len` bytes. -/
def returnValue (len : ℕ) : Scan PhrError UInt8 Unit → Int
  | .done _ rest => len - rest.length
  | .fail _ => -1
  | .incomplete => -2

theorem exists_done_of_returnValue {len : ℕ} {x : Scan PhrError UInt8 Unit}
    (h : 0 ≤ returnValue len x) : ∃ rest, x = .done () rest := by
  cases x with
  | done a rest => exact ⟨rest, rfl⟩
  | fail e => exact absurd h (by simp [returnValue])
  | incomplete => exact absurd h (by simp [returnValue])

/-! ## What the scans leave -/

section Consumption

open Scanner

theorem consumes_pointer : Consumes (pointer bufEnd) := by
  intro buf a rest h
  obtain ⟨-, rfl⟩ := Scan.done.inj h
  exact List.suffix_rfl

theorem consumes_peek : Consumes peek := by
  intro buf a rest h
  cases buf with
  | nil => exact absurd h (by simp [peek])
  | cons c buf =>
    obtain ⟨-, rfl⟩ := Scan.done.inj h
    exact List.suffix_rfl

theorem consumes_invalid : Consumes invalid := fun _ _ _ h => absurd h (by simp [invalid])

theorem consumes_skipSpaces : Consumes skipSpaces :=
  (consumes_one _ _).bind fun _ => consumes_takeUntil _ _ _

theorem consumes_skipColon : Consumes skipColon :=
  (consumes_one _ _).bind fun _ => consumes_takeUntil _ _ _

/-- A line feed that must follow. -/
theorem consumes_expectLf : Consumes fun buf => (expectChar lf buf).bind fun _ buf =>
    (.done () buf : Scan PhrError UInt8 Unit) :=
  (consumes_one _ _).bind fun _ => .pure _

theorem consumes_endOfLine : Consumes endOfLine := by
  intro buf a rest h
  cases buf with
  | nil => exact absurd h (by simp [endOfLine])
  | cons c buf =>
    simp only [endOfLine] at h
    split_ifs at h
    · exact (consumes_expectLf buf a rest h).trans (List.suffix_cons c buf)
    · obtain ⟨-, rfl⟩ := Scan.done.inj h
      exact List.suffix_cons c buf

theorem consumes_skipFirstLine : Consumes skipFirstLine := by
  intro buf a rest h
  cases buf with
  | nil => exact absurd h (by simp [skipFirstLine])
  | cons c buf =>
    simp only [skipFirstLine] at h
    split_ifs at h
    · exact (consumes_expectLf buf a rest h).trans (List.suffix_cons c buf)
    · obtain ⟨-, rfl⟩ := Scan.done.inj h
      exact List.suffix_cons c buf
    · obtain ⟨-, rfl⟩ := Scan.done.inj h
      exact List.suffix_rfl

theorem consumes_getTokenToEol : Consumes getTokenToEol :=
  (consumes_takeUntil _ _ _).bind fun _ => consumes_endOfLine.bind fun _ => .pure _

theorem consumes_expectBytes (s : Bytes) : Consumes (expectBytes s) := by
  induction s with
  | nil => exact .pure ()
  | cons ch s ih => exact (consumes_one _ _).bind fun _ => ih

theorem consumes_parseHttpVersion : Consumes Pico.parseHttpVersion := by
  intro buf v rest h
  unfold Pico.parseHttpVersion at h
  split_ifs at h
  exact (consumes_expectBytes _).bind
    (fun _ => (consumes_one _ _).bind fun _ => Consumes.pure _) buf v rest h

theorem consumes_checkComplete (lastLen : ℕ) : Consumes (checkComplete lastLen) := by
  intro buf a rest h
  unfold checkComplete at h
  split_ifs at h
  · obtain ⟨-, -, -, h⟩ := Scan.bind_eq_done h
    obtain ⟨-, rfl⟩ := Scan.done.inj h
    exact List.suffix_rfl
  · obtain ⟨-, rfl⟩ := Scan.done.inj h
    exact List.suffix_rfl

end Consumption

end Stored
end Pico
end BareHttp
