import BareHttp.Foundation.BoundedText
import BareHttp.Http.PathString

/-!
# The header block in memory

`serialize_response` prints the status line, the headers and an empty line, each by a call of
`snprintf` behind what is there.  The length so far is an `int`, the size of the buffer is a
`size_t`, and what `snprintf` returns is the length the text would have had; it is added before it
is compared.  That this is safe rests on the order of the two: the next call is only made if the
text so far fits, so that `size - len` does not wrap.

`serializeResponse_exact` says what comes of it for every size of the buffer: nothing is written
behind it, the call fails exactly if the whole text with its terminator does not fit, and otherwise
the buffer holds that text.
-/

namespace BareHttp

open CInt

/-! ## The functions -/

/-- `add_header`, with its return value. -/
def addHeaderIn (response : HttpResponse) (name value : Bytes) : Int × HttpResponse :=
  (if response.headers.length = maxHeaders then -1 else 0, addHeader response name value)

/-- `snprintf(mem + off, n, ...)` for a format that gives `text`: the memory and the return value,
which is negative if the length is not an `int`. -/
def snprintf (mem : ℕ → UInt8) (off n : ℕ) (text : Bytes) : (ℕ → UInt8) × Int :=
  (BoundedText.print 0 mem off n text, if text.length < 2147483648 then text.length else -1)

/-- What `serialize_response` has printed: the buffer and `len`. -/
structure Printed where
  mem : ℕ → UInt8
  len : Int

/-- `len += snprintf(buffer + len, size - len, ...)`.  The difference is one of `size_t`, the sum
one of `int`. -/
def Printed.append (size : ℕ) (text : Bytes) (p : Printed) : Printed :=
  let n := toSizeT ((size : Int) - toSizeT p.len)
  let (mem, ret) := snprintf p.mem p.len.toNat n text
  ⟨mem, toInt32 (p.len + ret)⟩

/-- `len < 0 || (size_t)len >= size`. -/
def Printed.overflows (size : ℕ) (p : Printed) : Bool :=
  decide (p.len < 0 ∨ size ≤ toSizeT p.len)

/-- The headers and the end of `serialize_response`. -/
def serializeHeadersIn (size : ℕ) : Printed → List (Bytes × Bytes) → Int × (ℕ → UInt8)
  | p, [] =>
    let p := p.append size crlf
    if p.overflows size then (-1, p.mem) else (p.len, p.mem)
  | p, h :: hs =>
    let p := p.append size (headerLine h)
    if p.overflows size then (-1, p.mem) else serializeHeadersIn size p hs

/-- `serialize_response`: its return value and the buffer. -/
def serializeResponseIn (res : HttpResponse) (buffer : ℕ → UInt8) (size : ℕ) :
    Int × (ℕ → UInt8) :=
  let p := Printed.append size (statusLine res.status) ⟨buffer, 0⟩
  if p.overflows size then (-1, p.mem) else serializeHeadersIn size p res.headers

/-- The whole text of a response. -/
def fullText (res : HttpResponse) : Bytes :=
  statusLine res.status ++ (res.headers.map headerLine).flatten ++ crlf

/-! ## One call of `snprintf` -/

/-- What holds before a call: the buffer holds the text so far, which leaves room for more, and
behind the buffer everything is as it was. -/
structure Printing (buffer : ℕ → UInt8) (size : ℕ) (text : Bytes) (p : Printed) : Prop where
  len_eq : p.len = text.length
  fits : text.length < size
  held : Buffer.slice p.mem 0 text.length = text
  outside : ∀ i, size ≤ i → p.mem i = buffer i

section Calls

variable {buffer : ℕ → UInt8} {size : ℕ} {text line : Bytes} {p : Printed}

/-- **What one call does**: the length is that of both texts, the memory behind the buffer is left
alone, and the test behind the call finds out whether both fit. -/
theorem Printing.append (h : Printing buffer size text p) (hsize : size < 18446744073709551616)
    (hlen : (text ++ line).length < 2147483648) :
    (p.append size line).len = (text ++ line).length ∧
      (∀ i, size ≤ i → (p.append size line).mem i = buffer i) ∧
      ((p.append size line).overflows size = true ↔ size ≤ (text ++ line).length) ∧
      ((text ++ line).length < size →
        BoundedText.Held 0 (p.append size line).mem (text ++ line)) := by
  obtain ⟨hlen_eq, hfits, hheld, houtside⟩ := h
  rw [List.length_append] at hlen
  have hroom : toSizeT ((size : Int) - toSizeT text.length) = size - text.length := by
    unfold toSizeT
    omega
  have hret : (if line.length < 2147483648 then (line.length : Int) else -1) = line.length :=
    if_pos (by omega)
  have hlen' : (p.append size line).len = (text ++ line).length := by
    simp only [Printed.append, snprintf, hret, hlen_eq, List.length_append]
    rw [toInt32_of_mem (by omega) (by omega), Int.natCast_add]
  have hmem : (p.append size line).mem =
      BoundedText.print 0 p.mem text.length (size - text.length) line := by
    simp only [Printed.append, snprintf, hlen_eq, hroom, Int.toNat_natCast]
  refine ⟨hlen', fun i hi => ?_, ?_, fun hlt => ?_⟩
  · rw [hmem, BoundedText.print_of_ge (by omega), houtside i hi]
  · have hwide : toSizeT ((text ++ line).length : Int) = (text ++ line).length := by
      rw [List.length_append]
      unfold toSizeT
      omega
    rw [Printed.overflows, hlen', hwide, decide_eq_true_eq]
    exact or_iff_right (by omega)
  · rw [hmem]
    rw [List.length_append] at hlt
    exact BoundedText.Held.print hheld (by omega)

/-- A text that fits is the text so far of the next call. -/
theorem Printing.next (h : Printing buffer size text p) (hsize : size < 18446744073709551616)
    (hlen : (text ++ line).length < 2147483648) (hlt : (text ++ line).length < size) :
    Printing buffer size (text ++ line) (p.append size line) := by
  obtain ⟨hlen', houtside, -, hheld⟩ := h.append hsize hlen
  exact ⟨hlen', hlt, (hheld hlt).text, houtside⟩

/-- **What `serialize_response` is to do** with the text `full`: leave everything behind the buffer
alone, fail exactly if the text and its terminator do not fit, and otherwise return its length
with the text in the buffer. -/
structure Serialized (buffer : ℕ → UInt8) (size : ℕ) (full : Bytes)
    (result : Int × (ℕ → UInt8)) : Prop where
  outside : ∀ i, size ≤ i → result.2 i = buffer i
  fails_iff : result.1 = -1 ↔ size ≤ full.length
  returns : full.length < size → result.1 = full.length ∧ BoundedText.Held 0 result.2 full

/-- A call that finds no room ends it. -/
theorem Serialized.of_overflow {full : Bytes} {mem : ℕ → UInt8}
    (houtside : ∀ i, size ≤ i → mem i = buffer i) (hge : size ≤ full.length) :
    Serialized buffer size full (-1, mem) :=
  ⟨houtside, iff_of_true rfl hge, fun hlt => absurd hlt (Nat.not_lt.mpr hge)⟩

/-- **The headers and the end**, by one call after the other. -/
theorem serializeHeadersIn_serialized (hs : List (Bytes × Bytes))
    (h : Printing buffer size text p) (hsize : size < 18446744073709551616)
    (hlen : (text ++ (hs.map headerLine).flatten ++ crlf).length < 2147483648) :
    Serialized buffer size (text ++ (hs.map headerLine).flatten ++ crlf)
      (serializeHeadersIn size p hs) := by
  induction hs generalizing text p with
  | nil =>
    rw [List.map_nil, List.flatten_nil, List.append_nil] at hlen ⊢
    obtain ⟨hlen', houtside, hover, hheld⟩ := h.append hsize hlen
    simp only [serializeHeadersIn]
    by_cases hge : size ≤ (text ++ crlf).length
    · rw [if_pos (hover.mpr hge)]
      exact .of_overflow houtside hge
    · rw [if_neg (mt hover.mp hge)]
      refine ⟨houtside, iff_of_false ?_ hge, fun hlt => ⟨hlen', hheld hlt⟩⟩
      simp only [hlen']
      omega
  | cons x hs ih =>
    have hfull : text ++ ((x :: hs).map headerLine).flatten ++ crlf =
        text ++ headerLine x ++ (hs.map headerLine).flatten ++ crlf := by
      simp only [List.map_cons, List.flatten_cons, List.append_assoc]
    rw [hfull] at hlen ⊢
    have hline : (text ++ headerLine x).length ≤
        (text ++ headerLine x ++ (hs.map headerLine).flatten ++ crlf).length := by
      simp only [List.length_append]
      omega
    obtain ⟨-, houtside, hover, -⟩ := h.append hsize (Nat.lt_of_le_of_lt hline hlen)
    simp only [serializeHeadersIn]
    by_cases hge : size ≤ (text ++ headerLine x).length
    · rw [if_pos (hover.mpr hge)]
      exact .of_overflow houtside (Nat.le_trans hge hline)
    · rw [if_neg (mt hover.mp hge)]
      exact ih (h.next hsize (Nat.lt_of_le_of_lt hline hlen) (Nat.not_le.mp hge)) hlen

end Calls

/-- **`serialize_response`** for every buffer and every size of it. -/
theorem serializeResponseIn_serialized (res : HttpResponse) (buffer : ℕ → UInt8) {size : ℕ}
    (hpos : 1 ≤ size) (hsize : size < 18446744073709551616)
    (hlen : (fullText res).length < 2147483648) :
    Serialized buffer size (fullText res) (serializeResponseIn res buffer size) := by
  have hstart : Printing buffer size [] ⟨buffer, 0⟩ := ⟨rfl, hpos, rfl, fun _ _ => rfl⟩
  have hline : ([] ++ statusLine res.status).length ≤ (fullText res).length := by
    simp only [fullText, List.nil_append, List.length_append]
    omega
  have hlen' := Nat.lt_of_le_of_lt hline hlen
  obtain ⟨-, houtside, hover, -⟩ := hstart.append hsize hlen'
  simp only [serializeResponseIn]
  by_cases hge : size ≤ ([] ++ statusLine res.status).length
  · rw [if_pos (hover.mpr hge)]
    exact .of_overflow houtside (Nat.le_trans hge hline)
  · rw [if_neg (mt hover.mp hge)]
    exact serializeHeadersIn_serialized res.headers (hstart.next hsize hlen' (Nat.not_le.mp hge))
      hsize hlen

/-! ## The responses that are built -/

/-- The response after any number of `add_header`s. -/
def built (status : HttpStatus) (adds : List (Bytes × Bytes)) : HttpResponse :=
  adds.foldl (fun response h => addHeader response h.1 h.2) ⟨status, []⟩

theorem addHeader_of_full {response : HttpResponse} (h : response.headers.length = maxHeaders)
    (name value : Bytes) : addHeader response name value = response := if_pos h

theorem foldl_addHeader (adds : List (Bytes × Bytes)) (response : HttpResponse)
    (h : response.headers.length ≤ maxHeaders) :
    adds.foldl (fun response h => addHeader response h.1 h.2) response =
      { response with headers := (response.headers ++ adds).take maxHeaders } := by
  induction adds generalizing response with
  | nil => rw [List.append_nil, List.take_of_length_le h, List.foldl_nil]
  | cons x adds ih =>
    rw [List.foldl_cons]
    by_cases hfull : response.headers.length = maxHeaders
    · rw [addHeader_of_full hfull, ih response h,
        List.take_append_of_le_length (Nat.le_of_eq hfull.symm),
        List.take_append_of_le_length (Nat.le_of_eq hfull.symm)]
    · have hmore : addHeader response x.1 x.2 =
          { response with headers := response.headers ++ [x] } := if_neg hfull
      rw [hmore, ih _ (by simp only [List.length_append, List.length_singleton]; omega)]
      simp only [List.append_assoc, List.singleton_append]

/-- **The response that is built** has the first headers that were added. -/
theorem built_eq (status : HttpStatus) (adds : List (Bytes × Bytes)) :
    built status adds = ⟨status, adds.take maxHeaders⟩ :=
  foldl_addHeader adds ⟨status, []⟩ (Nat.zero_le _)

theorem noNul_statusLine (status : HttpStatus) : 0 ∉ statusLine status := by
  cases status <;> decide +kernel

theorem noNul_fullText {res : HttpResponse}
    (h : ∀ x ∈ res.headers, 0 ∉ x.1 ∧ 0 ∉ x.2) : 0 ∉ fullText res := by
  have hcrlf : (0 : UInt8) ∉ crlf := by decide
  have hline : ∀ x ∈ res.headers, 0 ∉ headerLine x := by
    intro x hx
    obtain ⟨hname, hvalue⟩ := h x hx
    have hcolon : (0 : UInt8) ∉ ascii ": " := by decide
    simp only [headerLine, List.mem_append, not_or]
    exact ⟨⟨⟨hname, hcolon⟩, hvalue⟩, hcrlf⟩
  simp only [fullText, List.mem_append, not_or, List.mem_flatten, List.mem_map]
  refine ⟨⟨noNul_statusLine res.status, ?_⟩, hcrlf⟩
  rintro ⟨-, ⟨x, hx, rfl⟩, hmem⟩
  exact hline x hx hmem

/-- A test on the way is one that the last test would make. -/
theorem ite_le_ite_le {size a b : ℕ} (h : a ≤ b) (text : Bytes) :
    (if size ≤ a then none else if size ≤ b then none else some text) =
      if size ≤ b then none else some text := by
  by_cases hge : size ≤ a
  · rw [if_pos hge, if_pos (Nat.le_trans hge h)]
  · rw [if_neg hge]

theorem serializeHeaders_eq (size : ℕ) (text : Bytes) (hs : List (Bytes × Bytes)) :
    serializeHeaders size text hs =
      if size ≤ (text ++ (hs.map headerLine).flatten ++ crlf).length then none
      else some (text ++ (hs.map headerLine).flatten ++ crlf) := by
  induction hs generalizing text with
  | nil =>
    rw [List.map_nil, List.flatten_nil, List.append_nil]
    rfl
  | cons x hs ih =>
    have hfull : text ++ ((x :: hs).map headerLine).flatten ++ crlf =
        text ++ headerLine x ++ (hs.map headerLine).flatten ++ crlf := by
      simp only [List.map_cons, List.flatten_cons, List.append_assoc]
    rw [serializeHeaders, ih, hfull]
    refine ite_le_ite_le ?_ _
    simp only [List.length_append]
    omega

/-- **The two models agree**: the function on texts fails exactly if the whole text does not fit. -/
theorem serializeResponse_eq (res : HttpResponse) (size : ℕ) :
    serializeResponse res size =
      if size ≤ (fullText res).length then none else some (fullText res) := by
  rw [serializeResponse, serializeHeaders_eq]
  refine ite_le_ite_le ?_ _
  simp only [List.length_append]
  omega

/-- **`serialize_response` is exact and bounded**, for every response that `add_header` builds and
every buffer. -/
theorem serializeResponse_exact (status : HttpStatus) (adds : List (Bytes × Bytes))
    (buffer : ℕ → UInt8) {size : ℕ} (hpos : 1 ≤ size) (hsize : size < 18446744073709551616)
    (hnul : ∀ h ∈ adds, 0 ∉ h.1 ∧ 0 ∉ h.2)
    (hlen : (fullText (built status adds)).length < 2147483648) :
    let res := built status adds
    let result := serializeResponseIn res buffer size
    res = ⟨status, adds.take maxHeaders⟩ ∧
      (maxHeaders ≤ adds.length → ∀ name value, addHeaderIn res name value = (-1, res)) ∧
      (∀ i, size ≤ i → result.2 i = buffer i) ∧
      (result.1 = -1 ↔ size ≤ (fullText res).length) ∧
      ((fullText res).length < size → result.1 = (fullText res).length ∧
        StringAt result.2 0 (fullText res)) ∧
      serializeResponse res size = if result.1 = -1 then none else some (fullText res) := by
  obtain ⟨houtside, hfails, hreturns⟩ := serializeResponseIn_serialized (built status adds) buffer
    hpos hsize hlen
  have hbuilt := built_eq status adds
  refine ⟨hbuilt, fun hfull name value => ?_, houtside, hfails, fun hlt => ?_, ?_⟩
  · have hlength : (built status adds).headers.length = maxHeaders := by
      rw [hbuilt, List.length_take]
      exact Nat.min_eq_left hfull
    rw [addHeaderIn, if_pos hlength, addHeader_of_full hlength]
  · obtain ⟨hret, hheld⟩ := hreturns hlt
    refine ⟨hret, hheld.text, noNul_fullText fun x hx => hnul x ?_, ?_⟩
    · rw [hbuilt] at hx
      exact List.mem_of_mem_take hx
    · rw [Nat.zero_add]
      exact hheld.ended
  · rw [serializeResponse_eq]
    simp only [hfails]

/-- A response with one header, in a buffer that holds it and its terminator just so. -/
theorem serializeResponse_exact_one :
    (serializeResponseIn (built .ok [(ascii "A", ascii "b")]) (fun _ => 7) 26).1 = 25 ∧
      StringAt (serializeResponseIn (built .ok [(ascii "A", ascii "b")]) (fun _ => 7) 26).2 0
        (fullText (built .ok [(ascii "A", ascii "b")])) := by
  have hlen : (fullText (built .ok [(ascii "A", ascii "b")])).length = 25 := by decide +kernel
  obtain ⟨-, -, -, -, hreturns, -⟩ := serializeResponse_exact .ok [(ascii "A", ascii "b")]
    (fun _ => 7) (show 1 ≤ 26 by decide) (by decide) (by decide) (by omega)
  obtain ⟨hret, hstring⟩ := hreturns (by omega)
  rw [hlen] at hret
  exact ⟨hret, hstring⟩

end BareHttp
