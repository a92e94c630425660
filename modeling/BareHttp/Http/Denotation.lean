import BareHttp.Http.Layout

/-!
# What the record denotes

There are two models of the parser.  `Parser.Pico` returns the parts of the buffer that it has
found; `Parser.OutParams` has the out-parameters of the source, pointers into the buffer and
lengths.  This file is what they have to do with each other.

A pointer and a length denote the bytes that are there (`part`), so the out-parameters denote a
parsed request (`denoted`).  With variables for out-parameters the parser of the source gives the
answer of the other one, and leaves variables that denote what the other one returns
(`follows_phrParseRequest`).  By `Http.Layout` the record `http_request` holds the same as the
variables, as long as the padding behind `num_headers` is zero.  So the bytes that
`http_parse_request` leaves denote the request that the rest of the development is about
(`httpParseRequest_denotes`).
-/

namespace BareHttp
namespace Layout

open Pico ByteMemory

/-! ## Denotations -/

section Denotations

variable (start : ℕ) (buff : Bytes) (r : Slot → ℕ)

/-- The bytes that a pointer into the buffer and a length denote. -/
def part (ptr len : ℕ) : Bytes := (buff.drop (ptr - start)).take len

/-- The name of a header: none if the pointer is `NULL`. -/
def nameAt (i : ℕ) : Option Bytes :=
  if r (.name i) = 0 then none else some (part start buff (r (.name i)) (r (.nameLen i)))

/-- A header. -/
def headerAt (i : ℕ) : PhrHeader :=
  ⟨nameAt start buff r i, part start buff (r (.value i)) (r (.valueLen i))⟩

/-- The request line. -/
def lineOf : Bytes × Bytes × Int :=
  (part start buff (r .method) (r .methodLen), part start buff (r .path) (r .pathLen),
    CInt.toInt32 (r .minorVersion))

/-- The headers that are counted. -/
def headersOf : List PhrHeader := (List.range (r .numHeaders)).map (headerAt start buff r)

/-- **The request that out-parameters denote.** -/
def denoted : Parsed :=
  ⟨(lineOf start buff r).1, (lineOf start buff r).2.1, (lineOf start buff r).2.2,
    headersOf start buff r⟩

end Denotations

variable {start : ℕ} {buff p : Bytes} {r : Slot → ℕ} {a b : Slot} {n x : ℕ} {v : Slot → ℕ}

/-- A pointer to where the scan is denotes what the scan reads. -/
theorem part_of_suffix {s : Bytes} (hp : p <:+ buff) (hs : s <+: p) :
    part start buff (start + buff.length - p.length) s.length = s := by
  obtain ⟨front, rfl⟩ := hp
  obtain ⟨rest, rfl⟩ := hs
  have hskip : start + (front ++ (s ++ rest)).length - (s ++ rest).length - start =
      front.length := by
    rw [List.length_append]
    omega
  rw [part, hskip, List.drop_left, List.take_left]

/-- A variable is written, and the others are as they were. -/
theorem separate_read_write (v : Slot → ℕ) (a : Slot) (x : ℕ) :
    separate.read (separate.write v a x) =
      Function.update (separate.read v) a (x % 256 ^ width a) := by
  funext b
  by_cases hba : b = a
  · subst hba
    simp [separate]
  · simp [separate, hba]

theorem length_headersOf (start : ℕ) (buff : Bytes) (r : Slot → ℕ) :
    (headersOf start buff r).length = r .numHeaders := by
  rw [headersOf, List.length_map, List.length_range]

/-- The fields of a header that is not counted yet. -/
def OfEntry (n : ℕ) (a : Slot) : Prop := a ∈ [.name n, .nameLen n, .value n, .valueLen n]

/-- Writing them changes neither the request line nor the headers that are counted. -/
theorem lineOf_update (ha : OfEntry n a) (x : ℕ) :
    lineOf start buff (Function.update r a x) = lineOf start buff r := by
  simp only [OfEntry, List.mem_cons, List.not_mem_nil, or_false] at ha
  rcases ha with rfl | rfl | rfl | rfl <;> simp [lineOf]

theorem headersOf_update (ha : OfEntry (r .numHeaders) a) (x : ℕ) :
    headersOf start buff (Function.update r a x) = headersOf start buff r := by
  have hcount : Function.update r a x .numHeaders = r .numHeaders := by
    simp only [OfEntry, List.mem_cons, List.not_mem_nil, or_false] at ha
    rcases ha with h | h | h | h <;> simp [h]
  rw [headersOf, headersOf, hcount]
  refine List.map_congr_left fun i hi => ?_
  have hne : i ≠ r .numHeaders := Nat.ne_of_lt (List.mem_range.mp hi)
  simp only [OfEntry, List.mem_cons, List.not_mem_nil, or_false] at ha
  rcases ha with rfl | rfl | rfl | rfl <;> simp [headerAt, nameAt, hne]

/-- The next header is counted. -/
theorem headersOf_count :
    headersOf start buff (Function.update r .numHeaders (r .numHeaders + 1)) =
      headersOf start buff r ++ [headerAt start buff r (r .numHeaders)] := by
  have hsame : headerAt start buff (Function.update r .numHeaders (r .numHeaders + 1)) =
      headerAt start buff r := by
    funext i
    simp [headerAt, nameAt]
  rw [headersOf, Function.update_self, hsame, List.range_succ, List.map_append]
  rfl

/-! ## The parser with variables -/

section Following

open BareHttp.Action Stored

/-- The scan is somewhere in the buffer, and the variables hold so much. -/
def At (buff : Bytes) (φ : (Slot → ℕ) → Prop) (p : Bytes) (v : Slot → ℕ) : Prop :=
  p <:+ buff ∧ φ (separate.read v)

variable {α β γ : Type} {φ ψ : (Slot → ℕ) → Prop} {k : α → Routine (Slot → ℕ) γ}
  {g : Parser β} {Q : β → Bytes → (Slot → ℕ) → Prop}

theorem At.write (h : At buff φ p v) (hx : x < 256 ^ width a)
    (hψ : ∀ r, φ r → ψ (Function.update r a x)) : At buff ψ p (separate.write v a x) := by
  refine ⟨h.1, ?_⟩
  rw [separate_read_write, Nat.mod_eq_of_lt hx]
  exact hψ _ h.2

theorem follows_scan_bind {f : Parser α} {l : α → Parser β} (hf : f.Consumes)
    (hk : ∀ a, Follows (At buff φ) (k a) (l a) Q) :
    Follows (At buff φ) ((Action.scan f).bind k) (fun p => (f p).bind l) Q :=
  .scan_bind (fun p a rest _ h hdone => ⟨(hf p a rest hdone).trans h.1, h.2⟩) hk

theorem follows_get_bind {k : ℕ → Routine (Slot → ℕ) γ} (hx : ∀ r, φ r → r b = x)
    (hk : Follows (At buff φ) (k x) g Q) : Follows (At buff φ) ((get separate b).bind k) g Q :=
  .read_bind (fun _ _ h => hx _ h.2) hk

theorem follows_header_bind {k : Slot → Routine (Slot → ℕ) γ} (field : ℕ → Slot)
    (hn : ∀ r, φ r → r .numHeaders = n) (hk : Follows (At buff φ) (k (field n)) g Q) :
    Follows (At buff φ) ((header separate field).bind k) g Q :=
  .read_bind (fun _ _ h => congrArg field (hn _ h.2)) hk

theorem follows_set_bind {k : Unit → Routine (Slot → ℕ) γ} (hx : x < 256 ^ width a)
    (hψ : ∀ r, φ r → ψ (Function.update r a x)) (hk : Follows (At buff ψ) (k ()) g Q) :
    Follows (At buff φ) ((set separate a x).bind k) g Q :=
  .modify_bind (fun _ _ h => h.write hx hψ) hk

theorem follows_set {c : β} {ψ : β → (Slot → ℕ) → Prop} (hx : x < 256 ^ width a)
    (hψ : ∀ r, φ r → ψ c (Function.update r a x)) :
    Follows (At buff φ) (set separate a x) (fun p => .done c p) (fun c => At buff (ψ c)) :=
  .modify fun _ _ h => h.write hx hψ

/-- **A token**: behind the scan the two variables denote it. -/
theorem follows_storeToken (hend : start + buff.length < 18446744073709551616)
    (stop ok : UInt8 → Bool) (token tokenLen : Slot) (htoken : width token = 8)
    (hlen : width tokenLen = 8) {ψ : Bytes → (Slot → ℕ) → Prop}
    (h : ∀ r ptr tok, φ r → start ≤ ptr → part start buff ptr tok.length = tok →
      ψ tok (Function.update (Function.update r token ptr) tokenLen tok.length)) :
    Follows (At buff φ)
      (storeToken separate (start + buff.length) (Scanner.takeUntil .invalid stop ok) token
        tokenLen)
      (Scanner.takeUntil .invalid stop ok) (fun tok => At buff (ψ tok)) := by
  refine .congr (fun p _ _ => (Scan.bind_pure _).symm) ?_
  refine .look_bind (fun p => start + buff.length - p.length) fun ptr => ?_
  refine .scan_bind (S := fun tok rest v => At buff φ rest v ∧ start ≤ ptr ∧
    ptr ≤ start + buff.length ∧ tok.length ≤ buff.length ∧ part start buff ptr tok.length = tok)
    ?_ fun tok => ?_
  · rintro p tok rest v ⟨⟨hp, hφ⟩, rfl⟩ hdone
    obtain ⟨hsplit, -⟩ := Scanner.takeUntil_eq_done hdone
    have hprefix : tok <+: p := ⟨rest, hsplit.symm⟩
    have hrest : rest <:+ p := ⟨tok, hsplit.symm⟩
    have hle := hp.length_le
    exact ⟨⟨hrest.trans hp, hφ⟩, by omega, by omega, hprefix.length_le.trans hle,
      part_of_suffix hp hprefix⟩
  · refine .given (fun p v h => h.2) fun ⟨hptr, hle, htok, hpart⟩ => .weaken ?_ fun p v h => h.1
    refine follows_set_bind (by rw [htoken]; omega)
      (ψ := fun r => ∃ r', φ r' ∧ r = Function.update r' token ptr) (fun r hr => ⟨r, hr, rfl⟩) ?_
    refine follows_set (by rw [hlen]; omega) ?_
    rintro - ⟨r, hφ, rfl⟩
    exact h r ptr tok hφ hptr hpart

/-- So much has been read: a request line and some headers. -/
def Loop (start : ℕ) (buff : Bytes) (line : Bytes × Bytes × Int) (headers : List PhrHeader)
    (r : Slot → ℕ) : Prop :=
  lineOf start buff r = line ∧ headersOf start buff r = headers

variable {line : Bytes × Bytes × Int} {headers : List PhrHeader} {name : Option Bytes} {c : UInt8}

theorem Loop.numHeaders (h : Loop start buff line headers r) : r .numHeaders = headers.length := by
  rw [← h.2, length_headersOf]

theorem Loop.update (h : Loop start buff line headers r) (ha : OfEntry headers.length a) (x : ℕ) :
    Loop start buff line headers (Function.update r a x) := by
  refine ⟨(lineOf_update ha x).trans h.1, (headersOf_update ?_ x).trans h.2⟩
  rwa [h.numHeaders]

/-- The name of one more. -/
def Named (start : ℕ) (buff : Bytes) (line : Bytes × Bytes × Int) (headers : List PhrHeader)
    (name : Option Bytes) (r : Slot → ℕ) : Prop :=
  Loop start buff line headers r ∧ nameAt start buff r headers.length = name

/-- The name part of a line, where there is room for the header. -/
theorem parseHeaderName_of_lt {slots : ℕ} (hn : n < slots) (h : p.head? = some c) :
    Pico.parseHeaderName slots n p =
      if n ≠ 0 ∧ isBlank c then .done none p
      else
        (parseToken colon p).bind fun name buf =>
          if name = [] then .fail .invalid
          else (skipColon buf).bind fun _ buf => .done (some name) buf := by
  obtain ⟨q, rfl⟩ : ∃ q, p = c :: q := List.head?_eq_some_iff.mp h
  simp only [Pico.parseHeaderName, if_neg (Nat.not_le.mpr hn), skipColon, Scan.bind_assoc]

/-- **The name of a header.** -/
theorem follows_parseHeaderName (hstart : 0 < start)
    (hend : start + buff.length < 18446744073709551616) (hn : headers.length < maxHeaders) :
    Follows (fun p v => p.head? = some c ∧ At buff (Loop start buff line headers) p v)
      (Stored.parseHeaderName separate (start + buff.length) c)
      (Pico.parseHeaderName maxHeaders headers.length)
      (fun name => At buff (Named start buff line headers name)) := by
  refine .congr (fun p v h => parseHeaderName_of_lt hn h.1) (.weaken ?_ fun p v h => h.2)
  have hcount : ∀ r, Loop start buff line headers r → r .numHeaders = headers.length :=
    fun r h => h.numHeaders
  refine follows_get_bind hcount ?_
  split_ifs with hblank
  · refine follows_header_bind .name hcount ?_
    refine follows_set_bind (Nat.pow_pos (by decide)) (ψ := fun r =>
      Loop start buff line headers r ∧ r (.name headers.length) = 0)
      (fun r h => ⟨h.update (by simp [OfEntry]) 0, Function.update_self _ _ _⟩) ?_
    refine follows_header_bind .nameLen (fun r h => h.1.numHeaders) ?_
    refine follows_set (Nat.pow_pos (by decide)) fun r h => ⟨h.1.update (by simp [OfEntry]) 0, ?_⟩
    simp [nameAt, h.2]
  · refine follows_header_bind .name hcount (follows_header_bind .nameLen hcount ?_)
    refine .bind (follows_storeToken hend _ _ (.name _) (.nameLen _) rfl rfl (ψ := fun tok r =>
      Named start buff line headers (some tok) r ∧ r (.nameLen headers.length) = tok.length) ?_) ?_
    · intro r ptr tok hr hptr hpart
      have hloop := (hr.update (a := .name headers.length) (by simp [OfEntry]) ptr).update
        (a := .nameLen headers.length) (by simp [OfEntry]) tok.length
      have hne : ptr ≠ 0 := by omega
      refine ⟨⟨hloop, ?_⟩, Function.update_self _ _ _⟩
      simp [nameAt, hne, hpart]
    · intro _ tok
      refine follows_header_bind .nameLen (fun r h => h.1.1.numHeaders) ?_
      refine follows_get_bind (fun r h => h.2) ?_
      simp only [List.length_eq_zero_iff]
      split_ifs with hempty
      · exact fun p v h => rfl
      · refine follows_scan_bind consumes_skipColon fun _ => ?_
        exact fun p v h => ⟨(), v, rfl, h.1, h.2.1⟩

/-- What is left of a value is in front of it. -/
theorem prefix_of_trimValue (value : Bytes) : trimValue value <+: value := by
  have hsuffix := List.dropWhile_suffix isBlank (l := value.reverse)
  have hprefix := List.reverse_prefix.mpr hsuffix
  rwa [List.reverse_reverse] at hprefix

theorem prefix_of_getTokenToEol {token rest : Bytes} (h : getTokenToEol p = .done token rest) :
    token <+: p := by
  obtain ⟨tok, rest', hscan, h⟩ := Scan.bind_eq_done h
  obtain ⟨-, rest'', -, h⟩ := Scan.bind_eq_done h
  obtain ⟨rfl, -⟩ := Scan.done.inj h
  exact ⟨rest', (Scanner.takeUntil_eq_done hscan).1.symm⟩

/-- **The value of a header.** -/
theorem follows_parseHeaderValue (hend : start + buff.length < 18446744073709551616) :
    Follows (At buff (Named start buff line headers name))
      (parseHeaderValue separate (start + buff.length))
      (fun p => (getTokenToEol p).bind fun value p => .done (trimValue value) p)
      (fun value => At buff fun r => Loop start buff line headers r ∧
        headerAt start buff r headers.length = ⟨name, value⟩) := by
  refine .look_bind (fun p => start + buff.length - p.length) fun ptr => ?_
  refine .scan_bind (S := fun token rest v => At buff (Named start buff line headers name) rest v ∧
    ptr ≤ start + buff.length ∧ (trimValue token).length ≤ buff.length ∧
      part start buff ptr (trimValue token).length = trimValue token) ?_ fun token => ?_
  · rintro p token rest v ⟨⟨hp, hnamed⟩, rfl⟩ hdone
    have hprefix := (prefix_of_trimValue token).trans (prefix_of_getTokenToEol hdone)
    exact ⟨⟨(consumes_getTokenToEol p token rest hdone).trans hp, hnamed⟩, by omega,
      hprefix.length_le.trans hp.length_le, part_of_suffix hp hprefix⟩
  · refine .given (fun p v h => h.2) fun ⟨hptr, hlen, hpart⟩ => .weaken ?_ fun p v h => h.1
    have hcount : ∀ r, Named start buff line headers name r → r .numHeaders = headers.length :=
      fun r h => h.1.numHeaders
    refine follows_header_bind .value hcount ?_
    refine follows_set_bind (by simp only [width]; omega) (ψ := fun r =>
      Named start buff line headers name r ∧ r (.value headers.length) = ptr) (fun r h => ?_) ?_
    · refine ⟨⟨h.1.update (by simp [OfEntry]) ptr, ?_⟩, Function.update_self _ _ _⟩
      rw [← h.2]
      simp [nameAt]
    refine follows_header_bind .valueLen (fun r h => h.1.1.numHeaders) ?_
    refine follows_set (by simp only [width]; omega) fun r h => ?_
    refine ⟨h.1.1.update (by simp [OfEntry]) _, ?_⟩
    rw [← h.1.2]
    simp [headerAt, nameAt, h.2, hpart]

/-- The count. -/
theorem follows_countHeader {h : PhrHeader} (hn : headers.length < maxHeaders) :
    Follows (At buff fun r => Loop start buff line headers r ∧
        headerAt start buff r headers.length = h)
      (countHeader separate) (fun p => .done () p)
      (fun _ => At buff (Loop start buff line (headers ++ [h]))) := by
  have hfit : headers.length + 1 < 256 ^ width .numHeaders := by
    simp only [maxHeaders, width] at *
    omega
  refine follows_get_bind (fun r h => h.1.numHeaders) (follows_set hfit ?_)
  rintro r ⟨hloop, rfl⟩
  refine ⟨?_, ?_⟩
  · rw [← hloop.1]
    simp [lineOf]
  · rw [← hloop.numHeaders, headersOf_count, hloop.2]

/-- One round of `parse_headers`. -/
theorem parseHeaders_succ (slots limit fuel : ℕ) (headers : List PhrHeader) (p : Bytes) :
    Pico.parseHeaders slots limit (fuel + 1) headers p =
      (peek p).bind fun c p =>
        if c = cr ∨ c = lf then (endOfLine p).bind fun _ p => .done headers p
        else if headers.length = limit then .fail .invalid
        else
          (Pico.parseHeaderName slots headers.length p).bind fun name p =>
            ((getTokenToEol p).bind fun value p => .done (trimValue value) p).bind fun value p =>
              Pico.parseHeaders slots limit fuel (headers ++ [⟨name, value⟩]) p := by
  cases p with
  | nil => rfl
  | cons c p =>
    simp only [Pico.parseHeaders, peek, Scan.bind_done, endOfLine, Scan.bind_assoc]
    by_cases hcr : c = cr
    · simp [hcr, Scan.bind_assoc]
    · by_cases hlf : c = lf
      · simp [hlf]
      · simp [hcr, hlf]

/-- **The headers.** -/
theorem follows_parseHeaders (hstart : 0 < start)
    (hend : start + buff.length < 18446744073709551616) (fuel : ℕ)
    (hle : headers.length ≤ maxHeaders) :
    Follows (At buff (Loop start buff line headers))
      (Stored.parseHeaders separate (start + buff.length) maxHeaders fuel)
      (Pico.parseHeaders maxHeaders maxHeaders fuel headers)
      (fun headers => At buff (Loop start buff line headers)) := by
  induction fuel generalizing headers with
  | zero => exact fun p v h => rfl
  | succ fuel ih =>
    refine .congr (fun p v h => parseHeaders_succ _ _ _ _ _) ?_
    refine .scan_bind (S := fun c p v => p.head? = some c ∧
      At buff (Loop start buff line headers) p v) ?_ fun c => ?_
    · intro p c rest v h hpeek
      cases p with
      | nil => exact absurd hpeek (by simp [peek])
      | cons d p =>
        obtain ⟨rfl, rfl⟩ := Scan.done.inj hpeek
        exact ⟨rfl, h⟩
    split_ifs with hline hfull
    · refine .map (fun _ => headers) (.scan (Q := fun _ => At buff (Loop start buff line headers))
        fun p a rest v h hdone => ?_) fun _ _ _ h => h
      exact ⟨(consumes_endOfLine p a rest hdone).trans h.2.1, h.2.2⟩
    · refine .read_bind (a := headers.length) (fun p v h => h.2.2.numHeaders) ?_
      rw [if_pos hfull]
      exact fun p v h => rfl
    · have hn : headers.length < maxHeaders := Nat.lt_of_le_of_ne hle hfull
      refine .read_bind (a := headers.length) (fun p v h => h.2.2.numHeaders) ?_
      rw [if_neg hfull]
      refine .bind (follows_parseHeaderName hstart hend hn) fun _ name => ?_
      refine .bind (follows_parseHeaderValue hend) fun _ value => ?_
      refine .silent_bind (follows_countHeader hn) fun _ => ih ?_
      rw [List.length_append]
      exact hn

/-- The minor version is a digit. -/
theorem parseHttpVersion_mem {version : Int} {rest : Bytes}
    (h : Pico.parseHttpVersion p = .done version rest) : 0 ≤ version ∧ version < 10 := by
  unfold Pico.parseHttpVersion at h
  split_ifs at h
  obtain ⟨-, rest₁, -, h⟩ := Scan.bind_eq_done h
  obtain ⟨c, rest₂, hdigit, h⟩ := Scan.bind_eq_done h
  obtain ⟨rfl, -⟩ := Scan.done.inj h
  have hc := (Scanner.one_eq_done hdigit).2
  simp only [Bool.and_eq_true, decide_eq_true_eq, UInt8.le_iff_toNat_le] at hc
  have hlo : 48 ≤ c.toNat := hc.1
  have hhi : c.toNat ≤ 57 := hc.2
  omega

/-- **The version.** -/
theorem follows_parseHttpVersion {ψ : Int → (Slot → ℕ) → Prop}
    (h : ∀ r (digit : ℕ), φ r → CInt.toInt32 digit = digit →
      ψ digit (Function.update r .minorVersion digit)) :
    Follows (At buff φ) (Stored.parseHttpVersion separate) Pico.parseHttpVersion
      (fun version => At buff (ψ version)) := by
  refine .congr (fun p _ _ => (Scan.bind_pure _).symm) ?_
  refine .scan_bind (S := fun version p v => At buff φ p v ∧ 0 ≤ version ∧ version < 10) ?_
    fun version => ?_
  · intro p version rest v h hdone
    have hrest := consumes_parseHttpVersion p version rest hdone
    exact ⟨⟨hrest.trans h.1, h.2⟩, parseHttpVersion_mem hdone⟩
  · refine .given (fun p v h => h.2) fun ⟨hlo, hhi⟩ => .weaken ?_ fun p v h => h.1
    obtain ⟨digit, rfl⟩ := Int.eq_ofNat_of_zero_le hlo
    refine follows_set (by simp only [width, Int.toNat_natCast]; omega) fun r hr => h r digit hr ?_
    exact CInt.toInt32_of_mem (by omega) (by omega)

/-- `parse_request` as one chain of scans. -/
theorem parseRequest_eq (slots limit : ℕ) (p : Bytes) :
    Pico.parseRequest slots limit p =
      (skipFirstLine p).bind fun _ p =>
        (parseToken sp p).bind fun method p =>
          (skipSpaces p).bind fun _ p =>
            (advanceToken p).bind fun path p =>
              (skipSpaces p).bind fun _ p =>
                if method = [] ∨ path = [] then .fail .invalid
                else
                  (Pico.parseHttpVersion p).bind fun version p =>
                    (endOfLine p).bind fun _ p =>
                      (Pico.parseHeaders slots limit (p.length + 1) [] p).bind fun headers p =>
                        .done ⟨method, path, version, headers⟩ p := by
  simp only [Pico.parseRequest, parseRequestLine, Scan.bind_assoc]
  congr! with _ p method p _ p path p _ p
  split_ifs
  · rfl
  · simp only [Scan.bind_assoc, Scan.bind_done]

/-- **`parse_request`.** -/
theorem follows_parseRequest (hstart : 0 < start)
    (hend : start + buff.length < 18446744073709551616) :
    Follows (At buff fun r => r .numHeaders = 0)
      (Stored.parseRequest separate (start + buff.length) maxHeaders)
      (Pico.parseRequest maxHeaders maxHeaders)
      (fun parsed => At buff fun r => denoted start buff r = parsed) := by
  refine .congr (fun p v h => parseRequest_eq _ _ _) ?_
  refine follows_scan_bind consumes_skipFirstLine fun _ => ?_
  refine .bind (follows_storeToken hend _ _ .method .methodLen rfl rfl (ψ := fun method r =>
    r .numHeaders = 0 ∧ r .methodLen = method.length ∧
      part start buff (r .method) (r .methodLen) = method) ?_) fun _ method => ?_
  · intro r ptr tok hr hptr hpart
    simp [hr, hpart]
  refine follows_scan_bind consumes_skipSpaces fun _ => ?_
  refine .bind (follows_storeToken hend _ _ .path .pathLen rfl rfl (ψ := fun path r =>
    (r .numHeaders = 0 ∧ r .methodLen = method.length ∧
      part start buff (r .method) (r .methodLen) = method) ∧ r .pathLen = path.length ∧
      part start buff (r .path) (r .pathLen) = path) ?_) fun _ path => ?_
  · rintro r ptr tok ⟨hnum, hlen, hmethod⟩ hptr hpart
    exact ⟨⟨by simpa using hnum, by simpa using hlen, by simpa using hmethod⟩, by simp,
      by simpa using hpart⟩
  refine follows_scan_bind consumes_skipSpaces fun _ => ?_
  refine follows_get_bind (fun r h => h.1.2.1) (follows_get_bind (fun r h => h.2.1) ?_)
  simp only [List.length_eq_zero_iff]
  split_ifs with hempty
  · exact fun p v h => rfl
  · refine .bind (follows_parseHttpVersion (ψ := fun version =>
      Loop start buff (method, path, version) []) ?_) fun _ version => ?_
    · rintro r digit ⟨⟨hnum, -, hmethod⟩, -, hpath⟩ hversion
      simp [Loop, lineOf, headersOf, hnum, hmethod, hpath, hversion]
    refine follows_scan_bind consumes_endOfLine fun _ => ?_
    refine .sized (f := fun k =>
      Stored.parseHeaders separate (start + buff.length) maxHeaders (k + 1))
      (g := fun k p => (Pico.parseHeaders maxHeaders maxHeaders (k + 1) [] p).bind
        fun headers p => .done (Parsed.mk method path version headers) p) fun k => ?_
    refine .map _ (follows_parseHeaders hstart hend (k + 1) (Nat.zero_le _)) ?_
    rintro headers rest v ⟨hrest, hline, hheaders⟩
    refine ⟨hrest, ?_⟩
    show denoted start buff (separate.read v) = ⟨method, path, version, headers⟩
    rw [denoted, hline, hheaders]

/-- The clearing. -/
theorem follows_clear :
    Follows (At buff φ) (clear separate) (fun p => .done () p)
      (fun _ => At buff fun r => r .numHeaders = 0) := by
  have hzero : ∀ a : Slot, 0 < 256 ^ width a := fun a => Nat.pow_pos (by decide)
  refine follows_set_bind (ψ := fun _ => True) (hzero _) (fun _ _ => trivial) ?_
  refine follows_set_bind (ψ := fun _ => True) (hzero _) (fun _ _ => trivial) ?_
  refine follows_set_bind (ψ := fun _ => True) (hzero _) (fun _ _ => trivial) ?_
  refine follows_set_bind (ψ := fun _ => True) (hzero _) (fun _ _ => trivial) ?_
  refine follows_set_bind (ψ := fun _ => True) (by decide) (fun _ _ => trivial) ?_
  exact follows_set (hzero _) fun _ _ => Function.update_self _ _ _

theorem phrParseRequest_eq (slots limit lastLen : ℕ) (p : Bytes) :
    Pico.phrParseRequest slots limit lastLen p =
      (checkComplete lastLen p).bind fun _ p => Pico.parseRequest slots limit p := by
  unfold Pico.phrParseRequest checkComplete
  split_ifs
  · rw [Scan.bind_assoc]
    rfl
  · rfl

/-- **`phr_parse_request`** with variables for its out-parameters gives the answer of the other
model, and the variables denote the request that one returns. -/
theorem follows_phrParseRequest (hstart : 0 < start)
    (hend : start + buff.length < 18446744073709551616) (lastLen : ℕ) :
    Follows (At buff fun r => r .numHeaders = maxHeaders)
      (Stored.phrParseRequest separate (start + buff.length) lastLen)
      (Pico.phrParseRequest maxHeaders maxHeaders lastLen)
      (fun parsed => At buff fun r => denoted start buff r = parsed) := by
  refine .congr (fun p v h => phrParseRequest_eq _ _ _ _) ?_
  refine follows_get_bind (fun r h => h) (.silent_bind follows_clear fun _ => ?_)
  exact follows_scan_bind (consumes_checkComplete lastLen) fun _ => follows_parseRequest hstart hend

end Following

/-! ## The record -/

/-- What the fields of the record hold, read with their own types. -/
def recorded (m : ℕ → UInt8) : Slot → ℕ
  | .methodLen => load m (offset .methodLen) 4
  | .pathLen => load m (offset .pathLen) 4
  | .numHeaders => load m (offset .numHeaders) 4
  | b => load m (offset b) (width b)

/-- The record and the variables denote the same, if they hold the same. -/
theorem denoted_recorded {m : ℕ → UInt8} (h : Rel versionLast (Small maxHeaders) m v) :
    denoted start buff (recorded m) = denoted start buff (separate.read v) := by
  obtain ⟨hagree, hmethod, hpath, hnum⟩ := h
  have hfield : ∀ b, Inside b → recorded m b = separate.read v b := by
    intro b hb
    cases b with
    | methodLen => exact load_of_agree hagree (by decide) rfl hmethod
    | pathLen => exact load_of_agree hagree (by decide) rfl hpath
    | numHeaders =>
      exact load_of_agree hagree (by decide) rfl (Nat.lt_of_le_of_lt hnum (by decide))
    | method => exact hagree.read (b := .method) rfl
    | path => exact hagree.read (b := .path) rfl
    | minorVersion => exact hagree.read (b := .minorVersion) rfl
    | name i => exact hagree.read (b := .name i) (if_pos hb)
    | nameLen i => exact hagree.read (b := .nameLen i) (if_pos hb)
    | value i => exact hagree.read (b := .value i) (if_pos hb)
    | valueLen i => exact hagree.read (b := .valueLen i) (if_pos hb)
  have hcount : separate.read v .numHeaders ≤ maxHeaders := (Nat.mod_le _ _).trans hnum
  have hheaders : headersOf start buff (recorded m) = headersOf start buff (separate.read v) := by
    rw [headersOf, headersOf, hfield .numHeaders trivial]
    refine List.map_congr_left fun i hi => ?_
    have hlt : i < maxHeaders := Nat.lt_of_lt_of_le (List.mem_range.mp hi) hcount
    simp only [headerAt, nameAt, hfield (.name i) hlt, hfield (.nameLen i) hlt,
      hfield (.value i) hlt, hfield (.valueLen i) hlt]
  have hline : lineOf start buff (recorded m) = lineOf start buff (separate.read v) := by
    simp only [lineOf, hfield .method trivial, hfield .methodLen trivial, hfield .path trivial,
      hfield .pathLen trivial, hfield .minorVersion trivial]
  rw [denoted, denoted, hline, hheaders]

/-- **`phr_parse_request` on the record**, with the limit set and the padding behind it zero. -/
theorem follows_record (hstart : 0 < start) (hend : start + buff.length < 18446744073709551616)
    (hbuff : buff.length < 2147483648) (lastLen : ℕ) :
    Action.Follows (fun p m => p = buff ∧ ∃ m₀, m = withLimit m₀ ∧ load m₀ padOffset 4 = 0)
      (Stored.phrParseRequest struct (start + buff.length) lastLen)
      (Pico.phrParseRequest maxHeaders maxHeaders lastLen)
      (fun parsed rest m => rest <:+ buff ∧ denoted start buff (recorded m) = parsed) := by
  rintro p - ⟨rfl, m₀, rfl, hpad⟩
  have hstruct := Action.Follows.of_lockstep (I := Kept m₀)
    (lockstep_phrParseRequest (start + p.length) hbuff lastLen)
    (follows_phrParseRequest hstart hend lastLen)
  refine (hstruct.relax ?_) p (withLimit m₀) ⟨fresh m₀ fun _ => 0, Nat.le_refl _,
    kept_withLimit m₀ _, ⟨agree_atEntry hpad _, rfl⟩, List.suffix_rfl, rfl⟩
  rintro parsed rest m ⟨-, v, hrel, hrest, hdenoted⟩
  exact ⟨hrest, (denoted_recorded hrel).trans hdenoted⟩

/-- **The record behind `http_parse_request`.**  The return value is the answer of the other model
of `http_parse_request`, and behind a count the bytes of the record denote its request. -/
theorem httpParseRequest_denotes {m : ℕ → UInt8} (hstart : 0 < start)
    (hend : start + buff.length < 18446744073709551616) (hbuff : buff.length < 2147483648)
    {lastLen : ℕ} (hlast : lastLen < 2147483648) (hpad : load m padOffset 4 = 0)
    {rq : HttpRequest} (hrq : rq.headersPad = 0) :
    match BareHttp.httpParseRequest buff rq lastLen with
    | (.parsed n, rq') =>
      (httpParseRequest start buff lastLen m).1 = n ∧
        rq' = rq.filled (denoted start buff (recorded (httpParseRequest start buff lastLen m).2))
    | (.invalid, _) => (httpParseRequest start buff lastLen m).1 = -1
    | (.incomplete, _) => (httpParseRequest start buff lastLen m).1 = -2
    | (.overrun, _) => False := by
  have hlen : CInt.toSizeT lastLen = lastLen := by
    have hnat := @CInt.toSizeT_of_nonneg lastLen (by omega) (by omega)
    exact_mod_cast hnat
  have hfollows := follows_record hstart hend hbuff lastLen buff (withLimit m) ⟨rfl, m, rfl, hpad⟩
  have hnever : Pico.phrParseRequest maxHeaders maxHeaders lastLen buff ≠ .fail .overrun :=
    phrParseRequest_ne_overrun
  simp only [httpParseRequest, hlen, BareHttp.httpParseRequest, HttpRequest.headerLimit_eq hrq]
  generalize Pico.phrParseRequest maxHeaders maxHeaders lastLen buff = answer at *
  generalize Stored.phrParseRequest struct (start + buff.length) lastLen buff (withLimit m) =
    result at *
  cases answer with
  | done parsed rest =>
    obtain ⟨a, m', rfl, hrest, hdenoted⟩ := hfollows
    have hle := hrest.length_le
    simp only [Stored.returnValue, hdenoted, and_true]
    omega
  | fail e =>
    cases e with
    | invalid =>
      have hanswer : result.1 = .fail .invalid := hfollows
      simp only [hanswer, Stored.returnValue]
    | overrun => exact hnever rfl
  | incomplete =>
    have hanswer : result.1 = .incomplete := hfollows
    simp only [hanswer, Stored.returnValue]

end Layout
end BareHttp
