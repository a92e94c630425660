import BareHttp.Parser.Stability

/-!
# The shortcut of `is_complete` never hides the blank line

A caller that parses again after each receive passes the previous fill level as
`last_len`, and `phr_parse_request` then first runs `is_complete`, which starts
three bytes before that level and looks for two line ends in a row.  This file
compares that scan with the parser.

* `isCompleteLoop_of_parseRequest`: on a header block the parser accepts as a
  whole, the scan from the first byte finds the blank line exactly at the end.
  The parser and the scan walk over the same line ends, and the counter of the
  scan is reset by every line that is not blank.
* `isCompleteLoop_drop_incomplete`: starting later cannot find a blank line that
  starting at the first byte does not find, and cannot find a stray carriage
  return either, not even when the start splits a `CR LF`.
* `isCompleteLoop_drop_done`: starting later still finds the blank line if four
  bytes are left, since the two line ends have at most four.
-/

namespace BareHttp
namespace Pico

open Scanner

/-- Neither a carriage return nor a line feed. -/
def Plain (c : UInt8) : Prop := c ≠ cr ∧ c ≠ lf

theorem plain_of_tokenCharMap {c : UInt8} (h : tokenCharMap c = true) : Plain c := by
  constructor <;> rintro rfl <;> exact absurd h (by decide)

theorem plain_of_pathChar {c : UInt8} (h : pathChar c = true) : Plain c := by
  constructor <;> rintro rfl <;> exact absurd h (by decide)

theorem plain_of_isBlank {c : UInt8} (h : isBlank c = true) : Plain c := by
  constructor <;> rintro rfl <;> exact absurd h (by decide)

theorem plain_of_eolStop {c : UInt8} (h : eolStop c = false) : Plain c := by
  constructor <;> rintro rfl <;> exact absurd h (by decide)

/-! ## The scan along the pieces of a request -/

/-- A nonempty stretch of plain bytes resets the counter. -/
theorem isCompleteLoop_plain {tok : Bytes} (hne : tok ≠ []) (hpl : ∀ c ∈ tok, Plain c) (n : ℕ)
    (rest : Bytes) : isCompleteLoop n (tok ++ rest) = isCompleteLoop 0 rest := by
  induction tok generalizing n with
  | nil => exact absurd rfl hne
  | cons c tok ih =>
    have hc : Plain c := hpl c List.mem_cons_self
    rw [List.cons_append, isCompleteLoop_other n _ hc.1 hc.2]
    cases tok with
    | nil => rfl
    | cons d tok =>
      exact ih (List.cons_ne_nil d tok) (fun e he => hpl e (List.mem_cons_of_mem c he)) 0

/-- A line end raises the counter. -/
theorem isCompleteLoop_endOfLine {buf rest : Bytes} (h : endOfLine buf = .done () rest) (n : ℕ) :
    isCompleteLoop n buf =
      if n + 1 = 2 then .done () rest else isCompleteLoop (n + 1) rest := by
  cases buf with
  | nil => exact absurd h (by simp [endOfLine])
  | cons c buf =>
    simp only [endOfLine] at h
    split_ifs at h with hcr hlf
    · subst hcr
      obtain ⟨d, rest', hd, heq⟩ := Scan.bind_eq_done h
      obtain ⟨-, rfl⟩ := Scan.done.inj heq
      rw [isCompleteLoop_cr, hd, Scan.bind_done]
    · subst hlf
      obtain ⟨-, rfl⟩ := Scan.done.inj h
      exact isCompleteLoop_lf n buf

/-- One token and the separator after it reset the counter. -/
theorem isCompleteLoop_token_skipSpaces {ok : UInt8 → Bool} (hok : ∀ c, ok c = true → Plain c)
    {buf tok rest sps rest' : Bytes}
    (htok : takeUntil PhrError.invalid (fun c => c = sp) ok buf = .done tok rest)
    (hsk : skipSpaces rest = .done sps rest') (n : ℕ) :
    isCompleteLoop n buf = isCompleteLoop 0 rest' := by
  obtain ⟨rfl, htokp, d, t, rfl, hd⟩ := takeUntil_eq_done htok
  obtain ⟨e, u, hone, hskip⟩ := Scan.bind_eq_done hsk
  obtain ⟨hcons, -⟩ := one_eq_done hone
  obtain ⟨rfl, rfl⟩ := List.cons.inj hcons
  obtain ⟨rfl, hsps, -⟩ := takeUntil_eq_done hskip
  have hdp : Plain d := by
    have : d = sp := by simpa using hd
    subst this
    exact ⟨by decide, by decide⟩
  have hsplit : tok ++ d :: (sps ++ rest') = (tok ++ d :: sps) ++ rest' := by simp
  rw [hsplit]
  refine isCompleteLoop_plain (by simp) ?_ n rest'
  intro c hc
  rcases List.mem_append.mp hc with hc | hc
  · exact hok c (htokp c hc).2
  · rcases List.mem_cons.mp hc with rfl | hc
    · exact hdp
    · have hcs : c = sp := by simpa using (hsps c hc).1
      subst hcs
      exact ⟨by decide, by decide⟩

theorem expectBytes_eq_done {s buf rest : Bytes} (h : expectBytes s buf = .done () rest) :
    buf = s ++ rest := by
  induction s generalizing buf with
  | nil => exact (Scan.done.inj h).2
  | cons ch s ih =>
    obtain ⟨d, buf', hd, hs⟩ := Scan.bind_eq_done h
    obtain ⟨rfl, hch⟩ := one_eq_done hd
    have hdch : d = ch := by simpa using hch
    rw [ih hs, hdch, List.cons_append]

theorem isCompleteLoop_parseHttpVersion {buf rest : Bytes} {v : Int}
    (h : parseHttpVersion buf = .done v rest) (n : ℕ) :
    isCompleteLoop n buf = isCompleteLoop 0 rest := by
  unfold parseHttpVersion at h
  split_ifs at h
  obtain ⟨_, buf', hb, hi⟩ := Scan.bind_eq_done h
  obtain ⟨c, buf'', hc, heq⟩ := Scan.bind_eq_done hi
  obtain ⟨-, rfl⟩ := Scan.done.inj heq
  obtain ⟨rfl, hdig⟩ := one_eq_done hc
  rw [expectBytes_eq_done hb]
  have hcp : Plain c := by
    constructor <;> rintro rfl <;> exact absurd hdig (by decide)
  have hsplit : [72, 84, 84, 80, 47, 49, 46] ++ c :: buf'' =
      ([72, 84, 84, 80, 47, 49, 46, c] : Bytes) ++ buf'' := by simp
  rw [hsplit]
  refine isCompleteLoop_plain (by simp) ?_ n buf''
  intro d hd
  simp only [List.mem_cons, List.not_mem_nil, or_false] at hd
  rcases hd with rfl | rfl | rfl | rfl | rfl | rfl | rfl | rfl
  all_goals first
    | exact hcp
    | exact ⟨by decide, by decide⟩

theorem isCompleteLoop_skipFirstLine {buf rest : Bytes} (h : skipFirstLine buf = .done () rest) :
    ∃ n, isCompleteLoop 0 buf = isCompleteLoop n rest := by
  cases buf with
  | nil => exact absurd h (by simp [skipFirstLine])
  | cons c buf =>
    simp only [skipFirstLine] at h
    split_ifs at h with hcr hlf
    · subst hcr
      obtain ⟨d, rest', hd, heq⟩ := Scan.bind_eq_done h
      obtain ⟨-, rfl⟩ := Scan.done.inj heq
      exact ⟨1, by rw [isCompleteLoop_cr, hd, Scan.bind_done]; rfl⟩
    · subst hlf
      obtain ⟨-, rfl⟩ := Scan.done.inj h
      exact ⟨1, isCompleteLoop_lf 0 buf⟩
    · obtain ⟨-, rfl⟩ := Scan.done.inj h
      exact ⟨0, rfl⟩

/-- After the request line the scan has seen one line end. -/
theorem isCompleteLoop_parseRequestLine {buf rest : Bytes} {line : Bytes × Bytes × Int}
    (h : parseRequestLine buf = .done line rest) :
    isCompleteLoop 0 buf = isCompleteLoop 1 rest := by
  obtain ⟨_, b1, h1, h⟩ := Scan.bind_eq_done h
  obtain ⟨method, b2, h2, h⟩ := Scan.bind_eq_done h
  obtain ⟨s1, b3, h3, h⟩ := Scan.bind_eq_done h
  obtain ⟨path, b4, h4, h⟩ := Scan.bind_eq_done h
  obtain ⟨s2, b5, h5, h⟩ := Scan.bind_eq_done h
  split_ifs at h
  obtain ⟨v, b6, h6, h⟩ := Scan.bind_eq_done h
  obtain ⟨_, b7, h7, h⟩ := Scan.bind_eq_done h
  obtain ⟨-, rfl⟩ := Scan.done.inj h
  obtain ⟨n, hn⟩ := isCompleteLoop_skipFirstLine h1
  calc isCompleteLoop 0 buf = isCompleteLoop n b1 := hn
    _ = isCompleteLoop 0 b3 :=
        isCompleteLoop_token_skipSpaces (fun c => plain_of_tokenCharMap) h2 h3 n
    _ = isCompleteLoop 0 b5 :=
        isCompleteLoop_token_skipSpaces (fun c => plain_of_pathChar) h4 h5 0
    _ = isCompleteLoop 0 b6 := isCompleteLoop_parseHttpVersion h6 0
    _ = isCompleteLoop 1 b7 := isCompleteLoop_endOfLine h7 0

/-- A header value that starts with a plain byte, or that is scanned with the
counter at zero, leaves the counter at one. -/
theorem isCompleteLoop_getTokenToEol {buf value rest : Bytes}
    (h : getTokenToEol buf = .done value rest) {n : ℕ} (hn : n = 0 ∨ value ≠ []) :
    isCompleteLoop n buf = isCompleteLoop 1 rest := by
  obtain ⟨tok, b1, h1, h2⟩ := Scan.bind_eq_done h
  obtain ⟨_, b2, h3, h4⟩ := Scan.bind_eq_done h2
  obtain ⟨rfl, rfl⟩ := Scan.done.inj h4
  obtain ⟨rfl, hpl, -⟩ := takeUntil_eq_done h1
  have hloop : isCompleteLoop n (tok ++ b1) = isCompleteLoop 0 b1 := by
    by_cases htok : tok = []
    · rcases hn with rfl | hn
      · rw [htok, List.nil_append]
      · exact absurd htok hn
    · exact isCompleteLoop_plain htok (fun c hc => plain_of_eolStop (hpl c hc).1) n b1
  rw [hloop, isCompleteLoop_endOfLine h3]
  rfl

/-- One header line, name and value. -/
theorem isCompleteLoop_headerLine {slots k : ℕ} {c : UInt8} {buf b1 value rest : Bytes}
    {name : Option Bytes} (h1 : parseHeaderName slots k (c :: buf) = .done name b1)
    (h2 : getTokenToEol b1 = .done value rest) (n : ℕ) :
    isCompleteLoop n (c :: buf) = isCompleteLoop 1 rest := by
  simp only [parseHeaderName] at h1
  split_ifs at h1 with hblank hslots
  · -- a continuation line: the value starts with the blank the line starts with
    obtain ⟨-, rfl⟩ := Scan.done.inj h1
    refine isCompleteLoop_getTokenToEol h2 (Or.inr ?_)
    rintro rfl
    obtain ⟨tok, b2, ht, h3⟩ := Scan.bind_eq_done h2
    obtain ⟨-, b3, -, h4⟩ := Scan.bind_eq_done h3
    obtain ⟨rfl, -⟩ := Scan.done.inj h4
    obtain ⟨hb2, -, d, t, hdt, hstop⟩ := takeUntil_eq_done ht
    rw [List.nil_append, hdt] at hb2
    obtain ⟨rfl, -⟩ := List.cons.inj hb2
    have hb := hblank.2
    unfold isBlank at hb
    simp only [Bool.or_eq_true, decide_eq_true_eq] at hb
    rcases hb with rfl | rfl
    · exact absurd hstop (by decide)
    · exact absurd hstop (by decide)
  · obtain ⟨nm, b2, -, h3⟩ := Scan.bind_eq_done h1
    exact absurd h3 (by simp)
  · obtain ⟨nm, b2, htok, h3⟩ := Scan.bind_eq_done h1
    split_ifs at h3 with hnm
    obtain ⟨d, b3, hone, h4⟩ := Scan.bind_eq_done h3
    obtain ⟨sps, b4, hskip, h5⟩ := Scan.bind_eq_done h4
    obtain ⟨-, rfl⟩ := Scan.done.inj h5
    obtain ⟨heq, hpl, e, t, rfl, he⟩ := takeUntil_eq_done htok
    obtain ⟨hcons, -⟩ := one_eq_done hone
    obtain ⟨rfl, rfl⟩ := List.cons.inj hcons
    obtain ⟨rfl, hsps, -⟩ := takeUntil_eq_done hskip
    have hcolon : e = colon := by simpa using he
    have hsplit : nm ++ e :: (sps ++ b4) = (nm ++ e :: sps) ++ b4 := by simp
    rw [heq, hsplit]
    have hplain : ∀ x ∈ nm ++ e :: sps, Plain x := by
      intro x hx
      rcases List.mem_append.mp hx with hx | hx
      · exact plain_of_tokenCharMap (hpl x hx).2
      · rcases List.mem_cons.mp hx with rfl | hx
        · rw [hcolon]
          exact ⟨by decide, by decide⟩
        · exact plain_of_isBlank (by simpa using (hsps x hx).1)
    rw [isCompleteLoop_plain (by simp) hplain n b4]
    exact isCompleteLoop_getTokenToEol h2 (Or.inl rfl)

/-- The scan ends where the header loop ends. -/
theorem isCompleteLoop_parseHeaders {slots maxHeaders fuel : ℕ} {headers hs : List PhrHeader}
    {buf rest : Bytes} (h : parseHeaders slots maxHeaders fuel headers buf = .done hs rest) :
    isCompleteLoop 1 buf = .done () rest := by
  induction fuel generalizing headers buf with
  | zero => exact absurd h (by simp [parseHeaders])
  | succ fuel ih =>
    cases buf with
    | nil => exact absurd h (by simp [parseHeaders])
    | cons c buf =>
      simp only [parseHeaders] at h
      split_ifs at h with hcr hlf hmax
      · subst hcr
        obtain ⟨d, b1, hd, heq⟩ := Scan.bind_eq_done h
        obtain ⟨-, rfl⟩ := Scan.done.inj heq
        rw [isCompleteLoop_cr, hd, Scan.bind_done]
        rfl
      · subst hlf
        obtain ⟨-, rfl⟩ := Scan.done.inj h
        exact isCompleteLoop_lf 1 buf
      · obtain ⟨name, b1, h1, h2⟩ := Scan.bind_eq_done h
        obtain ⟨value, b2, h3, h4⟩ := Scan.bind_eq_done h2
        rw [isCompleteLoop_headerLine h1 h3 1]
        exact ih h4

/-- **The scan from the first byte ends where the parse ends.** -/
theorem isCompleteLoop_of_parseRequest {slots maxHeaders : ℕ} {buf rest : Bytes} {p : Parsed}
    (h : parseRequest slots maxHeaders buf = .done p rest) :
    isCompleteLoop 0 buf = .done () rest := by
  obtain ⟨line, b1, h1, h2⟩ := Scan.bind_eq_done h
  obtain ⟨hs, b2, h3, h4⟩ := Scan.bind_eq_done h2
  obtain ⟨-, rfl⟩ := Scan.done.inj h4
  rw [isCompleteLoop_parseRequestLine h1]
  exact isCompleteLoop_parseHeaders h3

/-- The scan reads something. -/
theorem length_lt_of_isCompleteLoop {n : ℕ} {buf rest : Bytes}
    (h : isCompleteLoop n buf = .done () rest) : rest.length < buf.length := by
  fun_induction isCompleteLoop n buf with
  | case1 | case2 | case5 => exact absurd h (by simp)
  | case3 | case6 =>
    rw [← (Scan.done.inj h).2]
    simp only [List.length_cons]
    omega
  | case4 n buf hn ih | case7 n buf hn hlf ih =>
    have hlt := ih h
    simp only [List.length_cons]
    omega
  | case8 n c buf hcr hlf ih =>
    have hlt := ih h
    simp only [List.length_cons]
    omega

/-! ## Starting the scan later -/

/-- A scan that is one line end ahead gives up later, not earlier. -/
theorem isCompleteLoop_zero_of_one {buf : Bytes} (h : isCompleteLoop 1 buf = .incomplete) :
    isCompleteLoop 0 buf = .incomplete := by
  cases buf with
  | nil => rfl
  | cons c buf =>
    by_cases hcr : c = cr
    · subst hcr
      rw [isCompleteLoop_cr] at h ⊢
      cases hd : expectChar lf buf with
      | done d rest => rw [hd] at h; exact absurd h (by simp)
      | fail e => rw [hd] at h; exact absurd h (by simp)
      | incomplete => rfl
    · by_cases hlf : c = lf
      · subst hlf
        rw [isCompleteLoop_lf] at h
        exact absurd h (by simp)
      · rwa [isCompleteLoop_other _ _ hcr hlf] at h ⊢

/-- An undecided scan stays undecided when it starts one byte later. -/
theorem isCompleteLoop_tail_incomplete {n : ℕ} (hn : n < 2) {c : UInt8} {buf : Bytes}
    (h : isCompleteLoop n (c :: buf) = .incomplete) : isCompleteLoop 0 buf = .incomplete := by
  have hnext : ∀ {b : Bytes}, (if n + 1 = 2 then .done () b else isCompleteLoop (n + 1) b :
      Scan PhrError UInt8 Unit) = .incomplete → n = 0 ∧ isCompleteLoop 1 b = .incomplete := by
    intro b hb
    split_ifs at hb with h2
    have h0 : n = 0 := by omega
    rw [h0] at hb
    exact ⟨h0, hb⟩
  by_cases hcr : c = cr
  · subst hcr
    rw [isCompleteLoop_cr] at h
    cases buf with
    | nil => rfl
    | cons d b =>
      by_cases hd : d = lf
      · subst hd
        -- the start splits a `CR LF`: the bare `LF` counts like the pair
        rw [isCompleteLoop_lf]
        simp only [expectChar, one, decide_true, if_true, Scan.bind_done] at h
        exact (hnext h).2
      · simp [expectChar, one, hd] at h
  · by_cases hlf : c = lf
    · subst hlf
      rw [isCompleteLoop_lf] at h
      exact isCompleteLoop_zero_of_one (hnext h).2
    · rwa [isCompleteLoop_other _ _ hcr hlf] at h

/-- **Starting later finds nothing that starting first does not find.** -/
theorem isCompleteLoop_drop_incomplete {buf : Bytes} (h : isCompleteLoop 0 buf = .incomplete)
    (k : ℕ) : isCompleteLoop 0 (buf.drop k) = .incomplete := by
  induction k generalizing buf with
  | zero => exact h
  | succ k ih =>
    cases buf with
    | nil => rfl
    | cons c buf =>
      rw [List.drop_succ_cons]
      exact ih (isCompleteLoop_tail_incomplete (by omega) h)

/-- A scan that ends at `rest` still ends there when it starts one byte later, if
more than three bytes are left before `rest`. -/
theorem isCompleteLoop_tail_done {c : UInt8} {buf rest : Bytes}
    (h : isCompleteLoop 0 (c :: buf) = .done () rest) (hlen : rest.length + 3 ≤ buf.length) :
    isCompleteLoop 0 buf = .done () rest := by
  by_cases hcr : c = cr
  · subst hcr
    rw [isCompleteLoop_cr] at h
    obtain ⟨d, b, hd, h2⟩ := Scan.bind_eq_done h
    obtain ⟨rfl, hdl⟩ := one_eq_done hd
    have hdlf : d = lf := by simpa using hdl
    rw [hdlf, isCompleteLoop_lf]
    exact h2
  · by_cases hlf : c = lf
    · subst hlf
      rw [isCompleteLoop_lf] at h
      -- the counter is at one: a line end here would leave at most two bytes before `rest`
      change isCompleteLoop 1 buf = .done () rest at h
      cases buf with
      | nil => exact absurd h (by simp [isCompleteLoop])
      | cons d b =>
        rw [List.length_cons] at hlen
        by_cases hdcr : d = cr
        · subst hdcr
          rw [isCompleteLoop_cr] at h
          obtain ⟨e, b', he, h2⟩ := Scan.bind_eq_done h
          obtain ⟨rfl, -⟩ := one_eq_done he
          obtain ⟨-, rfl⟩ := Scan.done.inj h2
          rw [List.length_cons] at hlen
          omega
        · by_cases hdlf : d = lf
          · subst hdlf
            rw [isCompleteLoop_lf] at h
            obtain ⟨-, rfl⟩ := Scan.done.inj h
            omega
          · rwa [isCompleteLoop_other _ _ hdcr hdlf] at h ⊢
    · rwa [isCompleteLoop_other _ _ hcr hlf] at h

/-- **Starting later still finds the blank line**, four bytes before it. -/
theorem isCompleteLoop_drop_done {buf rest : Bytes} (h : isCompleteLoop 0 buf = .done () rest)
    {k : ℕ} (hk : k + rest.length + 4 ≤ buf.length ∨ k = 0) :
    isCompleteLoop 0 (buf.drop k) = .done () rest := by
  induction k generalizing buf with
  | zero => exact h
  | succ k ih =>
    cases buf with
    | nil => simp only [List.length_nil] at hk; omega
    | cons c buf =>
      rw [List.length_cons] at hk
      rw [List.drop_succ_cons]
      exact ih (isCompleteLoop_tail_done h (by omega)) (by omega)

/-! ## The two facts the receive loops use -/

/-- On a proper prefix of an accepted header block every parse is incomplete,
whatever `last_len` says. -/
theorem phrParseRequest_cut {slots maxHeaders lastLen : ℕ} {p x : Bytes} {r : Parsed}
    (h : parseRequest slots maxHeaders (p ++ x) = .done r []) (hx : x ≠ []) :
    phrParseRequest slots maxHeaders lastLen p = .incomplete := by
  have hreq : parseRequest slots maxHeaders p = .incomplete :=
    (stable_parseRequest slots maxHeaders).incomplete_of_append h hx
  have hloop : isCompleteLoop 0 p = .incomplete :=
    (stable_isCompleteLoop 0).incomplete_of_append (isCompleteLoop_of_parseRequest h) hx
  unfold phrParseRequest isComplete
  split_ifs
  · rw [isCompleteLoop_drop_incomplete hloop, Scan.bind_incomplete]
  · exact hreq

/-- On the whole block the incremental parse is the one-shot parse. -/
theorem phrParseRequest_whole {slots maxHeaders lastLen : ℕ} {buf rest : Bytes} {r : Parsed}
    (h : parseRequest slots maxHeaders buf = .done r rest)
    (hlast : lastLen + rest.length < buf.length) :
    phrParseRequest slots maxHeaders lastLen buf = .done r rest := by
  have hloop : isCompleteLoop 0 (buf.drop (lastLen - 3)) = .done () rest :=
    isCompleteLoop_drop_done (isCompleteLoop_of_parseRequest h) (by omega)
  unfold phrParseRequest isComplete
  split_ifs
  · rw [hloop, Scan.bind_done]
    exact h
  · exact h

end Pico
end BareHttp
