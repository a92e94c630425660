import BareHttp.Parser.Pico

/-!
# More input does not change a decided parse

Every function of the parser is `Scanner.Stable`: once it has answered, with a
value or with an error, appending bytes changes nothing but the rest.  The only
place where this is not a composition rule is `parse_http_version`, which refuses
to look at fewer than nine bytes; the answer it then gives depends on eight.

`parseHeaders` is the one loop with a fuel argument.  `parseHeaders_fuel` says
that a decided answer does not depend on the fuel, which is what makes the fuel
of `parseRequest`, computed from the buffer, harmless when the buffer grows.
-/

namespace BareHttp
namespace Pico

open Scanner

theorem stable_expectChar (ch : UInt8) : Stable (expectChar ch) := stable_one _ _

theorem stable_parseToken (nextChar : UInt8) : Stable (parseToken nextChar) :=
  stable_takeUntil _ _ _

theorem stable_advanceToken : Stable advanceToken := stable_takeUntil _ _ _

theorem stable_skipWhile (p : UInt8 → Bool) : Stable (skipWhile p) := stable_takeUntil _ _ _

theorem stable_skipSpaces : Stable skipSpaces :=
  (stable_one _ _).bind fun _ => stable_skipWhile _

/-- The line end after a carriage return. -/
theorem stable_expectLf {α : Type} (a : α) :
    Stable fun buf => (expectChar lf buf).bind fun _ buf => (Scan.done a buf : Scan _ UInt8 α) :=
  (stable_expectChar lf).bind fun _ => Stable.pure a

theorem stable_endOfLine : Stable endOfLine := by
  refine Stable.of_head rfl fun c => ?_
  simp only [endOfLine]
  exact Stable.ite _ (stable_expectLf ())
    (Stable.ite _ (Stable.pure ()) (Stable.const_fail _))

theorem stable_skipFirstLine : Stable skipFirstLine := by
  refine Stable.of_head rfl fun c => ?_
  simp only [skipFirstLine]
  exact Stable.ite _ (stable_expectLf ())
    (Stable.ite _ (Stable.pure ()) ((Stable.pure ()).cons c))

theorem stable_getTokenToEol : Stable getTokenToEol :=
  (stable_takeUntil _ _ _).bind fun token => stable_endOfLine.bind fun _ => Stable.pure token

/-- Reading off the loop of `is_complete` one symbol at a time. -/
theorem isCompleteLoop_cr (n : ℕ) (buf : Bytes) :
    isCompleteLoop n (cr :: buf) =
      (expectChar lf buf).bind fun _ buf =>
        if n + 1 = 2 then .done () buf else isCompleteLoop (n + 1) buf := by
  cases buf with
  | nil => simp [isCompleteLoop, expectChar, Scanner.one]
  | cons d buf =>
    by_cases hd : d = lf
    · simp [isCompleteLoop, expectChar, Scanner.one, hd]
    · simp [isCompleteLoop, expectChar, Scanner.one, hd]

theorem isCompleteLoop_lf (n : ℕ) (buf : Bytes) :
    isCompleteLoop n (lf :: buf) =
      if n + 1 = 2 then .done () buf else isCompleteLoop (n + 1) buf := by
  cases buf <;> simp [isCompleteLoop]

theorem isCompleteLoop_other (n : ℕ) {c : UInt8} (buf : Bytes) (hcr : c ≠ cr) (hlf : c ≠ lf) :
    isCompleteLoop n (c :: buf) = isCompleteLoop 0 buf := by
  cases buf <;> simp [isCompleteLoop, hcr, hlf]

theorem stable_isCompleteLoop (n : ℕ) : Stable (isCompleteLoop n) := by
  intro p x hne
  fun_induction isCompleteLoop n p with
  | case1 n => exact absurd rfl hne
  | case2 n => exact absurd rfl hne
  | case3 n p h2 => simp [isCompleteLoop_cr, expectChar, one, h2]
  | case4 n p h2 ih =>
    rw [List.cons_append, List.cons_append, isCompleteLoop_cr]
    simpa [expectChar, one, h2] using ih hne
  | case5 n d p hd => simp [isCompleteLoop_cr, expectChar, one, hd]
  | case6 n p h2 _ => simp [isCompleteLoop_lf, h2]
  | case7 n p h2 _ ih =>
    rw [List.cons_append, isCompleteLoop_lf, if_neg h2]
    exact ih hne
  | case8 n c p hcr hlf ih =>
    rw [List.cons_append, isCompleteLoop_other n _ hcr hlf]
    exact ih hne

theorem stable_expectBytes (s : Bytes) : Stable (expectBytes s) := by
  induction s with
  | nil => exact Stable.pure ()
  | cons ch s ih => exact (stable_expectChar ch).bind fun _ => ih

theorem stable_parseInt : Stable parseInt := (stable_one _ _).bind fun _ => Stable.pure _

theorem stable_parseHttpVersion : Stable parseHttpVersion := by
  intro p x hne
  unfold parseHttpVersion at hne ⊢
  by_cases hp : p.length < 9
  · exact absurd (if_pos hp) hne
  · have hpx : ¬ (p ++ x).length < 9 := by rw [List.length_append]; omega
    rw [if_neg hp] at hne
    rw [if_neg hp, if_neg hpx]
    exact ((stable_expectBytes _).bind fun _ => stable_parseInt) p x hne

theorem stable_parseHeaderName (slots n : ℕ) : Stable (parseHeaderName slots n) := by
  refine Stable.of_head rfl fun c => ?_
  simp only [parseHeaderName]
  refine Stable.ite _ (Stable.ite _ (Stable.const_fail _) ((Stable.pure none).cons c)) ?_
  refine ((stable_parseToken colon).cons c).bind fun name => ?_
  refine Stable.ite _ (Stable.const_fail _) (Stable.ite _ (Stable.const_fail _) ?_)
  exact (stable_one _ _).bind fun _ => (stable_skipWhile _).bind fun _ => Stable.pure _

theorem stable_parseHeaders (slots maxHeaders fuel : ℕ) (headers : List PhrHeader) :
    Stable (parseHeaders slots maxHeaders fuel headers) := by
  induction fuel generalizing headers with
  | zero => exact fun p x hne => absurd rfl hne
  | succ fuel ih =>
    refine Stable.of_head rfl fun c => ?_
    simp only [parseHeaders]
    refine Stable.ite _ (stable_expectLf headers) (Stable.ite _ (Stable.pure headers) ?_)
    refine Stable.ite _ (Stable.const_fail _) ?_
    refine ((stable_parseHeaderName slots headers.length).cons c).bind fun name => ?_
    exact stable_getTokenToEol.bind fun value => ih _

theorem stable_parseRequestLine : Stable parseRequestLine := by
  refine stable_skipFirstLine.bind fun _ => (stable_parseToken sp).bind fun method => ?_
  refine stable_skipSpaces.bind fun _ => stable_advanceToken.bind fun path => ?_
  refine stable_skipSpaces.bind fun _ => Stable.ite _ (Stable.const_fail _) ?_
  exact stable_parseHttpVersion.bind fun v => stable_endOfLine.bind fun _ => Stable.pure _

/-! ## The fuel of the header loop -/

/-- A decided answer of the header loop does not depend on the fuel. -/
theorem parseHeaders_fuel {slots maxHeaders fuel : ℕ} {headers : List PhrHeader} {buf : Bytes}
    (h : parseHeaders slots maxHeaders fuel headers buf ≠ .incomplete) (k : ℕ) :
    parseHeaders slots maxHeaders (fuel + k) headers buf =
      parseHeaders slots maxHeaders fuel headers buf := by
  induction fuel generalizing headers buf with
  | zero => exact absurd rfl h
  | succ fuel ih =>
    rw [Nat.add_right_comm]
    cases buf with
    | nil => exact absurd rfl h
    | cons c buf =>
      simp only [parseHeaders] at h ⊢
      split_ifs at h ⊢
      · rfl
      · rfl
      · rfl
      · cases hn : parseHeaderName slots headers.length (c :: buf) with
        | fail e => rfl
        | incomplete => rfl
        | done name rest =>
          simp only [hn, Scan.bind_done] at h ⊢
          cases hv : getTokenToEol rest with
          | fail e => rfl
          | incomplete => rfl
          | done value rest' =>
            simp only [hv, Scan.bind_done] at h ⊢
            exact ih h

/-- **A decided parse survives more input**, whatever the header limit. -/
theorem stable_parseRequest (slots maxHeaders : ℕ) : Stable (parseRequest slots maxHeaders) := by
  refine stable_parseRequestLine.bind fun line => ?_
  intro p x hne
  have hp : parseHeaders slots maxHeaders (p.length + 1) [] p ≠ .incomplete := by
    intro h
    exact hne (by simp only [h, Scan.bind_incomplete])
  have hfuel : parseHeaders slots maxHeaders ((p ++ x).length + 1) [] (p ++ x) =
      parseHeaders slots maxHeaders (p.length + 1) [] (p ++ x) := by
    have hpx : parseHeaders slots maxHeaders (p.length + 1) [] (p ++ x) ≠ .incomplete := by
      rw [stable_parseHeaders slots maxHeaders _ _ p x hp]
      cases hh : parseHeaders slots maxHeaders (p.length + 1) [] p with
      | done hs rest => simp
      | fail e => simp
      | incomplete => exact absurd hh hp
    rw [← parseHeaders_fuel hpx x.length]
    congr 1
    rw [List.length_append]
    omega
  simp only [hfuel]
  exact ((stable_parseHeaders slots maxHeaders (p.length + 1) []).bind
    fun headers => Stable.pure _) p x hne

/-! ## The header limit -/

theorem takeUntil_ne_overrun (stop ok : UInt8 → Bool) (buf : Bytes) :
    takeUntil PhrError.invalid stop ok buf ≠ .fail .overrun := by
  induction buf with
  | nil => simp [takeUntil]
  | cons c buf ih =>
    unfold takeUntil
    split_ifs
    · simp
    · cases h : takeUntil PhrError.invalid stop ok buf with
      | done tok rest => simp
      | fail e => rw [h] at ih; simpa using ih
      | incomplete => simp
    · simp

theorem one_ne_overrun (ok : UInt8 → Bool) (buf : Bytes) :
    one PhrError.invalid ok buf ≠ .fail .overrun := by
  cases buf with
  | nil => simp [one]
  | cons c buf => simp only [one]; split_ifs <;> simp

/-- A failure of a sequence is a failure of one of its parts. -/
theorem bind_ne_overrun {α β : Type} {s : Scan PhrError UInt8 α}
    {k : α → Bytes → Scan PhrError UInt8 β} (hs : s ≠ .fail .overrun)
    (hk : ∀ a rest, k a rest ≠ .fail .overrun) : s.bind k ≠ .fail .overrun := by
  cases s with
  | done a rest => exact hk a rest
  | fail e => simpa using hs
  | incomplete => simp

theorem expectLf_ne_overrun {α : Type} (a : α) (buf : Bytes) :
    ((expectChar lf buf).bind fun _ buf => (.done a buf : Scan PhrError UInt8 α)) ≠
      .fail .overrun :=
  bind_ne_overrun (one_ne_overrun _ _) fun _ _ => by simp

theorem endOfLine_ne_overrun (buf : Bytes) : endOfLine buf ≠ .fail .overrun := by
  cases buf with
  | nil => simp [endOfLine]
  | cons c buf =>
    simp only [endOfLine]
    split_ifs
    · exact expectLf_ne_overrun _ _
    · simp
    · simp

theorem getTokenToEol_ne_overrun (buf : Bytes) : getTokenToEol buf ≠ .fail .overrun :=
  bind_ne_overrun (takeUntil_ne_overrun _ _ _) fun _ _ =>
    bind_ne_overrun (endOfLine_ne_overrun _) fun _ _ => by simp

theorem parseHeaderName_ne_overrun {slots n : ℕ} (h : n < slots) (buf : Bytes) :
    parseHeaderName slots n buf ≠ .fail .overrun := by
  have hn : ¬ slots ≤ n := by omega
  cases buf with
  | nil => simp [parseHeaderName]
  | cons c buf =>
    simp only [parseHeaderName, if_neg hn]
    split_ifs
    · simp
    · refine bind_ne_overrun (takeUntil_ne_overrun _ _ _) fun name rest => ?_
      split_ifs
      · simp
      · exact bind_ne_overrun (one_ne_overrun _ _) fun _ _ =>
          bind_ne_overrun (takeUntil_ne_overrun _ _ _) fun _ _ => by simp

/-- A limit equal to the size of the array keeps the header loop inside it. -/
theorem parseHeaders_ne_overrun {slots fuel : ℕ} {headers : List PhrHeader}
    (h : headers.length ≤ slots) (buf : Bytes) :
    parseHeaders slots slots fuel headers buf ≠ .fail .overrun := by
  induction fuel generalizing headers buf with
  | zero => simp [parseHeaders]
  | succ fuel ih =>
    cases buf with
    | nil => simp [parseHeaders]
    | cons c buf =>
      simp only [parseHeaders]
      split_ifs with h1 h2 hmax
      · exact expectLf_ne_overrun _ _
      · simp
      · simp
      · refine bind_ne_overrun (parseHeaderName_ne_overrun (by omega) _) fun name rest => ?_
        refine bind_ne_overrun (getTokenToEol_ne_overrun _) fun value rest => ?_
        exact ih (by rw [List.length_append, List.length_singleton]; omega) rest

theorem skipFirstLine_ne_overrun (buf : Bytes) : skipFirstLine buf ≠ .fail .overrun := by
  cases buf with
  | nil => simp [skipFirstLine]
  | cons c buf =>
    simp only [skipFirstLine]
    split_ifs
    · exact expectLf_ne_overrun _ _
    · simp
    · simp

theorem skipSpaces_ne_overrun (buf : Bytes) : skipSpaces buf ≠ .fail .overrun :=
  bind_ne_overrun (one_ne_overrun _ _) fun _ _ => takeUntil_ne_overrun _ _ _

theorem expectBytes_ne_overrun (s buf : Bytes) : expectBytes s buf ≠ .fail .overrun := by
  induction s generalizing buf with
  | nil => simp [expectBytes]
  | cons ch s ih => exact bind_ne_overrun (one_ne_overrun _ _) fun _ rest => ih rest

theorem parseHttpVersion_ne_overrun (buf : Bytes) : parseHttpVersion buf ≠ .fail .overrun := by
  unfold parseHttpVersion
  split_ifs
  · simp
  · refine bind_ne_overrun (expectBytes_ne_overrun _ _) fun _ _ => ?_
    exact bind_ne_overrun (one_ne_overrun _ _) fun _ _ => by simp

theorem parseRequestLine_ne_overrun (buf : Bytes) : parseRequestLine buf ≠ .fail .overrun := by
  refine bind_ne_overrun (skipFirstLine_ne_overrun _) fun _ _ => ?_
  refine bind_ne_overrun (takeUntil_ne_overrun _ _ _) fun method _ => ?_
  refine bind_ne_overrun (skipSpaces_ne_overrun _) fun _ _ => ?_
  refine bind_ne_overrun (takeUntil_ne_overrun _ _ _) fun path _ => ?_
  refine bind_ne_overrun (skipSpaces_ne_overrun _) fun _ _ => ?_
  split_ifs
  · simp
  · exact bind_ne_overrun (parseHttpVersion_ne_overrun _) fun _ _ =>
      bind_ne_overrun (endOfLine_ne_overrun _) fun _ _ => by simp

theorem isCompleteLoop_ne_overrun (n : ℕ) (buf : Bytes) :
    isCompleteLoop n buf ≠ .fail .overrun := by
  fun_induction isCompleteLoop n buf <;> simp_all

/-- **With the limit equal to the size of the array, a parse stays inside it.** -/
theorem phrParseRequest_ne_overrun {slots lastLen : ℕ} {buf : Bytes} :
    phrParseRequest slots slots lastLen buf ≠ .fail .overrun := by
  have hreq : parseRequest slots slots buf ≠ .fail .overrun := by
    refine bind_ne_overrun (parseRequestLine_ne_overrun _) fun line rest => ?_
    exact bind_ne_overrun (parseHeaders_ne_overrun (by simp) rest) fun _ _ => by simp
  unfold phrParseRequest isComplete
  split_ifs
  · exact bind_ne_overrun (isCompleteLoop_ne_overrun _ _) fun _ _ => hreq
  · exact hreq

end Pico
end BareHttp
