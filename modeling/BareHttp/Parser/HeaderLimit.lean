import BareHttp.Parser.Stability

/-!
# A header limit above the size of the array

`phr_parse_request` is told how many headers it may store, and it is told wrongly
when the number is read through a pointer to a wider type.  With a limit of at least
the size of the array the answers differ from those for the right limit in one case
only: the block has more headers than the array has room for.  The right limit then
gives `-1`, and the wrong one never gives a count.
-/

namespace BareHttp
namespace Pico

open Scanner

/-- The answer under a larger limit against the answer under the right one. -/
def LimitAlike {α : Type} (wide right : Scan PhrError UInt8 α) : Prop :=
  wide = right ∨ (right = .fail .invalid ∧ ∀ a rest, wide ≠ .done a rest)

theorem LimitAlike.bind {α β : Type} {wide right : Scan PhrError UInt8 α}
    (h : LimitAlike wide right) (k : α → Parser β) : LimitAlike (wide.bind k) (right.bind k) := by
  rcases h with rfl | ⟨rfl, hne⟩
  · exact Or.inl rfl
  · refine Or.inr ⟨rfl, fun b rest hb => ?_⟩
    obtain ⟨a, rest', ha, -⟩ := Scan.bind_eq_done hb
    exact hne a rest' ha

/-- With no room left the name of a header is never stored. -/
theorem parseHeaderName_ne_done {slots n : ℕ} (h : slots ≤ n) (buf : Bytes)
    (a : Option Bytes) (rest : Bytes) : parseHeaderName slots n buf ≠ .done a rest := by
  cases buf with
  | nil => simp [parseHeaderName]
  | cons c buf =>
    simp only [parseHeaderName, if_pos h]
    split_ifs
    · simp
    · intro hb
      obtain ⟨name, rest', -, hk⟩ := Scan.bind_eq_done hb
      exact absurd hk (by simp)

theorem parseHeaders_limit {slots limit : ℕ} (hlim : slots ≤ limit) (fuel : ℕ)
    {headers : List PhrHeader} (hlen : headers.length ≤ slots) (buf : Bytes) :
    LimitAlike (parseHeaders slots limit fuel headers buf)
      (parseHeaders slots slots fuel headers buf) := by
  induction fuel generalizing headers buf with
  | zero => exact Or.inl rfl
  | succ fuel ih =>
    cases buf with
    | nil => exact Or.inl rfl
    | cons c buf =>
      simp only [parseHeaders]
      split_ifs with hcr hlf hl hs hs
      · exact Or.inl rfl
      · exact Or.inl rfl
      · exact Or.inl rfl
      · omega
      · refine Or.inr ⟨rfl, fun a rest hb => ?_⟩
        obtain ⟨name, rest', hname, -⟩ := Scan.bind_eq_done hb
        exact parseHeaderName_ne_done (Nat.le_of_eq hs.symm) _ _ _ hname
      · cases parseHeaderName slots headers.length (c :: buf) with
        | incomplete => exact Or.inl rfl
        | fail e => exact Or.inl rfl
        | done name buf' =>
          simp only [Scan.bind_done]
          cases getTokenToEol buf' with
          | incomplete => exact Or.inl rfl
          | fail e => exact Or.inl rfl
          | done value buf'' =>
            simp only [Scan.bind_done]
            exact ih (by simp only [List.length_append, List.length_singleton]; omega) buf''

theorem parseRequest_limit {slots limit : ℕ} (hlim : slots ≤ limit) (buf : Bytes) :
    LimitAlike (parseRequest slots limit buf) (parseRequest slots slots buf) := by
  unfold parseRequest
  cases parseRequestLine buf with
  | incomplete => exact Or.inl rfl
  | fail e => exact Or.inl rfl
  | done line buf' =>
    simp only [Scan.bind_done]
    exact (parseHeaders_limit hlim (buf'.length + 1) (Nat.zero_le _) buf').bind _

/-- **A limit above the size of the array changes the answer only from `-1`, and never
to a count.** -/
theorem phrParseRequest_limit {slots limit : ℕ} (hlim : slots ≤ limit) (lastLen : ℕ)
    (buf : Bytes) :
    LimitAlike (phrParseRequest slots limit lastLen buf)
      (phrParseRequest slots slots lastLen buf) := by
  unfold phrParseRequest
  split_ifs
  · cases isComplete lastLen buf with
    | incomplete => exact Or.inl rfl
    | fail e => exact Or.inl rfl
    | done a rest => exact parseRequest_limit hlim buf
  · exact parseRequest_limit hlim buf

/-- An answer other than `-1` does not depend on the limit. -/
theorem phrParseRequest_of_right {slots limit lastLen : ℕ} {buf : Bytes}
    {answer : Scan PhrError UInt8 Parsed} (hlim : slots ≤ limit)
    (h : phrParseRequest slots slots lastLen buf = answer) (hne : answer ≠ .fail .invalid) :
    phrParseRequest slots limit lastLen buf = answer := by
  rcases phrParseRequest_limit hlim lastLen buf with heq | ⟨hinvalid, -⟩
  · exact heq.trans h
  · exact absurd (h.symm.trans hinvalid) hne

/-- Where the larger limit waits and the right one refuses, it is the block itself that
is refused, and not the scan for its end. -/
theorem parseRequest_of_limit {slots limit lastLen : ℕ} {buf : Bytes} {e : PhrError}
    (hwide : phrParseRequest slots limit lastLen buf = .incomplete)
    (hright : phrParseRequest slots slots lastLen buf = .fail e) :
    parseRequest slots slots buf = .fail e := by
  unfold phrParseRequest at hwide hright
  split_ifs at hwide hright
  · cases hscan : isComplete lastLen buf with
    | incomplete =>
      rw [hscan] at hright
      exact absurd hright (by simp)
    | fail e' =>
      rw [hscan] at hwide
      exact absurd hwide (by simp)
    | done a rest =>
      rw [hscan] at hright
      exact hright
  · exact hright

end Pico
end BareHttp
