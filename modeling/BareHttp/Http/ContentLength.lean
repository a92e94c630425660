import BareHttp.Http.Request
import Mathlib.Data.List.TakeWhile
import Mathlib.Tactic.Ring

/-!
# Reading a declared length

`http_get_content_length` copies the value of the header to an array of sixteen bytes, cuts
it to fifteen, and gives it to `atoi`, whose result is an `int`.  Both steps can turn a
number into another one.  The cut keeps the first digits, so a number with leading zeros
loses its last ones; the conversion keeps the number modulo `2 ^ 32`, so a large number can
become a small one, and with sixteen digits or more both happen.

`decoded_iff` says exactly which values are read as they should be: a number that an `int`
holds as itself, any other as a length that no caller accepts.
-/

namespace BareHttp

/-! ## Decimal numbers -/

theorem foldl_decimal (s : Bytes) (k : ℕ) :
    s.foldl (fun n c => 10 * n + (c.toNat - 48)) k = k * 10 ^ s.length + decimal s := by
  induction s generalizing k with
  | nil => simp [decimal]
  | cons c s ih =>
    simp only [decimal, List.foldl_cons, List.length_cons] at ih ⊢
    rw [ih, ih (10 * 0 + (c.toNat - 48)), Nat.pow_succ]
    ring

/-- A number in two parts. -/
theorem decimal_append (s t : Bytes) :
    decimal (s ++ t) = decimal s * 10 ^ t.length + decimal t := by
  rw [decimal, List.foldl_append]
  exact foldl_decimal t _

/-- A number is at least its first digits, and more than these if it is not zero. -/
theorem decimal_eq_append_iff {s t : Bytes} (ht : t ≠ []) :
    decimal s = decimal (s ++ t) ↔ decimal (s ++ t) = 0 := by
  have hpow : 10 ≤ 10 ^ t.length := Nat.le_self_pow (Nat.ne_of_gt (List.length_pos_of_ne_nil ht)) 10
  have hgrows : decimal s * 10 ≤ decimal s * 10 ^ t.length := Nat.mul_le_mul_left _ hpow
  rw [decimal_append]
  omega

/-! ## `atoi` -/

/-- A decimal digit is neither a blank nor a sign. -/
theorem isDigit_iff {c : UInt8} (h : isDigit c = true) : isSpace c = false ∧ c ≠ 45 ∧ c ≠ 43 := by
  simp only [isDigit, Bool.and_eq_true, decide_eq_true_eq, UInt8.le_iff_toNat_le] at h
  have hge : 48 ≤ c.toNat := h.1
  have hne : ∀ d : UInt8, d.toNat < 48 → c ≠ d := fun d hd heq => by rw [heq] at hge; omega
  refine ⟨?_, hne 45 (by decide), hne 43 (by decide)⟩
  have hbig : ¬ c.toNat ≤ 13 := by omega
  simp [isSpace, UInt8.le_iff_toNat_le, hbig, hne 32 (by decide)]

/-- **`atoi` of digits alone.** -/
theorem atoi_of_digits {s : Bytes} (hne : s ≠ []) (hdigits : ∀ c ∈ s, isDigit c = true) :
    atoi s = CInt.toInt32 (decimal s) := by
  obtain ⟨c, s, rfl⟩ := List.exists_cons_of_ne_nil hne
  obtain ⟨hspace, hminus, hplus⟩ := isDigit_iff (hdigits c List.mem_cons_self)
  have hskip : (c :: s).dropWhile isSpace = c :: s := by simp [hspace]
  have hall : (c :: s).takeWhile isDigit = c :: s := List.takeWhile_eq_self_iff.mpr hdigits
  unfold atoi
  rw [hskip]
  split
  · next heq => exact absurd (List.cons.inj heq).1 hminus
  · next heq => exact absurd (List.cons.inj heq).1 hplus
  · rw [hall]

/-! ## The value of the header -/

/-- **The length a value stands for was returned**: the number itself where an `int` holds
it, and otherwise nothing that is accepted as the length of a body. -/
def Decoded (value : Bytes) (result : Int) : Prop :=
  (decimal value ≤ 2147483647 → result = decimal value) ∧
    (2147483647 < decimal value → ¬ (0 ≤ result ∧ result ≤ maxBuffr))

/-- The first header with the name, and its value of digits. -/
structure DigitsDeclared (request : HttpRequest) (value : Bytes) : Prop where
  found : ∃ name, request.headers.find? (fun h => h.name = some (ascii "Content-Length")) =
    some ⟨name, value⟩
  ne_nil : value ≠ []
  digits : ∀ c ∈ value, isDigit c = true

/-- **What is returned**: the number of the first fifteen digits, as an `int`. -/
theorem httpGetContentLength_of_digits {request : HttpRequest} {value : Bytes}
    (h : DigitsDeclared request value) :
    httpGetContentLength request = CInt.toInt32 (decimal (value.take (maxHeaderValueLen - 1))) := by
  obtain ⟨name, hfind⟩ := h.found
  have hne : value.take (maxHeaderValueLen - 1) ≠ [] := by
    simpa [maxHeaderValueLen] using h.ne_nil
  simp only [httpGetContentLength, hfind]
  exact atoi_of_digits hne fun c hc => h.digits c (List.mem_of_mem_take hc)

/-- A number that becomes an `int` between zero and the size of the buffer. -/
theorem toInt32_mem_iff (n : ℕ) :
    (0 ≤ CInt.toInt32 n ∧ CInt.toInt32 n ≤ maxBuffr) ↔ n % 4294967296 ≤ maxBuffr := by
  unfold CInt.toInt32
  rw [maxBuffr_eq]
  omega

/-- **Which lengths are read as declared.**  A number below `2 ^ 31` is if it has at most
fifteen digits or is zero; any other is if its first fifteen digits are not congruent to an
acceptable length modulo `2 ^ 32`. -/
theorem decoded_iff {request : HttpRequest} {value : Bytes} (h : DigitsDeclared request value) :
    Decoded value (httpGetContentLength request) ↔
      (decimal value ≤ 2147483647 → value.length ≤ maxHeaderValueLen - 1 ∨ decimal value = 0) ∧
        (2147483647 < decimal value →
          maxBuffr < decimal (value.take (maxHeaderValueLen - 1)) % 4294967296) := by
  rw [httpGetContentLength_of_digits h]
  refine and_congr ?_ ?_
  · refine imp_congr_right fun hsmall => ?_
    -- the number that is read is not larger than the number declared, so it is an `int`
    have hsplit := List.take_append_drop (maxHeaderValueLen - 1) value
    by_cases hlong : value.length ≤ maxHeaderValueLen - 1
    · rw [List.take_of_length_le hlong, CInt.toInt32_of_mem (by omega) (by omega)]
      simp [hlong]
    · have hrest : value.drop (maxHeaderValueLen - 1) ≠ [] := by
        simpa [List.drop_eq_nil_iff] using hlong
      have hiff := decimal_eq_append_iff (s := value.take (maxHeaderValueLen - 1)) hrest
      have hle : decimal (value.take (maxHeaderValueLen - 1)) ≤ decimal value := by
        conv_rhs => rw [← hsplit, decimal_append]
        exact (Nat.le_mul_of_pos_right _ (Nat.pow_pos (by decide))).trans (Nat.le_add_right _ _)
      rw [hsplit] at hiff
      rw [CInt.toInt32_of_mem (by omega) (by omega), Int.natCast_inj, hiff]
      simp [hlong]
  · rw [toInt32_mem_iff, Nat.not_le]

/-- A short number. -/
theorem decoded_of_twelve : ∃ request, DigitsDeclared request (ascii "12") ∧
    httpGetContentLength request = 12 ∧ Decoded (ascii "12") (httpGetContentLength request) := by
  have h : DigitsDeclared
      { HttpRequest.zeroed with headers := [⟨some (ascii "Content-Length"), ascii "12"⟩] }
      (ascii "12") := ⟨⟨_, rfl⟩, by decide, by decide +kernel⟩
  exact ⟨_, h, by decide, (decoded_iff h).mpr ⟨fun _ => .inl (by decide), by decide⟩⟩

/-- **A length of four gigabytes and five** is read as five. -/
theorem longLength_not_decoded : ∃ request, DigitsDeclared request (ascii "4294967301") ∧
    httpGetContentLength request = 5 ∧
      ¬ Decoded (ascii "4294967301") (httpGetContentLength request) := by
  refine ⟨{ HttpRequest.zeroed with
    headers := [⟨some (ascii "Content-Length"), ascii "4294967301"⟩] },
    ⟨⟨_, rfl⟩, by decide, by decide +kernel⟩, by decide, fun h => ?_⟩
  exact h.2 (by decide) (by decide)

end BareHttp
