import BareHttp.Foundation.Buffer

/-!
# Bounded text

A text is printed into a buffer at a position, with a number of cells it may take and a cell that
ends it.  What does not fit is left out, and the end is always there; with no cells at all nothing
is printed.

`Held` says that a buffer holds a text from its beginning, with the end behind it.  A text that
fits behind another is appended to it (`Held.print`), and no cell beyond the bound is touched
(`print_of_ge`), whether it fits or not.
-/

namespace BareHttp
namespace BoundedText

open Buffer

variable {α : Type}

/-- The text `xs`, printed at position `off` into at most `n` cells and ended by `z`. -/
def print (z : α) (m : ℕ → α) (off n : ℕ) (xs : List α) : ℕ → α :=
  if n = 0 then m else write m off (xs.take (n - 1) ++ [z])

/-- The buffer holds a text and its end. -/
structure Held (z : α) (m : ℕ → α) (xs : List α) : Prop where
  text : slice m 0 xs.length = xs
  ended : m xs.length = z

variable {z : α} {m : ℕ → α} {off n i : ℕ} {xs ys : List α}

theorem print_of_ge (h : off + n ≤ i) : print z m off n xs i = m i := by
  unfold print
  split_ifs with hn
  · rfl
  · refine write_of_ge m _ ?_
    simp only [List.length_append, List.length_take, List.length_singleton]
    omega

/-- A text that fits is printed whole. -/
theorem print_eq_write (h : ys.length < n) : print z m off n ys = write m off (ys ++ [z]) := by
  rw [print, if_neg (by omega), List.take_of_length_le (by omega)]

/-- **A text that fits is appended.**  The text in front of it loses its end. -/
theorem Held.print (htext : slice m 0 xs.length = xs) (h : ys.length < n) :
    Held z (print z m xs.length n ys) (xs ++ ys) := by
  have hwhole := slice_write_append m xs.length (ys ++ [z])
  rw [htext, List.length_append, ← Nat.add_assoc, slice_add, ← List.append_assoc] at hwhole
  have hlen : (slice (write m xs.length (ys ++ [z])) 0 (xs.length + ys.length)).length =
      (xs ++ ys).length := by
    rw [length_slice, List.length_append]
  obtain ⟨hfront, hback⟩ := List.append_inj hwhole hlen
  rw [print_eq_write h]
  refine ⟨by rw [List.length_append, hfront], ?_⟩
  have hcell := List.singleton_injective hback
  rwa [Nat.zero_add, ← List.length_append] at hcell

end BoundedText
end BareHttp
