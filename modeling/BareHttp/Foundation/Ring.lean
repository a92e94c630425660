import Mathlib.Data.List.Basic
import Mathlib.Logic.Function.Basic
import Mathlib.Tactic.Common

/-!
# Rings

A ring of capacity `cap` keeps its elements in the cells `front`, `front + 1`, … of an
array, modulo `cap`.  `contents` reads them off.  The two facts every ring queue rests
on are that storing at the cell behind the last element appends, and that moving
`front` on by one removes the head.  Both need that different positions below the
capacity are different cells (`add_mod_ne`); neither depends on how often the
positions have wrapped.
-/

namespace BareHttp
namespace Ring

variable {α : Type}

/-- The `size` elements from the cell `front` on. -/
def contents (cells : ℕ → α) (cap front size : ℕ) : List α :=
  (List.range size).map fun i => cells ((front + i) % cap)

@[simp] theorem length_contents (cells : ℕ → α) (cap front size : ℕ) :
    (contents cells cap front size).length = size := by
  simp [contents]

@[simp] theorem contents_zero (cells : ℕ → α) (cap front : ℕ) :
    contents cells cap front 0 = [] := rfl

/-- Two positions less than a whole turn apart are different cells. -/
theorem add_mod_ne {cap front i j : ℕ} (hij : i < j) (hj : j < i + cap) :
    (front + i) % cap ≠ (front + j) % cap := by
  intro h
  have hdvd : cap ∣ (front + j) - (front + i) :=
    Nat.dvd_of_mod_eq_zero (Nat.sub_mod_eq_zero_of_mod_eq h.symm)
  have hle := Nat.le_of_dvd (by omega) hdvd
  omega

/-- **Storing behind the last element appends.** -/
theorem contents_update (cells : ℕ → α) {cap front size : ℕ} (h : size < cap) (x : α) :
    contents (Function.update cells ((front + size) % cap) x) cap front (size + 1) =
      contents cells cap front size ++ [x] := by
  unfold contents
  rw [List.range_succ, List.map_append, List.map_singleton]
  congr 1
  · apply List.map_congr_left
    intro i hi
    rw [List.mem_range] at hi
    exact Function.update_of_ne (add_mod_ne hi (by omega)) _ _
  · simp

/-- **Moving the front on removes the head.** -/
theorem contents_succ (cells : ℕ → α) (cap front size : ℕ) :
    contents cells cap front (size + 1) =
      cells (front % cap) :: contents cells cap ((front + 1) % cap) size := by
  unfold contents
  rw [List.range_succ_eq_map, List.map_cons, List.map_map]
  congr 1
  apply List.map_congr_left
  intro i _
  simp only [Function.comp_apply, Nat.mod_add_mod]
  congr 2
  omega

end Ring
end BareHttp
