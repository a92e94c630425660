import Mathlib.Data.Nat.Digits.Defs
import BareHttp.Foundation.Buffer

/-!
# Numbers in memory

A number of `w` bytes at an address, the low byte first.  Memory is a buffer of bytes without
an end, so that a field of a record, the padding behind it and what lies behind the record are
all ranges of addresses.

There are two rules.  What is read where a number was stored is that number, cut to the bytes
that are read (`load_store`), and what is read from other bytes is what was there before
(`load_store_of_disjoint`).  A number that is read as a longer one takes the bytes behind it
for its high part (`load_add`).
-/

namespace BareHttp
namespace ByteMemory

open Buffer

/-- The `w` low bytes of a number. -/
def leBytes : ℕ → ℕ → List UInt8
  | 0, _ => []
  | w + 1, x => UInt8.ofNat x :: leBytes w (x / 256)

/-- The number in the `w` bytes from the address `a` on. -/
def load (m : ℕ → UInt8) (a w : ℕ) : ℕ := Nat.ofDigits 256 ((slice m a w).map UInt8.toNat)

/-- The number `x` is stored in the `w` bytes from the address `a` on. -/
def store (m : ℕ → UInt8) (a w x : ℕ) : ℕ → UInt8 := write m a (leBytes w x)

variable {m m' : ℕ → UInt8} {a b w w' x i : ℕ}

@[simp] theorem length_leBytes (w x : ℕ) : (leBytes w x).length = w := by
  induction w generalizing x with
  | zero => rfl
  | succ w ih => rw [leBytes, List.length_cons, ih]

theorem ofDigits_leBytes (w x : ℕ) :
    Nat.ofDigits 256 ((leBytes w x).map UInt8.toNat) = x % 256 ^ w := by
  induction w generalizing x with
  | zero => simp [leBytes, Nat.mod_one]
  | succ w ih =>
    rw [leBytes, List.map_cons, Nat.ofDigits_cons, ih, Nat.pow_succ', Nat.mod_mul]
    simp

theorem load_lt (m : ℕ → UInt8) (a w : ℕ) : load m a w < 256 ^ w := by
  have hlt := Nat.ofDigits_lt_base_pow_length (b := 256) (l := (slice m a w).map UInt8.toNat)
    (by decide) (by
      intro x hx
      obtain ⟨c, -, rfl⟩ := List.mem_map.mp hx
      exact c.toNat_lt)
  rwa [List.length_map, length_slice] at hlt

/-- The bytes behind a number are its high part. -/
theorem load_add (m : ℕ → UInt8) (a w w' : ℕ) :
    load m a (w + w') = load m a w + 256 ^ w * load m (a + w) w' := by
  rw [load, slice_add, List.map_append, Nat.ofDigits_append, List.length_map, length_slice]
  rfl

theorem load_of_le (m : ℕ → UInt8) (a : ℕ) (h : w' ≤ w) : load m a w' = load m a w % 256 ^ w' := by
  obtain ⟨d, rfl⟩ := Nat.exists_eq_add_of_le h
  rw [load_add, Nat.add_mul_mod_self_left, Nat.mod_eq_of_lt (load_lt m a w')]

theorem load_congr (h : ∀ i, a ≤ i → i < a + w → m i = m' i) : load m a w = load m' a w := by
  have hslice : slice m a w = slice m' a w := by
    refine List.map_congr_left fun i hi => ?_
    rw [List.mem_range] at hi
    exact h (a + i) (by omega) (by omega)
  rw [load, load, hslice]

/-- A number is zero if all its bytes are. -/
theorem load_eq_zero_iff : load m a w = 0 ↔ ∀ i, a ≤ i → i < a + w → m i = 0 := by
  induction w generalizing a with
  | zero =>
    refine iff_of_true (by simp [load]) fun i _ _ => ?_
    omega
  | succ w ih =>
    have hone : load m a 1 = (m a).toNat := by simp [load, slice, List.range_succ]
    rw [Nat.add_comm w 1, load_add, hone, Nat.add_eq_zero_iff, Nat.mul_eq_zero, ih]
    have hpow : 256 ^ 1 ≠ 0 := by decide
    simp only [hpow, false_or]
    constructor
    · rintro ⟨hfirst, hrest⟩ i hi hlt
      rcases Nat.eq_or_lt_of_le hi with rfl | hi
      · exact UInt8.toNat_inj.mp hfirst
      · exact hrest i hi (by omega)
    · intro h
      exact ⟨by rw [h a (Nat.le_refl a) (by omega)]; rfl, fun i hi hlt => h i (by omega) (by omega)⟩

/-- A byte outside. -/
theorem store_of_outside (x : ℕ) (h : i < a ∨ a + w ≤ i) : store m a w x i = m i := by
  rcases h with hlt | hge
  · exact write_of_lt m _ hlt
  · exact write_of_ge m _ (by rwa [length_leBytes])

/-- **What is stored is read back**, as far as it is read. -/
theorem load_store (m : ℕ → UInt8) (a x : ℕ) (h : w' ≤ w) :
    load (store m a w x) a w' = x % 256 ^ w' := by
  have hwhole : load (store m a w x) a w = x % 256 ^ w := by
    have hslice := slice_write_self m a (leBytes w x)
    rw [length_leBytes] at hslice
    rw [load, store, hslice, ofDigits_leBytes]
  rw [load_of_le _ _ h, hwhole, Nat.mod_mod_of_dvd _ (Nat.pow_dvd_pow 256 h)]

/-- **Other bytes are left alone.** -/
theorem load_store_of_disjoint (m : ℕ → UInt8) (x : ℕ) (h : a + w ≤ b ∨ b + w' ≤ a) :
    load (store m a w x) b w' = load m b w' :=
  load_congr fun i hi hlt => store_of_outside x (by omega)

end ByteMemory
end BareHttp
