import Mathlib.Tactic.Common

/-!
# C integer conversions

The two conversions the server performs silently: reducing the result of an
`int` operation to thirty-two bits, two's complement, and widening an `int` to a
`size_t`.  Everything is stated on `Int` and `ℕ`, so a reader sees where a value
is assumed to fit (`toInt32_of_mem`) and where it is not.
-/

namespace BareHttp
namespace CInt

/-- The `int` a value is stored as: the representative of `z` modulo `2 ^ 32`
between `-2 ^ 31` and `2 ^ 31 - 1`. -/
def toInt32 (z : Int) : Int := (z + 2147483648) % 4294967296 - 2147483648

/-- The `size_t` an `int` argument is widened to: a negative length becomes a
number close to `2 ^ 64`. -/
def toSizeT (z : Int) : ℕ := (z % 18446744073709551616).toNat

theorem toInt32_of_mem {z : Int} (hlo : -2147483648 ≤ z) (hhi : z < 2147483648) :
    toInt32 z = z := by
  unfold toInt32
  omega

theorem le_toInt32 (z : Int) : -2147483648 ≤ toInt32 z := by
  unfold toInt32
  omega

theorem toInt32_lt (z : Int) : toInt32 z < 2147483648 := by
  unfold toInt32
  omega

theorem toSizeT_of_nonneg {z : Int} (hlo : 0 ≤ z) (hhi : z < 18446744073709551616) :
    (toSizeT z : Int) = z := by
  unfold toSizeT
  omega

end CInt
end BareHttp
