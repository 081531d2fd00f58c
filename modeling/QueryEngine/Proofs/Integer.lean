import Mathlib.Algebra.Ring.Int.Defs
import QueryEngine.Integer

/-!
# Room for integers

Bounds in powers of two decide whether an integer has room in 64 or in 128 bits. Numbers of 128 bits
have a sign; a position, of 64 bits, has none.
-/

namespace QueryEngine

theorem int128?_of_bounds {n : Int} (lower : -2 ^ 127 ≤ n) (upper : n < 2 ^ 127) :
    int128? n = some n := by
  have hmin : (BitVec.intMin 128).toInt = -2 ^ 127 := rfl
  have hmax : (BitVec.intMax 128).toInt = 2 ^ 127 - 1 := rfl
  rw [int128?, hmin, hmax, if_pos ⟨lower, Int.le_sub_one_of_lt upper⟩]

/-- A number of 64 bits without a sign, if the integer is one. -/
def word? (n : Int) : Option Nat :=
  if 0 ≤ n ∧ n < 2 ^ 64 then some n.toNat else none

theorem distance_lt (low high : Int64) : high.toInt - low.toInt < 2 ^ 64 := by
  have hlow := low.le_toInt
  have hhigh := high.toInt_lt
  omega

end QueryEngine
