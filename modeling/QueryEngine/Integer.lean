/-!
# Integers of limited size

Column values and running sums are signed integers of 64 bits, and the sum behind a mean has 128.
Arithmetic on them is done on unbounded integers, and the result is taken back only when it fits: no
operation wraps.
-/

namespace QueryEngine

/-- An integer as a 64-bit one, if it lies in the range of these. -/
def int64? (n : Int) : Option Int64 :=
  if Int64.minValue.toInt ≤ n ∧ n ≤ Int64.maxValue.toInt then some (Int64.ofInt n) else none

/-- An integer, if 128 bits hold it. -/
def int128? (n : Int) : Option Int :=
  if (BitVec.intMin 128).toInt ≤ n ∧ n ≤ (BitVec.intMax 128).toInt then some n else none

theorem int64?_eq_none_iff {n : Int} :
    int64? n = none ↔ ¬(Int64.minValue.toInt ≤ n ∧ n ≤ Int64.maxValue.toInt) := by
  rw [int64?]
  split
  · next range => exact iff_of_false (by simp) (fun h ↦ h range)
  · next range => exact iff_of_true rfl range

theorem toInt_of_int64? {n : Int} {m : Int64} (h : int64? n = some m) : m.toInt = n := by
  rw [int64?] at h
  split at h
  · next range =>
    cases h
    rw [Int64.toInt_minValue, Int64.toInt_maxValue] at range
    exact Int64.toInt_ofInt_of_le range.1 (Int.lt_of_le_sub_one range.2)
  · cases h

theorem eq_of_int128? {n m : Int} (h : int128? n = some m) : m = n := by
  rw [int128?] at h
  split at h
  · exact (Option.some.inj h).symm
  · cases h

theorem int64?_toInt (m : Int64) : int64? m.toInt = some m := by
  rw [int64?, if_pos ⟨m.minValue_le_toInt, m.toInt_le⟩, Int64.ofInt_toInt]

end QueryEngine
