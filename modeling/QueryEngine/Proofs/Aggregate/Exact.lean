import Mathlib.Algebra.Group.Nat.Defs
import Mathlib.Algebra.Ring.Int.Defs
import QueryEngine.Aggregate.Accumulator
import QueryEngine.Proofs.Integer

/-!
# Exact aggregates

What an aggregate function computes, on unbounded integers: the least or the greatest number, the
sum, the sum divided by the number of values, or the number of values alone. The accumulator of a
group is compared with this.

## Ranges

Only a sum can leave the 64 bits of a result. The least and the greatest number are among the
values, a count is bounded by the number of rows, and a mean lies between the bounds of the numbers
that it is the mean of (`fits_of_ne_sum`). The 128 bits of the sum behind a mean are enough for
fewer than `2 ^ 63` values (`refuses_iff`).
-/

namespace QueryEngine

/-! ## Numbers among values -/

/-- The numbers among values, in order. -/
def integers (values : List Value) : List Int :=
  values.filterMap fun v ↦ v.integer?.map Int64.toInt

theorem integers_concat (values : List Value) (n : Int64) :
    integers (values ++ [.integer n]) = integers values ++ [n.toInt] := by
  rw [integers, List.filterMap_append]
  rfl

theorem bounds_of_mem_integers {values : List Value} {n : Int} (h : n ∈ integers values) :
    -2 ^ 63 ≤ n ∧ n < 2 ^ 63 := by
  obtain ⟨v, -, hv⟩ := List.mem_filterMap.mp h
  obtain ⟨m, -, rfl⟩ := Option.map_eq_some_iff.mp hv
  exact ⟨m.le_toInt, m.toInt_lt⟩

theorem sum_integers_bounds (values : List Value) :
    -2 ^ 63 * (values.length : Int) ≤ (integers values).sum
      ∧ (integers values).sum ≤ (2 ^ 63 - 1) * (values.length : Int) := by
  induction values with
  | nil => exact ⟨by decide, by decide⟩
  | cons v rest ih =>
    obtain ⟨hlo, hhi⟩ := ih
    rw [List.length_cons]
    cases v with
    | integer n =>
      have hsum : (integers (.integer n :: rest)).sum = n.toInt + (integers rest).sum := rfl
      have hnlo := n.le_toInt
      have hnhi := n.toInt_lt
      rw [hsum]
      exact ⟨by omega, by omega⟩
    | text s =>
      have hsum : (integers (.text s :: rest)).sum = (integers rest).sum := rfl
      rw [hsum]
      exact ⟨by omega, by omega⟩

/-! ## The functions -/

namespace AggregateFunction

/-- The aggregate of values as an unbounded integer. A mean is cut off toward zero. -/
def exact : AggregateFunction → List Value → Int
  | min, values => (integers values).min?.getD 0
  | max, values => (integers values).max?.getD 0
  | sum, values => (integers values).sum
  | avg, values => (integers values).sum.tdiv values.length
  | count, values => values.length

/-- Every value can be counted, and the other functions take numbers. -/
def Takes (f : AggregateFunction) (v : Value) : Prop :=
  f = count ∨ v.type = .integer

def Fits (f : AggregateFunction) (values : List Value) : Prop :=
  -2 ^ 63 ≤ f.exact values ∧ f.exact values < 2 ^ 63

theorem Fits.toInt_ofInt {f : AggregateFunction} {values : List Value} (h : f.Fits values) :
    (Int64.ofInt (f.exact values)).toInt = f.exact values :=
  Int64.toInt_ofInt_of_le h.1 h.2

theorem Takes.eq_integer {f : AggregateFunction} {v : Value} (h : f.Takes v) (hf : f ≠ count) :
    ∃ n, v = .integer n := by
  rcases h with hcount | htype
  · exact absurd hcount hf
  · cases v with
    | integer n => exact ⟨n, rfl⟩
    | text s => cases htype

theorem fits_avg (values : List Value) : avg.Fits values := by
  obtain ⟨hlo, hhi⟩ := sum_integers_bounds values
  change -2 ^ 63 ≤ (integers values).sum.tdiv values.length
    ∧ (integers values).sum.tdiv values.length < 2 ^ 63
  rcases Nat.eq_zero_or_pos values.length with hzero | hpos
  · rw [hzero, Int.natCast_zero, Int.tdiv_zero]
    decide
  · have hpos' : 0 < (values.length : Int) := Int.natCast_pos.mpr hpos
    by_cases hsum : 0 ≤ (integers values).sum
    · rw [Int.tdiv_eq_ediv_of_nonneg hsum]
      have hnonneg := Int.ediv_nonneg hsum (Int.le_of_lt hpos')
      exact ⟨by omega, Int.ediv_lt_of_lt_mul hpos' (by omega)⟩
    · -- A negative sum is divided after its sign is taken off.
      have hneg : (integers values).sum.tdiv values.length
          = -(-(integers values).sum / values.length) := by
        rw [← Int.tdiv_eq_ediv_of_nonneg (by omega), Int.neg_tdiv, Int.neg_neg]
      have hnonneg : 0 ≤ -(integers values).sum / values.length :=
        Int.ediv_nonneg (by omega) (Int.le_of_lt hpos')
      have hle : -(integers values).sum / values.length ≤ 2 ^ 63 :=
        Int.ediv_le_of_le_mul hpos' (by omega)
      rw [hneg]
      exact ⟨by omega, by omega⟩

theorem fits_min (values : List Value) : min.Fits values := by
  rw [Fits, exact]
  cases hmin : (integers values).min? with
  | none => decide
  | some n => exact bounds_of_mem_integers (List.min?_mem hmin)

theorem fits_max (values : List Value) : max.Fits values := by
  rw [Fits, exact]
  cases hmax : (integers values).max? with
  | none => decide
  | some n => exact bounds_of_mem_integers (List.max?_mem hmax)

theorem fits_of_ne_sum {f : AggregateFunction} (hf : f ≠ sum) {values : List Value}
    (few : values.length < 2 ^ 63) : f.Fits values := by
  cases f with
  | min => exact fits_min values
  | max => exact fits_max values
  | sum => exact absurd rfl hf
  | avg => exact fits_avg values
  | count =>
    rw [Fits, exact]
    omega

/-- The running sum has no room for one value more. -/
def Refuses (f : AggregateFunction) (values : List Value) (v : Value) : Prop :=
  f = sum ∧ int64? (integers (values ++ [v])).sum = none
    ∨ f = avg ∧ int128? (integers (values ++ [v])).sum = none

instance (f : AggregateFunction) (values : List Value) (v : Value) :
    Decidable (f.Refuses values v) :=
  inferInstanceAs (Decidable (_ ∨ _))

theorem not_refuses_nil (f : AggregateFunction) (v : Value) : ¬f.Refuses [] v := by
  obtain ⟨hlo, hhi⟩ := sum_integers_bounds [v]
  rw [List.length_singleton] at hlo hhi
  rintro (⟨-, hnone⟩ | ⟨-, hnone⟩)
  · rw [List.nil_append, int64?_eq_none_iff, Int64.toInt_minValue, Int64.toInt_maxValue] at hnone
    exact hnone ⟨by omega, by omega⟩
  · rw [List.nil_append, int128?_of_bounds (by omega) (by omega)] at hnone
    cases hnone

/-- The 128 bits of the sum behind a mean are enough. -/
theorem refuses_iff {f : AggregateFunction} {values : List Value} (few : values.length < 2 ^ 63)
    (v : Value) :
    f.Refuses values v ↔ f = sum ∧ int64? (integers (values ++ [v])).sum = none := by
  refine or_iff_left ?_
  rintro ⟨-, hnone⟩
  obtain ⟨hlo, hhi⟩ := sum_integers_bounds (values ++ [v])
  rw [List.length_append, List.length_singleton] at hlo hhi
  rw [int128?_of_bounds (by omega) (by omega)] at hnone
  cases hnone

end AggregateFunction

/-! ## Accumulators -/

namespace Accumulator

/-- What an accumulator holds of the values of a group. -/
def ofValues : AggregateFunction → List Value → Accumulator
  | .min, values => min (Int64.ofInt (AggregateFunction.min.exact values))
  | .max, values => max (Int64.ofInt (AggregateFunction.max.exact values))
  | .sum, values => sum (Int64.ofInt (AggregateFunction.sum.exact values))
  | .avg, values => avg (integers values).sum values.length
  | .count, values => count values.length

theorem result_ofValues (f : AggregateFunction) (values : List Value) :
    (ofValues f values).result = Int64.ofInt (f.exact values) := by
  cases f with
  | min => rfl
  | max => rfl
  | sum => rfl
  | avg => rfl
  | count => exact Int64.ofInt_eq_ofNat.symm

theorem start_eq {f : AggregateFunction} {v : Value} (takes : f.Takes v) :
    start f v = .ok (ofValues f [v]) := by
  cases v with
  | integer n =>
    cases f with
    | count => rfl
    | avg => exact congrArg (fun s ↦ Except.ok (avg s 1)) (Int.add_zero n.toInt).symm
    | sum =>
      have hsum : Int64.ofInt (AggregateFunction.sum.exact [.integer n]) = n := by
        change Int64.ofInt (n.toInt + 0) = n
        rw [Int.add_zero, Int64.ofInt_toInt]
      rw [ofValues, hsum]
      rfl
    | min => exact congrArg (fun m ↦ Except.ok (min m)) (Int64.ofInt_toInt n).symm
    | max => exact congrArg (fun m ↦ Except.ok (max m)) (Int64.ofInt_toInt n).symm
  | text s =>
    rcases takes with rfl | htype
    · rfl
    · cases htype

private theorem min_ofInt {a : Int} (n : Int64) (hlo : -2 ^ 63 ≤ a) (hhi : a < 2 ^ 63) :
    Min.min (Int64.ofInt a) n = Int64.ofInt (Min.min a n.toInt) := by
  have hiff : Int64.ofInt a ≤ n ↔ a ≤ n.toInt := by
    rw [Int64.le_iff_toInt_le, Int64.toInt_ofInt_of_le hlo hhi]
  by_cases hle : a ≤ n.toInt
  · rw [Int.min_eq_left hle]
    exact if_pos (hiff.mpr hle)
  · rw [Int.min_eq_right (Int.le_of_not_le hle), Int64.ofInt_toInt]
    exact if_neg (hle ∘ hiff.mp)

private theorem max_ofInt {a : Int} (n : Int64) (hlo : -2 ^ 63 ≤ a) (hhi : a < 2 ^ 63) :
    Max.max (Int64.ofInt a) n = Int64.ofInt (Max.max a n.toInt) := by
  have hiff : Int64.ofInt a ≤ n ↔ a ≤ n.toInt := by
    rw [Int64.le_iff_toInt_le, Int64.toInt_ofInt_of_le hlo hhi]
  by_cases hle : a ≤ n.toInt
  · rw [Int.max_eq_right hle, Int64.ofInt_toInt]
    exact if_pos (hiff.mpr hle)
  · rw [Int.max_eq_left (Int.le_of_not_le hle)]
    exact if_neg (hle ∘ hiff.mp)

private theorem min?_concat {l : List Int} (ne : l ≠ []) (n : Int) :
    (l ++ [n]).min?.getD 0 = Min.min (l.min?.getD 0) n := by
  obtain ⟨x, rest, rfl⟩ := List.exists_cons_of_ne_nil ne
  rw [List.cons_append, List.min?_cons', List.min?_cons', List.foldl_append]
  rfl

private theorem max?_concat {l : List Int} (ne : l ≠ []) (n : Int) :
    (l ++ [n]).max?.getD 0 = Max.max (l.max?.getD 0) n := by
  obtain ⟨x, rest, rfl⟩ := List.exists_cons_of_ne_nil ne
  rw [List.cons_append, List.max?_cons', List.max?_cons', List.foldl_append]
  rfl

/-- The first of the values is a number, so there is one. -/
private theorem integers_ne_nil {f : AggregateFunction} (hf : f ≠ .count) {values : List Value}
    (ne : values ≠ []) (takes : ∀ v ∈ values, f.Takes v) : integers values ≠ [] := by
  obtain ⟨v, rest, rfl⟩ := List.exists_cons_of_ne_nil ne
  obtain ⟨n, rfl⟩ := (takes v List.mem_cons_self).eq_integer hf
  exact List.cons_ne_nil _ _

/-- One value more is refused exactly if the running sum has no room for it. -/
theorem add_ofValues {f : AggregateFunction} {values : List Value} (ne : values ≠ [])
    (takes : ∀ v ∈ values, f.Takes v) (fits : f = .sum → f.Fits values) {v : Value}
    (htake : f.Takes v) :
    (ofValues f values).add v
      = if f.Refuses values v then .error .numericOverflow
        else .ok (ofValues f (values ++ [v])) := by
  by_cases hcount : f = .count
  · rw [hcount, if_neg (by simp [AggregateFunction.Refuses]), ofValues, ofValues,
      List.length_append]
    rfl
  · obtain ⟨n, rfl⟩ := htake.eq_integer hcount
    have hne := integers_ne_nil hcount ne takes
    cases f with
    | count => exact absurd rfl hcount
    | min =>
      obtain ⟨hlo, hhi⟩ := AggregateFunction.fits_min values
      rw [if_neg (by simp [AggregateFunction.Refuses]), ofValues, ofValues, add,
        min_ofInt n hlo hhi, AggregateFunction.exact, AggregateFunction.exact, integers_concat,
        min?_concat hne]
    | max =>
      obtain ⟨hlo, hhi⟩ := AggregateFunction.fits_max values
      rw [if_neg (by simp [AggregateFunction.Refuses]), ofValues, ofValues, add,
        max_ofInt n hlo hhi, AggregateFunction.exact, AggregateFunction.exact, integers_concat,
        max?_concat hne]
    | avg =>
      have hiff : AggregateFunction.avg.Refuses values (.integer n)
          ↔ int128? ((integers values).sum + n.toInt) = none := by
        rw [AggregateFunction.Refuses, integers_concat, List.sum_append, List.sum_singleton]
        simp
      rw [ofValues, ofValues, add, integers_concat, List.sum_append, List.sum_singleton,
        List.length_append]
      cases htotal : int128? ((integers values).sum + n.toInt) with
      | none => rw [if_pos (hiff.mpr htotal)]
      | some total =>
        rw [if_neg (by rw [hiff, htotal]; exact Option.some_ne_none _), eq_of_int128? htotal]
        rfl
    | sum =>
      have hiff : AggregateFunction.sum.Refuses values (.integer n)
          ↔ int64? ((integers values).sum + n.toInt) = none := by
        rw [AggregateFunction.Refuses, integers_concat, List.sum_append, List.sum_singleton]
        simp
      rw [ofValues, ofValues, add, (fits rfl).toInt_ofInt, AggregateFunction.exact,
        AggregateFunction.exact, integers_concat, List.sum_append, List.sum_singleton]
      cases htotal : int64? ((integers values).sum + n.toInt) with
      | none => rw [if_pos (hiff.mpr htotal)]
      | some total =>
        rw [if_neg (by rw [hiff, htotal]; exact Option.some_ne_none _), ← toInt_of_int64? htotal,
          Int64.ofInt_toInt]

end Accumulator

end QueryEngine
