import Mathlib.Algebra.Order.Field.Rat
import Mathlib.Tactic.FieldSimp
import Mathlib.Tactic.Positivity
import Mathlib.Tactic.Ring
import QueryEngine.Proofs.Histogram.Buckets

/-!
# Estimates in rational numbers

Read in rational numbers, which do not round, every estimate has one form. The values outside of the
bucket of the constant are all less than it or all greater, as their bucket tells, and a comparison
holds for all of them on one side (`outside`). Of the values in the bucket a part is taken, as if
they were spread evenly over its width (`portion`). The estimate is the fraction that both make up
together of all values counted (`Counts.estimate_eq`).

What is proved of the estimates is proved of these two numbers: of the first by adding up the
heights of buckets, and of the second on integers, from the bounds of a bucket.
-/

namespace QueryEngine

theorem ofInt_rat (n : Int) : (Fractional.ofInt n : ℚ) = n := rfl

namespace IntHistogram

variable {h : IntHistogram} {values : List Int64} {v : Int64}

/-! ## Heights added up -/

theorem below_succ (h : IntHistogram) (i : Nat) : h.below (i + 1) = h.below i + h.height i := by
  have hsum : ∀ j, h.below j = (h.counts.take j).sum := fun _ ↦ rfl
  rw [hsum, hsum, List.take_add_one, List.sum_append, height]
  cases h.counts[i]? <;> simp

theorem below_mono {i j : Nat} (hle : i ≤ j) : h.below i ≤ h.below j := by
  induction hle with
  | refl => exact Nat.le_refl _
  | step _ ih => exact Nat.le_trans ih (below_succ h _ ▸ Nat.le_add_right _ _)

theorem below_add_above (h : IntHistogram) (i : Nat) :
    h.below (i + 1) + h.above i = h.below h.buckets := by
  have hsum : h.below (i + 1) + h.above i
      = (h.counts.take (i + 1)).sum + (h.counts.drop (i + 1)).sum := rfl
  have hall : h.below h.buckets = h.counts.sum := by
    rw [below, buckets, List.take_length]
    rfl
  rw [hsum, ← List.sum_append, List.take_append_drop, hall]

private theorem countP_lt_succ {α : Type} (f : α → Nat) (i : Nat) (l : List α) :
    l.countP (f · < i + 1) = l.countP (f · < i) + l.countP (f · = i) := by
  induction l with
  | nil => rfl
  | cons a rest ih =>
    simp only [List.countP_cons, ih, decide_eq_true_eq]
    split_ifs <;> omega

theorem Counts.below_eq (counts : h.Counts values) (i : Nat) :
    h.below i = values.countP (h.indexOf · < i) := by
  induction i with
  | zero => simp [below]
  | succ i ih => rw [below_succ, ih, counts.height_eq, countP_lt_succ]

theorem Counts.below_buckets (counts : h.Counts values) : h.below h.buckets = h.total := by
  rw [counts.below_eq, counts.total_eq, List.countP_eq_length]
  intro v _
  simpa using indexOf_lt counts.buckets_pos v

theorem Counts.above_eq (counts : h.Counts values) (i : Nat) :
    h.above i = values.countP (i < h.indexOf ·) := by
  have hsplit := values.length_eq_countP_add_countP (h.indexOf · < i + 1)
  have hrest : (fun v ↦ decide ¬decide (h.indexOf v < i + 1) = true) = (i < h.indexOf ·) := by
    funext v
    rw [decide_eq_decide, decide_eq_true_eq, Nat.not_lt, Nat.add_one_le_iff]
  rw [hrest, ← counts.below_eq, ← counts.total_eq, ← counts.below_buckets,
    ← below_add_above h i] at hsplit
  exact Nat.add_left_cancel hsplit

theorem Counts.total_split (counts : h.Counts values) (i : Nat) :
    h.below i + h.height i + h.above i = h.total := by
  rw [← below_succ, below_add_above, counts.below_buckets]

theorem Counts.total_split_rat (counts : h.Counts values) (i : Nat) :
    (h.total : ℚ) = h.below i + h.height i + h.above i := by
  exact_mod_cast (counts.total_split i).symm

/-! ## The form of an estimate -/

/-- The values outside of a bucket that a comparison with a value of the bucket holds for. -/
def outside (h : IntHistogram) (op : Comparison) (i : Nat) : Nat :=
  match op with
  | .eq | .like => 0
  | .ne => h.below i + h.above i
  | .gt | .ge => h.above i
  | .lt | .le => h.below i

/-- The part, out of the width of its bucket, of the values in the bucket of a given value that a
comparison with it is taken to hold for. -/
def portion (h : IntHistogram) (op : Comparison) (v : Int64) : Int :=
  let bounds := h.bounds (h.indexOf v)
  match op with
  | .eq | .like => 1
  | .ne => h.width - 1
  | .gt => bounds.2 - v.toInt
  | .lt => v.toInt - bounds.1
  | .ge => bounds.2 - v.toInt + 1
  | .le => v.toInt - bounds.1 + 1

theorem Tiles.portion_bounds (tiles : h.Tiles) (covers : h.Covers v) (op : Comparison) :
    0 ≤ h.portion op v ∧ h.portion op v ≤ h.width := by
  obtain ⟨-, -, hleft, hright, -, hsub, hsub'⟩ := tiles.houses covers
  have hwidth := tiles.width_pos
  cases op <;> simp only [portion] <;> omega

theorem Counts.outside_add_height_le (counts : h.Counts values) (op : Comparison) (i : Nat) :
    h.outside op i + h.height i ≤ h.total := by
  have hsplit := counts.total_split i
  cases op <;> simp only [outside] <;> omega

theorem equal_of_covers (covers : h.Covers v) :
    h.equal ℚ v = h.height (h.indexOf v) / h.total / h.width := by
  simp [equal, covers, fraction, ofInt_rat]

theorem greater_of_covers (covers : h.Covers v) :
    h.greater ℚ v
      = h.height (h.indexOf v) / h.total
          * (((h.bounds (h.indexOf v)).2 - v.toInt : Int) / h.width)
        + h.above (h.indexOf v) / h.total := by
  rw [greater, if_neg (Int64.not_lt.mpr covers.1), if_neg (Int64.not_lt.mpr covers.2)]
  simp [fraction, ofInt_rat]

theorem less_of_covers (covers : h.Covers v) :
    h.less ℚ v
      = h.height (h.indexOf v) / h.total
          * ((v.toInt - (h.bounds (h.indexOf v)).1 : Int) / h.width)
        + h.below (h.indexOf v) / h.total := by
  rw [less, if_neg (Int64.not_lt.mpr covers.2), if_neg (Int64.not_lt.mpr covers.1)]
  simp [fraction, ofInt_rat]

/-- **The form of an estimate.** For a constant of the range, an estimate is the fraction made up of
the values outside of its bucket that the comparison holds for, and a portion of those within. -/
theorem Counts.estimate_eq (counts : h.Counts values) (tiles : h.Tiles) (pos : 0 < h.total)
    (covers : h.Covers v) (op : Comparison) :
    h.estimate ℚ op v
      = (h.outside op (h.indexOf v) + h.height (h.indexOf v) * (h.portion op v / h.width))
        / h.total := by
  have htotal : (h.total : ℚ) ≠ 0 := by positivity
  have hwidth : (h.width : ℚ) ≠ 0 := Int.cast_ne_zero.mpr tiles.width_pos.ne'
  unfold estimate
  rw [if_neg pos.ne']
  cases op with
  | eq | like =>
    simp only [equal_of_covers covers, outside, portion]
    push_cast
    ring
  | ne =>
    -- What is equal is taken off the whole, of which the values in other buckets are a part.
    simp only [equal_of_covers covers, outside, portion, ofInt_rat]
    push_cast
    field_simp
    rw [counts.total_split_rat (h.indexOf v)]
    ring
  | gt =>
    simp only [greater_of_covers covers, outside, portion]
    ring
  | lt =>
    simp only [less_of_covers covers, outside, portion]
    ring
  | ge =>
    simp only [greater_of_covers covers, equal_of_covers covers, outside, portion]
    push_cast
    ring
  | le =>
    simp only [less_of_covers covers, equal_of_covers covers, outside, portion]
    push_cast
    ring

/-- An estimate lies between the fraction of the values outside of the bucket and the fraction that
all values of the bucket would make it. -/
theorem Counts.estimate_bounds (counts : h.Counts values) (tiles : h.Tiles) (pos : 0 < h.total)
    (covers : h.Covers v) (op : Comparison) :
    (h.outside op (h.indexOf v) : ℚ) / h.total ≤ h.estimate ℚ op v
      ∧ h.estimate ℚ op v
        ≤ (h.outside op (h.indexOf v) + h.height (h.indexOf v) : ℚ) / h.total := by
  obtain ⟨hnonneg, hle⟩ := tiles.portion_bounds covers op
  have hwidth : (0 : ℚ) < h.width := Int.cast_pos.mpr tiles.width_pos
  have hshare : 0 ≤ (h.portion op v : ℚ) / h.width :=
    div_nonneg (Int.cast_nonneg hnonneg) hwidth.le
  have hshare' : (h.portion op v : ℚ) / h.width ≤ 1 :=
    (div_le_one hwidth).mpr (Int.cast_le.mpr hle)
  rw [counts.estimate_eq tiles pos covers]
  constructor
  · gcongr
    exact le_add_of_nonneg_right (by positivity)
  · gcongr
    exact mul_le_of_le_one_right (by positivity) hshare'

/-! ## Constants out of range -/

/-- All values are greater than a constant below the range. -/
theorem estimate_of_lt_min (tiles : h.Tiles) (pos : 0 < h.total) (hlt : v < h.min)
    (op : Comparison) : h.estimate ℚ op v = if op.admits .gt then 1 else 0 := by
  have hmax : ¬h.max < v := by
    have hrange := tiles.min_le_max
    rw [Int64.lt_iff_toInt_lt] at hlt ⊢
    omega
  have hequal : h.equal ℚ v = 0 := if_neg fun covers ↦ Int64.not_lt.mpr covers.1 hlt
  have hgreater : h.greater ℚ v = 1 := if_pos hlt
  have hless : h.less ℚ v = 0 := by
    rw [less, if_neg hmax, if_pos hlt]
    rfl
  unfold estimate
  rw [if_neg pos.ne']
  cases op <;> simp [hequal, hgreater, hless, Comparison.admits, ofInt_rat]

/-- All values are less than a constant above the range. -/
theorem estimate_of_max_lt (tiles : h.Tiles) (pos : 0 < h.total) (hlt : h.max < v)
    (op : Comparison) : h.estimate ℚ op v = if op.admits .lt then 1 else 0 := by
  have hmin : ¬v < h.min := by
    have hrange := tiles.min_le_max
    rw [Int64.lt_iff_toInt_lt] at hlt ⊢
    omega
  have hequal : h.equal ℚ v = 0 := if_neg fun covers ↦ Int64.not_lt.mpr covers.2 hlt
  have hless : h.less ℚ v = 1 := if_pos hlt
  have hgreater : h.greater ℚ v = 0 := by
    rw [greater, if_neg hmin, if_pos hlt]
    rfl
  unfold estimate
  rw [if_neg pos.ne']
  cases op <;> simp [hequal, hgreater, hless, Comparison.admits, ofInt_rat]

theorem lt_min_or_max_lt (hcovers : ¬h.Covers v) : v < h.min ∨ h.max < v := by
  rw [Covers, not_and_or, Int64.not_le, Int64.not_le] at hcovers
  exact hcovers

end IntHistogram

end QueryEngine
