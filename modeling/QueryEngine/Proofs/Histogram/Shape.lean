import QueryEngine.Proofs.Histogram.Estimates
import QueryEngine.Proofs.Histogram.Keys

/-!
# The shape of estimates

Estimates are fractions, and they grow and fall as fractions would: a greater constant has at least
as many values below it, and at most as many above it. Within a bucket that is so because of the
portion that is taken of it. From one bucket to a later one, the whole of the first is counted, and
that is at least what was taken of it before (`outside_add_height_le_of_lt`). Beyond the range,
estimates are 0 or 1, between which all others lie.

Less, equal and greater together need not make up everything. The last bucket of the range can be
cut off, while a portion is always one of the full width; what is missing is the part of the bucket
that lies beyond the range.
-/

namespace QueryEngine

namespace IntHistogram

variable {h : IntHistogram} {values : List Int64} {op : Comparison} {v v' : Int64} {i j : Nat}

/-! ## From bucket to bucket -/

/-- What is counted outside of a later bucket includes the whole of an earlier one, and the other
way around for values that are greater. -/
theorem Counts.outside_add_height_le_of_lt (counts : h.Counts values) (hlt : i < j)
    (hop : op = .lt ∨ op = .le) :
    h.outside op i + h.height i ≤ h.outside op j
      ∧ h.outside op.converse j + h.height j ≤ h.outside op.converse i := by
  have hsplit := counts.total_split i
  have hsplit' := counts.total_split j
  have hbelow : h.below i + h.height i ≤ h.below j := below_succ h i ▸ below_mono hlt
  rcases hop with rfl | rfl <;> simp only [outside, Comparison.converse] <;> omega

/-- The portion of a bucket that is less grows with the constant, and the one that is greater
falls. -/
theorem portion_le_of_le (same : h.indexOf v = h.indexOf v') (hle : v ≤ v')
    (hop : op = .lt ∨ op = .le) :
    h.portion op v ≤ h.portion op v' ∧ h.portion op.converse v' ≤ h.portion op.converse v := by
  rw [Int64.le_iff_toInt_le] at hle
  rcases hop with rfl | rfl <;> simp only [portion, Comparison.converse, same] <;> omega

theorem Summarizes.estimate_le_of_portion_le (summarizes : h.Summarizes values)
    (pos : 0 < h.total) (covers : h.Covers v) (covers' : h.Covers v')
    (same : h.indexOf v = h.indexOf v') (hle : h.portion op v ≤ h.portion op v') :
    h.estimate ℚ op v ≤ h.estimate ℚ op v' := by
  obtain ⟨tiles, counts, -⟩ := summarizes
  have hwidth : (0 : ℚ) < h.width := Int.cast_pos.mpr tiles.width_pos
  rw [counts.estimate_eq tiles pos covers, counts.estimate_eq tiles pos covers', same]
  gcongr

theorem Summarizes.estimate_le_of_outside_le (summarizes : h.Summarizes values)
    (pos : 0 < h.total) (covers : h.Covers v) (covers' : h.Covers v')
    (hle : h.outside op (h.indexOf v) + h.height (h.indexOf v) ≤ h.outside op (h.indexOf v')) :
    h.estimate ℚ op v ≤ h.estimate ℚ op v' := by
  obtain ⟨tiles, counts, -⟩ := summarizes
  calc h.estimate ℚ op v
      ≤ (h.outside op (h.indexOf v) + h.height (h.indexOf v) : ℚ) / h.total :=
        (counts.estimate_bounds tiles pos covers op).2
    _ ≤ h.outside op (h.indexOf v') / h.total := by
        gcongr
        exact_mod_cast hle
    _ ≤ h.estimate ℚ op v' := (counts.estimate_bounds tiles pos covers' op).1

theorem Summarizes.estimate_mono_of_covers (summarizes : h.Summarizes values) (pos : 0 < h.total)
    (covers : h.Covers v) (covers' : h.Covers v') (hle : v ≤ v') (hop : op = .lt ∨ op = .le) :
    h.estimate ℚ op v ≤ h.estimate ℚ op v'
      ∧ h.estimate ℚ op.converse v' ≤ h.estimate ℚ op.converse v := by
  rcases (summarizes.tiles.indexOf_mono covers covers' hle).lt_or_eq with hlt | heq
  · obtain ⟨hless, hgreater⟩ := summarizes.counts.outside_add_height_le_of_lt hlt hop
    exact ⟨summarizes.estimate_le_of_outside_le pos covers covers' hless,
      summarizes.estimate_le_of_outside_le pos covers' covers hgreater⟩
  · obtain ⟨hless, hgreater⟩ := portion_le_of_le heq hle hop
    exact ⟨summarizes.estimate_le_of_portion_le pos covers covers' heq hless,
      summarizes.estimate_le_of_portion_le pos covers' covers heq.symm hgreater⟩

/-! ## Beyond the range -/

theorem Summarizes.estimate_mem_unit (summarizes : h.Summarizes values) (pos : 0 < h.total)
    (op : Comparison) (v : Int64) : 0 ≤ h.estimate ℚ op v ∧ h.estimate ℚ op v ≤ 1 := by
  obtain ⟨tiles, counts, -⟩ := summarizes
  by_cases covers : h.Covers v
  · obtain ⟨hlower, hupper⟩ := counts.estimate_bounds tiles pos covers op
    have hall := counts.outside_add_height_le op (h.indexOf v)
    constructor
    · exact le_trans (by positivity) hlower
    · refine le_trans hupper (div_le_one_of_le₀ ?_ (by positivity))
      exact_mod_cast hall
  · rcases lt_min_or_max_lt covers with hmin | hmax
    · rw [estimate_of_lt_min tiles pos hmin]
      split <;> simp
    · rw [estimate_of_max_lt tiles pos hmax]
      split <;> simp

/-- The estimate that values are less grows with the constant, and the estimate that they are
greater falls. -/
theorem Summarizes.estimate_mono (summarizes : h.Summarizes values) (pos : 0 < h.total)
    (hle : v ≤ v') (hop : op = .lt ∨ op = .le) :
    h.estimate ℚ op v ≤ h.estimate ℚ op v'
      ∧ h.estimate ℚ op.converse v' ≤ h.estimate ℚ op.converse v := by
  have hunit := summarizes.estimate_mem_unit pos
  have tiles := summarizes.tiles
  have hless : op.admits .lt = true ∧ op.admits .gt = false := by
    rcases hop with rfl | rfl <;> decide
  have hgreater : op.converse.admits .lt = false ∧ op.converse.admits .gt = true := by
    rcases hop with rfl | rfl <;> decide
  -- A constant below the range has all values above it, and one above the range all below it.
  have hlow : ∀ {w}, w < h.min → h.estimate ℚ op w = 0 ∧ h.estimate ℚ op.converse w = 1 := by
    intro w hw
    simp [estimate_of_lt_min tiles pos hw, hless, hgreater]
  have hhigh : ∀ {w}, h.max < w → h.estimate ℚ op w = 1 ∧ h.estimate ℚ op.converse w = 0 := by
    intro w hw
    simp [estimate_of_max_lt tiles pos hw, hless, hgreater]
  by_cases hv : v < h.min
  · rw [(hlow hv).1, (hlow hv).2]
    exact ⟨(hunit op v').1, (hunit op.converse v').2⟩
  by_cases hv' : h.max < v'
  · rw [(hhigh hv').1, (hhigh hv').2]
    exact ⟨(hunit op v).2, (hunit op.converse v).1⟩
  -- Between the ends of the range lie both or neither.
  have hv := Int64.not_lt.mp hv
  have hv' := Int64.not_lt.mp hv'
  exact summarizes.estimate_mono_of_covers pos ⟨hv, Int64.le_trans hle hv'⟩
    ⟨Int64.le_trans hv hle, hv'⟩ hle hop

/-! ## Less, equal and greater -/

theorem Tiles.bounds_le_width (tiles : h.Tiles) (i : Nat) :
    (h.bounds i).2 - (h.bounds i).1 + 1 ≤ h.width := by
  have hwidth := tiles.width_pos
  simp only [bounds]
  omega

/-- What is missing of everything is the part of the bucket that was cut off. -/
theorem Summarizes.sum_eq (summarizes : h.Summarizes values) (pos : 0 < h.total)
    (covers : h.Covers v) :
    h.estimate ℚ .lt v + h.estimate ℚ .eq v + h.estimate ℚ .gt v
      = 1 - h.height (h.indexOf v)
          * ((h.width - ((h.bounds (h.indexOf v)).2 - (h.bounds (h.indexOf v)).1 + 1) : Int)
            / h.width) / h.total := by
  obtain ⟨tiles, counts, -⟩ := summarizes
  have htotal : (h.total : ℚ) ≠ 0 := by positivity
  have hwidth : (h.width : ℚ) ≠ 0 := Int.cast_ne_zero.mpr tiles.width_pos.ne'
  simp only [counts.estimate_eq tiles pos covers, outside, portion]
  push_cast
  field_simp
  rw [counts.total_split_rat (h.indexOf v)]
  ring

/-- Less, equal and greater make up no more than everything, and all of it if the bucket is empty
or is not cut off. -/
theorem Summarizes.sum_le_one (summarizes : h.Summarizes values) (pos : 0 < h.total)
    (covers : h.Covers v) :
    h.estimate ℚ .lt v + h.estimate ℚ .eq v + h.estimate ℚ .gt v ≤ 1
      ∧ (h.estimate ℚ .lt v + h.estimate ℚ .eq v + h.estimate ℚ .gt v = 1
        ↔ h.height (h.indexOf v) = 0
          ∨ (h.bounds (h.indexOf v)).2 - (h.bounds (h.indexOf v)).1 + 1 = h.width) := by
  have hcut := summarizes.tiles.bounds_le_width (h.indexOf v)
  have hwidth : (0 : ℚ) < h.width := Int.cast_pos.mpr summarizes.tiles.width_pos
  have htotal : (h.total : ℚ) ≠ 0 := by positivity
  have hmissing : (0 : ℚ)
      ≤ (h.width - ((h.bounds (h.indexOf v)).2 - (h.bounds (h.indexOf v)).1 + 1) : Int) :=
    Int.cast_nonneg (by omega)
  rw [summarizes.sum_eq pos covers]
  constructor
  · rw [sub_le_self_iff]
    positivity
  · rw [sub_eq_self, div_eq_zero_iff, mul_eq_zero, div_eq_zero_iff, Nat.cast_eq_zero,
      Int.cast_eq_zero]
    simp only [htotal, hwidth.ne', or_false]
    rw [sub_eq_zero, eq_comm (a := h.width)]

/-! ## The shape -/

/-- The estimates of a histogram are fractions in the order of the constants, and those for less,
equal and greater make up everything unless a bucket with values in it is cut off. -/
structure Regular (h : IntHistogram) : Prop where
  unit : ∀ op v, 0 ≤ h.estimate ℚ op v ∧ h.estimate ℚ op v ≤ 1
  lt_mono : ∀ v v', v ≤ v' → h.estimate ℚ .lt v ≤ h.estimate ℚ .lt v'
  le_mono : ∀ v v', v ≤ v' → h.estimate ℚ .le v ≤ h.estimate ℚ .le v'
  gt_anti : ∀ v v', v ≤ v' → h.estimate ℚ .gt v' ≤ h.estimate ℚ .gt v
  ge_anti : ∀ v v', v ≤ v' → h.estimate ℚ .ge v' ≤ h.estimate ℚ .ge v
  sum_le : ∀ v, h.Covers v →
    h.estimate ℚ .lt v + h.estimate ℚ .eq v + h.estimate ℚ .gt v ≤ 1
  sum_eq_iff : ∀ v, h.Covers v →
    (h.estimate ℚ .lt v + h.estimate ℚ .eq v + h.estimate ℚ .gt v = 1
      ↔ h.height (h.indexOf v) = 0
        ∨ (h.bounds (h.indexOf v)).2 - (h.bounds (h.indexOf v)).1 + 1 = h.width)

theorem Summarizes.regular (summarizes : h.Summarizes values) (pos : 0 < h.total) :
    h.Regular where
  unit := summarizes.estimate_mem_unit pos
  lt_mono := fun _ _ hle ↦ (summarizes.estimate_mono pos hle (.inl rfl)).1
  le_mono := fun _ _ hle ↦ (summarizes.estimate_mono pos hle (.inr rfl)).1
  gt_anti := fun _ _ hle ↦ (summarizes.estimate_mono pos hle (.inl rfl)).2
  ge_anti := fun _ _ hle ↦ (summarizes.estimate_mono pos hle (.inr rfl)).2
  sum_le := fun _ covers ↦ (summarizes.sum_le_one pos covers).1
  sum_eq_iff := fun _ covers ↦ (summarizes.sum_le_one pos covers).2

end IntHistogram

namespace TextHistogram

variable {h : TextHistogram} {texts : List String}

/-- The estimates of a histogram of texts are in the order of the constants. -/
structure Regular (h : TextHistogram) : Prop where
  lt_mono : ∀ s t, Text.compareBytes s t ≠ .gt → h.estimate ℚ .lt s ≤ h.estimate ℚ .lt t
  le_mono : ∀ s t, Text.compareBytes s t ≠ .gt → h.estimate ℚ .le s ≤ h.estimate ℚ .le t
  gt_anti : ∀ s t, Text.compareBytes s t ≠ .gt → h.estimate ℚ .gt t ≤ h.estimate ℚ .gt s
  ge_anti : ∀ s t, Text.compareBytes s t ≠ .gt → h.estimate ℚ .ge t ≤ h.estimate ℚ .ge s

theorem regular (regular : h.keys.Regular) : h.Regular where
  lt_mono := by
    intro s t hle
    simpa [estimate] using regular.lt_mono _ _ (clampedKey_mono hle)
  le_mono := by
    intro s t hle
    simpa [estimate] using regular.le_mono _ _ (clampedKey_mono hle)
  gt_anti := by
    intro s t hle
    simpa [estimate] using regular.gt_anti _ _ (clampedKey_mono hle)
  ge_anti := by
    intro s t hle
    simpa [estimate] using regular.ge_anti _ _ (clampedKey_mono hle)

end TextHistogram

/-- **The shape of estimates.** Once a histogram has accepted a value, its estimates are fractions
that grow and fall with the constant as the fractions they stand for do, and less, equal and greater
make up everything except for what is cut off of the bucket. The estimates of a histogram of texts
follow the order of texts. -/
theorem estimates_regular :
    (∀ buckets low high h values, IntHistogram.ofRange buckets low high = .ok h →
      0 < (h.feed values).2.total → (h.feed values).2.Regular)
    ∧ ∀ buckets h texts, TextHistogram.ofBuckets buckets = .ok h →
      0 < (h.feed texts).2.total → (h.feed texts).2.Regular := by
  constructor
  · intro buckets low high h values hnew pos
    exact (IntHistogram.summarizes_feed hnew values).regular pos
  · intro buckets h texts hnew pos
    have summarizes := (TextHistogram.summarizes_feed hnew texts).1
    exact TextHistogram.regular (summarizes.regular pos)

/-- The second of two buckets has the last four of nine numbers and is five wide. -/
theorem estimates_regular_cut :
    ∃ h, IntHistogram.ofRange 2 0 8 = .ok h ∧ 0 < (h.feed [1, 12, 7]).2.total
      ∧ (h.feed [1, 12, 7]).2.Regular
      ∧ (h.feed [1, 12, 7]).2.estimate ℚ .lt 6 + (h.feed [1, 12, 7]).2.estimate ℚ .eq 6
        + (h.feed [1, 12, 7]).2.estimate ℚ .gt 6 = 9 / 10
      ∧ ∃ h', TextHistogram.ofBuckets 26 = .ok h' ∧ 0 < (h'.feed ["carol"]).2.total
        ∧ (h'.feed ["carol"]).2.Regular := by
  obtain ⟨h, hnew, -⟩ := IntHistogram.ofRange_eq_ok (show 0 < 2 by decide)
    (show (0 : Int64) ≤ 8 by decide)
  obtain rfl : ⟨.replicate 2 0, 0, 8, 5, 0⟩ = h := Except.ok.inj hnew
  obtain ⟨h', htexts⟩ := TextHistogram.ofBuckets_eq_ok (show 0 < 26 by decide)
  have htotal : 0 < (h'.feed ["carol"]).2.total :=
    Nat.lt_of_lt_of_eq Nat.one_pos
      (TextHistogram.summarizes_feed htexts ["carol"]).1.counts.total_eq.symm
  exact ⟨_, hnew, by decide, estimates_regular.1 2 0 8 _ [1, 12, 7] hnew (by decide),
    by decide +kernel, _, htexts, htotal, estimates_regular.2 26 _ ["carol"] htexts htotal⟩

end QueryEngine
