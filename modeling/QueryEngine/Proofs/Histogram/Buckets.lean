import QueryEngine.Proofs.Histogram.Counts
import QueryEngine.Proofs.Integer

/-!
# The buckets of a range

The buckets of a histogram divide its range: every value but the largest lies within the bounds of
one bucket only, and `indexOf` finds it. The largest value goes to the last bucket, whose bounds it
belongs to as well.

## Buckets beyond the range

The width is rounded up, so the last buckets may lie beyond the range. Cut off at the end of the
range, they are left with its largest value. `Tiles` keeps what the arguments need of the rounding:
that the buckets together are wide enough for the range, and by how much they may reach beyond it.

## Arithmetic of limited size

The width, the bucket of a value and the bounds of a bucket are computed with 128 bits, and the
number of a bucket has 64. `width?`, `index?` and `bounds?` compute them again, with every
intermediate result checked to have room.
-/

namespace QueryEngine.IntHistogram

variable {h h' : IntHistogram} {buckets : Nat} {low high v v' : Int64} {i : Nat}

/-! ## Widths -/

/-- The buckets are wide enough for the range, and reach beyond it by less than one value each. -/
structure Tiles (h : IntHistogram) : Prop where
  buckets_pos : 0 < h.buckets
  min_le_max : h.min.toInt ≤ h.max.toInt
  width_pos : 0 < h.width
  span_le : h.max.toInt - h.min.toInt + 1 ≤ h.buckets * h.width
  lt_span : h.buckets * h.width < h.max.toInt - h.min.toInt + 1 + h.buckets

theorem Spans.tiles (spans : h.Spans buckets low high) (pos : 0 < buckets) (range : low ≤ high) :
    h.Tiles := by
  obtain ⟨rfl, rfl, rfl, hwidth⟩ := spans
  have hpos : 0 < (h.buckets : Int) := Int.natCast_pos.mpr pos
  have hrange : h.min.toInt ≤ h.max.toInt := Int64.le_iff_toInt_le.mp range
  have hbelow := Int.lt_ediv_add_one_mul_self (h.max.toInt - h.min.toInt + 1 + h.buckets - 1) hpos
  have habove := Int.ediv_mul_le (h.max.toInt - h.min.toInt + 1 + h.buckets - 1)
    (Int.ne_of_gt hpos)
  have hone : 1 ≤ (h.max.toInt - h.min.toInt + 1 + h.buckets - 1) / (h.buckets : Int) :=
    Int.le_ediv_of_mul_le hpos (by omega)
  rw [← hwidth, Int.add_mul, Int.mul_comm] at hbelow
  rw [← hwidth, Int.mul_comm] at habove
  rw [← hwidth] at hone
  exact ⟨pos, hrange, by omega, by omega, by omega⟩

theorem Tiles.of_same (tiles : h.Tiles) (same : h.SameBuckets h') : h'.Tiles := by
  obtain ⟨hpos, hrange, hwidth, hle, hlt⟩ := tiles
  rw [← same.buckets_eq] at hpos hle hlt
  rw [← same.min_eq] at hrange hle hlt
  rw [← same.max_eq] at hrange hle hlt
  rw [← same.width_eq] at hwidth hle hlt
  exact ⟨hpos, hrange, hwidth, hle, hlt⟩

/-- The state of a histogram in use: its buckets are wide enough, and it has counted the given
values of its range. -/
structure Summarizes (h : IntHistogram) (values : List Int64) : Prop where
  tiles : h.Tiles
  counts : h.Counts values
  covers : ∀ v ∈ values, h.Covers v

/-- Whatever a histogram is fed, it has counted what it did not refuse. -/
theorem summarizes_feed (hnew : ofRange buckets low high = .ok h) (values : List Int64) :
    (h.feed values).2.Summarizes (h.accepted values) := by
  obtain ⟨hpos, hrange, spans, counts⟩ := spans_of_ofRange hnew
  have same := same_feed h values
  refine ⟨(spans.tiles hpos hrange).of_same same, ?_, fun v hv ↦ ?_⟩
  · simpa using counts.feed values
  · exact same.covers_iff.mpr (covers_of_mem_accepted hv)

theorem Covers.toInt (covers : h.Covers v) :
    h.min.toInt ≤ v.toInt ∧ v.toInt ≤ h.max.toInt :=
  ⟨Int64.le_iff_toInt_le.mp covers.1, Int64.le_iff_toInt_le.mp covers.2⟩

theorem Covers.toInt_lt (covers : h.Covers v) (ne : v ≠ h.max) : v.toInt < h.max.toInt :=
  Int.lt_iff_le_and_ne.mpr ⟨covers.toInt.2, fun heq ↦ ne (Int64.toInt_inj.mp heq)⟩

/-! ## The bucket of a value -/

theorem indexOf_max (h : IntHistogram) : h.indexOf h.max = h.buckets - 1 := by
  rw [indexOf, if_pos rfl]

theorem Tiles.quotient_bounds (tiles : h.Tiles) (covers : h.Covers v) :
    0 ≤ (v.toInt - h.min.toInt) / h.width
      ∧ (v.toInt - h.min.toInt) / h.width < h.buckets := by
  have hv := covers.toInt
  have hspan := tiles.span_le
  refine ⟨Int.ediv_nonneg (by omega) (Int.le_of_lt tiles.width_pos), ?_⟩
  exact Int.ediv_lt_of_lt_mul tiles.width_pos (by omega)

/-- The largest value apart, the bucket of a value is a quotient, nothing of which is cut off. -/
theorem Tiles.indexOf_cast (tiles : h.Tiles) (covers : h.Covers v) (ne : v ≠ h.max) :
    (h.indexOf v : Int) = (v.toInt - h.min.toInt) / h.width := by
  obtain ⟨hnonneg, hlt⟩ := tiles.quotient_bounds covers
  have hmin : Nat.min ((v.toInt - h.min.toInt) / h.width).toNat (h.buckets - 1)
      = ((v.toInt - h.min.toInt) / h.width).toNat := Nat.min_eq_left (by omega)
  rw [indexOf, if_neg ne, hmin, Int.toNat_of_nonneg hnonneg]

theorem Tiles.indexOf_mul_le (tiles : h.Tiles) (covers : h.Covers v) (ne : v ≠ h.max) :
    h.indexOf v * h.width ≤ v.toInt - h.min.toInt := by
  rw [tiles.indexOf_cast covers ne]
  exact Int.ediv_mul_le _ (Int.ne_of_gt tiles.width_pos)

theorem Tiles.lt_indexOf_mul (tiles : h.Tiles) (covers : h.Covers v) :
    v.toInt - h.min.toInt < h.indexOf v * h.width + h.width := by
  by_cases ne : v = h.max
  · -- The last bucket ends where all buckets do.
    have hpos := tiles.buckets_pos
    have hlast : ((h.buckets - 1 : Nat) : Int) = h.buckets - 1 := by omega
    have hspan := tiles.span_le
    rw [ne, indexOf_max, hlast, Int.sub_mul]
    omega
  · rw [tiles.indexOf_cast covers ne]
    have hlt := Int.lt_ediv_add_one_mul_self (v.toInt - h.min.toInt) tiles.width_pos
    rwa [Int.add_mul, Int.one_mul] at hlt

theorem Tiles.indexOf_mono (tiles : h.Tiles) (covers : h.Covers v) (covers' : h.Covers v')
    (hle : v ≤ v') : h.indexOf v ≤ h.indexOf v' := by
  have hlt := indexOf_lt tiles.buckets_pos v
  by_cases ne' : v' = h.max
  · rw [ne', indexOf_max]
    omega
  · have ne : v ≠ h.max := by
      rintro rfl
      exact ne' (Int64.le_antisymm covers'.2 hle)
    have hquotient : (v.toInt - h.min.toInt) / h.width ≤ (v'.toInt - h.min.toInt) / h.width :=
      Int.ediv_le_ediv tiles.width_pos (Int.sub_le_sub_right (Int64.le_iff_toInt_le.mp hle) _)
    rw [← tiles.indexOf_cast covers ne, ← tiles.indexOf_cast covers' ne'] at hquotient
    exact Int.ofNat_le.mp hquotient

/-! ## Bounds -/

/-- A bucket that has the value within its bounds, which lie in the range and are no further apart
than a bucket is wide. -/
structure Houses (h : IntHistogram) (i : Nat) (v : Int64) : Prop where
  lt_buckets : i < h.buckets
  min_le : h.min.toInt ≤ (h.bounds i).1
  left_le : (h.bounds i).1 ≤ v.toInt
  le_right : v.toInt ≤ (h.bounds i).2
  right_le : (h.bounds i).2 ≤ h.max.toInt
  sub_left_le : v.toInt - (h.bounds i).1 ≤ h.width - 1
  right_sub_le : (h.bounds i).2 - v.toInt ≤ h.width - 1

theorem Tiles.houses (tiles : h.Tiles) (covers : h.Covers v) : h.Houses (h.indexOf v) v := by
  obtain ⟨hmin, hmax⟩ := covers.toInt
  have hstart : 0 ≤ h.indexOf v * h.width :=
    Int.mul_nonneg (Int.natCast_nonneg _) (Int.le_of_lt tiles.width_pos)
  have hwidth := tiles.width_pos
  have hend := tiles.lt_indexOf_mul covers
  have hbegin : h.min.toInt + h.indexOf v * h.width ≤ v.toInt ∨ v.toInt = h.max.toInt := by
    by_cases ne : v = h.max
    · exact .inr (congrArg Int64.toInt ne)
    · have := tiles.indexOf_mul_le covers ne
      exact .inl (by omega)
  refine ⟨indexOf_lt tiles.buckets_pos v, ?_, ?_, ?_, ?_, ?_, ?_⟩ <;> rw [bounds] <;> omega

/-- Only one bucket has a value within its bounds, unless the value is the largest one. -/
theorem Tiles.eq_indexOf (tiles : h.Tiles) (covers : h.Covers v) (ne : v ≠ h.max)
    (left_le : (h.bounds i).1 ≤ v.toInt) (le_right : v.toInt ≤ (h.bounds i).2) :
    i = h.indexOf v := by
  have hlt := covers.toInt_lt ne
  rw [bounds] at left_le le_right
  dsimp only at left_le le_right
  have hbegin : i * h.width ≤ v.toInt - h.min.toInt := by omega
  have hend : v.toInt - h.min.toInt < (i + 1) * h.width := by
    rw [Int.add_mul, Int.one_mul]
    omega
  have hindex := tiles.indexOf_cast covers ne
  have hle := (Int.le_ediv_iff_mul_le tiles.width_pos).mpr hbegin
  have hge := (Int.ediv_lt_iff_lt_mul tiles.width_pos).mpr hend
  omega

/-! ## Arithmetic of limited size -/

/-- The width of the buckets of a range, if there is room for every step. -/
def width? (buckets : Nat) (min max : Int64) : Option Int := do
  let distance ← int128? (max.toInt - min.toInt)
  let span ← int128? (distance + 1)
  let count ← int128? buckets
  let padded ← int128? (span + count)
  let dividend ← int128? (padded - 1)
  int128? (dividend.tdiv count)

/-- The bucket of a value, if there is room for every step. -/
def index? (h : IntHistogram) (v : Int64) : Option Nat :=
  if v = h.max then some (h.buckets - 1)
  else do
    let distance ← int128? (v.toInt - h.min.toInt)
    let quotient ← int128? (distance.tdiv h.width)
    let index ← word? quotient
    some (Nat.min index (h.buckets - 1))

/-- The bounds of a bucket, if there is room for every step. -/
def bounds? (h : IntHistogram) (i : Nat) : Option (Int × Int) := do
  let number ← int128? i
  let before ← int128? (number * h.width)
  let left ← int128? (h.min.toInt + before)
  let next ← int128? (left + h.width)
  let last ← int128? (next - 1)
  some (Min.min left h.max.toInt, Min.min last h.max.toInt)

theorem Tiles.width_le (tiles : h.Tiles) : h.width ≤ h.buckets * h.width := by
  have hpos := tiles.buckets_pos
  calc h.width = 1 * h.width := (Int.one_mul _).symm
    _ ≤ h.buckets * h.width :=
      Int.mul_le_mul_of_nonneg_right (by omega) (Int.le_of_lt tiles.width_pos)

theorem Spans.width?_eq (spans : h.Spans buckets low high) (tiles : h.Tiles)
    (few : buckets < 2 ^ 64) : width? buckets low high = some h.width := by
  obtain ⟨rfl, rfl, rfl, hwidth⟩ := spans
  have hlt := distance_lt h.min h.max
  have hrange := tiles.min_le_max
  have hreach := tiles.lt_span
  have hwidth_le := tiles.width_le
  have hwidth_pos := tiles.width_pos
  have hquotient : (h.max.toInt - h.min.toInt + 1 + h.buckets - 1).tdiv h.buckets = h.width := by
    rw [Int.tdiv_eq_ediv_of_nonneg (by omega), hwidth]
  have hdistance : int128? (h.max.toInt - h.min.toInt) = some _ :=
    int128?_of_bounds (by omega) (by omega)
  have hspan : int128? (h.max.toInt - h.min.toInt + 1) = some _ :=
    int128?_of_bounds (by omega) (by omega)
  have hcount : int128? h.buckets = some _ := int128?_of_bounds (by omega) (by omega)
  have hpadded : int128? (h.max.toInt - h.min.toInt + 1 + h.buckets) = some _ :=
    int128?_of_bounds (by omega) (by omega)
  have hdividend : int128? (h.max.toInt - h.min.toInt + 1 + h.buckets - 1) = some _ :=
    int128?_of_bounds (by omega) (by omega)
  have hresult : int128? h.width = some _ := int128?_of_bounds (by omega) (by omega)
  simp [width?, hdistance, hspan, hcount, hpadded, hdividend, hquotient, hresult]

theorem Tiles.index?_eq (tiles : h.Tiles) (few : h.buckets < 2 ^ 64) (covers : h.Covers v) :
    h.index? v = some (h.indexOf v) := by
  rw [index?, indexOf]
  split
  · rfl
  · obtain ⟨hmin, hmax⟩ := covers.toInt
    obtain ⟨hnonneg, hlt⟩ := tiles.quotient_bounds covers
    have hfar := distance_lt h.min v
    have htdiv : (v.toInt - h.min.toInt).tdiv h.width = (v.toInt - h.min.toInt) / h.width :=
      Int.tdiv_eq_ediv_of_nonneg (by omega)
    have hdistance : int128? (v.toInt - h.min.toInt) = some _ :=
      int128?_of_bounds (by omega) (by omega)
    have hquotient : int128? ((v.toInt - h.min.toInt) / h.width) = some _ :=
      int128?_of_bounds (by omega) (by omega)
    have hword : word? ((v.toInt - h.min.toInt) / h.width) = some _ :=
      if_pos ⟨hnonneg, by omega⟩
    simp [hdistance, htdiv, hquotient, hword]

theorem Tiles.bounds?_eq (tiles : h.Tiles) (few : h.buckets < 2 ^ 64) (lt : i < h.buckets) :
    h.bounds? i = some (h.bounds i) := by
  have hfar := distance_lt h.min h.max
  have hlow := h.min.le_toInt
  have hhigh := h.min.toInt_lt
  have hreach := tiles.lt_span
  have hwidth_pos := tiles.width_pos
  have hstart : 0 ≤ i * h.width :=
    Int.mul_nonneg (Int.natCast_nonneg i) (Int.le_of_lt hwidth_pos)
  -- The bucket ends no later than the last one does.
  have hnext : i * h.width + h.width ≤ h.buckets * h.width := by
    calc (i * h.width + h.width : Int) = (i + 1) * h.width := by rw [Int.add_mul, Int.one_mul]
      _ ≤ h.buckets * h.width :=
        Int.mul_le_mul_of_nonneg_right (by omega) (Int.le_of_lt hwidth_pos)
  have hnumber : int128? i = some _ := int128?_of_bounds (by omega) (by omega)
  have hbefore : int128? (i * h.width) = some _ := int128?_of_bounds (by omega) (by omega)
  have hleft : int128? (h.min.toInt + i * h.width) = some _ :=
    int128?_of_bounds (by omega) (by omega)
  have hpast : int128? (h.min.toInt + i * h.width + h.width) = some _ :=
    int128?_of_bounds (by omega) (by omega)
  have hlast : int128? (h.min.toInt + i * h.width + h.width - 1) = some _ :=
    int128?_of_bounds (by omega) (by omega)
  simp [bounds?, bounds, hnumber, hbefore, hleft, hpast, hlast]

/-! ## The partition -/

/-- The buckets, so many of them, divide the range: each value of it has one, in order, and there is
room for every number that leads to it. -/
structure Partitions (h : IntHistogram) (buckets : Nat) (low high : Int64) : Prop where
  spans : h.Spans buckets low high
  houses : ∀ v, h.Covers v → h.Houses (h.indexOf v) v
  mono : ∀ v v', h.Covers v → h.Covers v' → v ≤ v' → h.indexOf v ≤ h.indexOf v'
  indexOf_high : h.indexOf high = buckets - 1
  unique : ∀ v i, h.Covers v → v < high → (h.bounds i).1 ≤ v.toInt → v.toInt ≤ (h.bounds i).2 →
    i = h.indexOf v
  index_fits : ∀ v, h.Covers v → h.index? v = some (h.indexOf v)
  bounds_fit : ∀ i < buckets, h.bounds? i = some (h.bounds i)

/-- **The buckets divide the range.** A histogram can be made with any number of buckets of 64 bits
over any range. Every value of the range lies in its bucket, within bounds that are no further apart
than the bucket is wide, and the buckets follow the order of the values. The largest value goes to
the last bucket, and no other value lies within the bounds of two buckets. Whatever has been
counted, no number on the way to the width, to a bucket or to its bounds leaves the 128 bits, and
the quotient that tells the bucket is a number of 64 bits without a sign. -/
theorem ofRange_partitions (pos : 0 < buckets) (few : buckets < 2 ^ 64) (range : low ≤ high) :
    ∃ h, ofRange buckets low high = .ok h ∧ width? buckets low high = some h.width
      ∧ ∀ values, (h.feed values).2.Partitions buckets low high := by
  obtain ⟨h, hnew, spans, -⟩ := ofRange_eq_ok pos range
  have tiles := spans.tiles pos range
  refine ⟨h, hnew, spans.width?_eq tiles few, fun values ↦ ?_⟩
  have same := same_feed h values
  generalize (h.feed values).2 = h' at same
  have spans' := spans.of_same same
  have tiles' := tiles.of_same same
  obtain ⟨rfl, rfl, rfl, -⟩ := id spans'
  refine ⟨spans', fun v ↦ tiles'.houses, fun v v' ↦ tiles'.indexOf_mono, h'.indexOf_max,
    fun v i covers hlt ↦ tiles'.eq_indexOf covers (Int64.ne_of_lt hlt),
    fun v ↦ tiles'.index?_eq few, fun i ↦ tiles'.bounds?_eq few⟩

/-- Six buckets of two values each for ten values. The last bucket lies beyond the range, and has
its largest value all the same. -/
theorem ofRange_partitions_beyond : 0 < 6 ∧ 6 < 2 ^ 64 ∧ (0 : Int64) ≤ 9
    ∧ ∃ h, ofRange 6 0 9 = .ok h ∧ width? 6 0 9 = some 2
      ∧ (h.feed [9, 10, 8]).2.Partitions 6 0 9
      ∧ (h.feed [9, 10, 8]).2.indexOf 9 = 5 ∧ (h.feed [9, 10, 8]).2.bounds 5 = (9, 9)
      ∧ (h.feed [9, 10, 8]).2.indexOf 8 = 4 ∧ (h.feed [9, 10, 8]).2.bounds 4 = (8, 9) := by
  obtain ⟨h, hnew, hwidth, hpartitions⟩ :=
    ofRange_partitions (show 0 < 6 by decide) (by decide) (show (0 : Int64) ≤ 9 by decide)
  obtain rfl : ⟨.replicate 6 0, 0, 9, 2, 0⟩ = h := Except.ok.inj hnew
  exact ⟨by decide, by decide, by decide, _, hnew, hwidth, hpartitions _, by decide, by decide,
    by decide, by decide⟩

end QueryEngine.IntHistogram
