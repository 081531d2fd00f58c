import QueryEngine.Proofs.Comparison
import QueryEngine.Proofs.Histogram.Estimates
import QueryEngine.Proofs.Histogram.Keys

/-!
# How far estimates are off

A histogram has forgotten the values, but its buckets keep their order: what was counted in a bucket
before that of a constant is less than the constant, and what was counted after it is greater. Only
the values in the bucket of the constant can go either way. So the number of values that a
comparison holds for and the number that the estimate stands for lie between the same two bounds,
which are apart by the height of that bucket.

Texts are counted under keys. Texts with different keys are in the order of their keys, and that is
all the argument needs, which is therefore made for anything that is counted under a key.
-/

namespace QueryEngine

/-- The fraction of values that a comparison with a given one holds for. -/
def Comparison.frequency (op : Comparison) (values : List Value) (v : Value) : ℚ :=
  values.countP (fun x ↦ op.evaluate x v = .ok true) / values.length

namespace IntHistogram

variable {h : IntHistogram} {values : List Int64} {v v' : Int64} {i : Nat}

/-! ## Values that are counted under keys -/

section Keys

variable {α : Type} {xs : List α} {key : α → Int64} {order : α → Ordering}

/-- Things of which the earlier ones are less and the later ones greater than a constant: how many
of them a comparison holds for is known up to those at the place of the constant. -/
private theorem countP_order_bounds {place : α → Nat} {i : Nat}
    (before : ∀ x ∈ xs, place x < i → order x = .lt)
    (after : ∀ x ∈ xs, i < place x → order x = .gt) (admits : Ordering → Bool) :
    (if admits .lt then xs.countP (place · < i) else 0)
          + (if admits .gt then xs.countP (i < place ·) else 0)
        ≤ xs.countP (admits <| order ·)
      ∧ xs.countP (admits <| order ·)
        ≤ (if admits .lt then xs.countP (place · < i) else 0)
          + (if admits .gt then xs.countP (i < place ·) else 0) + xs.countP (place · = i) := by
  induction xs with
  | nil => simp
  | cons x rest ih =>
    have hrest := ih (fun y hy ↦ before y (List.mem_cons_of_mem x hy))
      fun y hy ↦ after y (List.mem_cons_of_mem x hy)
    have hbefore := before x List.mem_cons_self
    have hafter := after x List.mem_cons_self
    simp only [List.countP_cons, decide_eq_true_eq]
    -- Only at the place of the constant is the order left open, and there the bounds are apart.
    rcases Nat.lt_trichotomy (place x) i with hlt | heq | hgt
    · rw [hbefore hlt, if_pos hlt, if_neg (Nat.lt_asymm hlt), if_neg (Nat.ne_of_lt hlt)]
      split_ifs at hrest ⊢ <;> omega
    · rw [if_neg (Nat.not_lt.mpr heq.ge), if_neg (Nat.not_lt.mpr heq.le), if_pos heq]
      split_ifs at hrest ⊢ <;> omega
    · rw [hafter hgt, if_pos hgt, if_neg (Nat.lt_asymm hgt), if_neg (Nat.ne_of_gt hgt)]
      split_ifs at hrest ⊢ <;> omega

/-- How many of the things that are counted a comparison with a constant holds for, up to those in
the bucket of the constant. -/
theorem Counts.countP_admits_bounds (counts : h.Counts (xs.map key))
    (before : ∀ x ∈ xs, h.indexOf (key x) < i → order x = .lt)
    (after : ∀ x ∈ xs, i < h.indexOf (key x) → order x = .gt) (op : Comparison) :
    h.outside op i ≤ xs.countP (op.admits <| order ·)
      ∧ xs.countP (op.admits <| order ·) ≤ h.outside op i + h.height i := by
  have hbounds := countP_order_bounds before after op.admits
  have hbelow : h.below i = xs.countP fun x ↦ h.indexOf (key x) < i := by
    rw [counts.below_eq, List.countP_map]
    rfl
  have habove : h.above i = xs.countP fun x ↦ i < h.indexOf (key x) := by
    rw [counts.above_eq, List.countP_map]
    rfl
  have hheight : h.height i = xs.countP fun x ↦ h.indexOf (key x) = i := by
    rw [counts.height_eq, List.countP_map]
    rfl
  rw [← hbelow, ← habove, ← hheight] at hbounds
  cases op <;> simpa [outside, Comparison.admits] using hbounds

/-- The estimate for a constant of the range and the fraction of the things that are counted are
apart by no more than the fraction that the bucket of the constant is. -/
theorem Summarizes.abs_estimate_sub_le (summarizes : h.Summarizes (xs.map key)) (ne : xs ≠ [])
    (covers : h.Covers v)
    (before : ∀ x ∈ xs, h.indexOf (key x) < h.indexOf v → order x = .lt)
    (after : ∀ x ∈ xs, h.indexOf v < h.indexOf (key x) → order x = .gt) (op : Comparison) :
    |h.estimate ℚ op v - xs.countP (op.admits <| order ·) / xs.length|
      ≤ h.height (h.indexOf v) / h.total := by
  obtain ⟨tiles, counts, -⟩ := summarizes
  have htotal : h.total = xs.length := counts.total_eq.trans (List.length_map _)
  have hpos : 0 < h.total := htotal ▸ List.length_pos_iff.mpr ne
  obtain ⟨hlower, hupper⟩ := counts.estimate_bounds tiles hpos covers op
  obtain ⟨hlower', hupper'⟩ := counts.countP_admits_bounds before after op
  rw [← htotal]
  calc |h.estimate ℚ op v - xs.countP (op.admits <| order ·) / h.total|
      ≤ (h.outside op (h.indexOf v) + h.height (h.indexOf v) : ℚ) / h.total
          - h.outside op (h.indexOf v) / h.total := by
        refine abs_sub_le_of_le_of_le hlower hupper ?_ ?_
        · gcongr
        · gcongr
          exact_mod_cast hupper'
    _ = h.height (h.indexOf v) / h.total := by ring

theorem Tiles.lt_of_indexOf_lt (tiles : h.Tiles) (covers : h.Covers v) (covers' : h.Covers v')
    (hlt : h.indexOf v < h.indexOf v') : v < v' := by
  by_contra hge
  exact Nat.not_lt.mpr (tiles.indexOf_mono covers' covers (Int64.not_lt.mp hge)) hlt

end Keys

/-! ## Integers -/

/-- The estimates of a histogram agree with the fractions of given numbers: exactly for constants
out of range, and up to the bucket of the constant for those of the range. -/
structure Approximates (h : IntHistogram) (numbers : List Int64) : Prop where
  exact_outside : ∀ op v, ¬h.Covers v →
    h.estimate ℚ op v = op.frequency (numbers.map .integer) (.integer v)
  close_inside : ∀ op v, h.Covers v →
    |h.estimate ℚ op v - op.frequency (numbers.map .integer) (.integer v)|
      ≤ h.height (h.indexOf v) / h.total

theorem frequency_integer (op : Comparison) (values : List Int64) (v : Int64) :
    op.frequency (values.map .integer) (.integer v)
      = (values.countP fun x ↦ op.admits (compare x.toInt v.toInt)) / values.length := by
  rw [Comparison.frequency, List.countP_map, List.length_map]
  simp [Function.comp_def, Comparison.evaluate_integer]

/-- If all values are on one side of the constant, the fraction is all of them or none. -/
theorem frequency_of_forall {o : Ordering} (ne : values ≠ [])
    (all : ∀ x ∈ values, compare x.toInt v.toInt = o) (op : Comparison) :
    op.frequency (values.map .integer) (.integer v) = if op.admits o then 1 else 0 := by
  have hlength : (values.length : ℚ) ≠ 0 := by simpa using ne
  have hsame : values.countP (fun x ↦ op.admits (compare x.toInt v.toInt))
      = values.countP fun _ ↦ op.admits o :=
    List.countP_congr fun x hx ↦ by rw [all x hx]
  rw [frequency_integer, hsame]
  split
  · next hadmits => simp [hadmits, hlength]
  · next hadmits => simp [hadmits]

theorem Summarizes.approximates (summarizes : h.Summarizes values) (ne : values ≠ []) :
    h.Approximates values where
  exact_outside := by
    intro op v hv
    have hpos : 0 < h.total := summarizes.counts.total_eq ▸ List.length_pos_iff.mpr ne
    rcases lt_min_or_max_lt hv with hmin | hmax
    · rw [estimate_of_lt_min summarizes.tiles hpos hmin, frequency_of_forall ne fun x hx ↦ ?_]
      have hx := (summarizes.covers x hx).toInt.1
      rw [Int64.lt_iff_toInt_lt] at hmin
      exact compare_gt_iff_gt.mpr (by omega)
    · rw [estimate_of_max_lt summarizes.tiles hpos hmax, frequency_of_forall ne fun x hx ↦ ?_]
      have hx := (summarizes.covers x hx).toInt.2
      rw [Int64.lt_iff_toInt_lt] at hmax
      exact compare_lt_iff_lt.mpr (by omega)
  close_inside := by
    intro op v hv
    have tiles := summarizes.tiles
    rw [frequency_integer]
    have hkeys : h.Summarizes (values.map id) := by rwa [List.map_id]
    refine hkeys.abs_estimate_sub_le ne hv ?_ ?_ op
    · intro x hx hlt
      have hless := tiles.lt_of_indexOf_lt (summarizes.covers x hx) hv hlt
      exact compare_lt_iff_lt.mpr (Int64.lt_iff_toInt_lt.mp hless)
    · intro x hx hgt
      have hgreater := tiles.lt_of_indexOf_lt hv (summarizes.covers x hx) hgt
      exact compare_gt_iff_gt.mpr (Int64.lt_iff_toInt_lt.mp hgreater)

end IntHistogram

/-! ## Texts -/

namespace TextHistogram

variable {h : TextHistogram} {texts : List String}

/-- The estimates of a histogram of texts agree with the fractions of given texts, up to the bucket
of the key of the constant. LIKE, of which a key says nothing, is left out. -/
def Approximates (h : TextHistogram) (texts : List String) : Prop :=
  ∀ op s, op ≠ .like →
    |h.estimate ℚ op s - op.frequency (texts.map .text) (.text s)|
      ≤ h.keys.height (h.keys.indexOf (clampedKey s)) / h.total

theorem frequency_text {op : Comparison} (ne : op ≠ .like) (texts : List String) (s : String) :
    op.frequency (texts.map .text) (.text s)
      = (texts.countP fun x ↦ op.admits (Text.compareBytes x s)) / texts.length := by
  rw [Comparison.frequency, List.countP_map, List.length_map]
  simp [Function.comp_def, Comparison.evaluate_text ne]

theorem approximates (summarizes : h.keys.Summarizes (texts.map clampedKey))
    (covers : ∀ s, h.keys.Covers (clampedKey s)) (ne : texts ≠ []) : h.Approximates texts := by
  intro op s hop
  have tiles := summarizes.tiles
  rw [frequency_text hop, estimate, if_neg hop]
  refine summarizes.abs_estimate_sub_le ne (covers s) ?_ ?_ op
  · intro x _ hlt
    exact compareBytes_of_clampedKey_lt (tiles.lt_of_indexOf_lt (covers x) (covers s) hlt)
  · intro x _ hgt
    have hless := compareBytes_of_clampedKey_lt (tiles.lt_of_indexOf_lt (covers s) (covers x) hgt)
    rw [← Text.swap_compareBytes, hless]
    rfl

end TextHistogram

/-! ## Histograms in use -/

/-- **The accuracy of estimates.** A histogram of integers that has accepted a value estimates every
comparison with a constant out of range exactly, and with one of the range up to the fraction of the
values that are in the bucket of the constant. So does a histogram of texts, where it is the bucket
of the key of the constant. -/
theorem estimates_approximate :
    (∀ buckets low high h values, IntHistogram.ofRange buckets low high = .ok h →
      h.accepted values ≠ [] → (h.feed values).2.Approximates (h.accepted values))
    ∧ ∀ buckets h texts, TextHistogram.ofBuckets buckets = .ok h →
      texts ≠ [] → (h.feed texts).2.Approximates texts := by
  constructor
  · intro buckets low high h values hnew ne
    exact (IntHistogram.summarizes_feed hnew values).approximates ne
  · intro buckets h texts hnew ne
    obtain ⟨summarizes, covers⟩ := TextHistogram.summarizes_feed hnew texts
    exact TextHistogram.approximates summarizes covers ne

/-- Three of four numbers are in range. Two of them are 7, none is greater, and the estimate takes
a third of them to be. -/
theorem estimates_approximate_sevens :
    ∃ h, IntHistogram.ofRange 3 0 8 = .ok h ∧ h.accepted [1, 12, 7, 7] = [1, 7, 7]
      ∧ (h.feed [1, 12, 7, 7]).2.Approximates [1, 7, 7]
      ∧ (h.feed [1, 12, 7, 7]).2.estimate ℚ .gt 7 = 2 / 9
      ∧ Comparison.frequency .gt [.integer 1, .integer 7, .integer 7] (.integer 7) = 0
      ∧ ∃ h', TextHistogram.ofBuckets 26 = .ok h' ∧ ["carol", "dave"] ≠ []
        ∧ (h'.feed ["carol", "dave"]).2.Approximates ["carol", "dave"] := by
  obtain ⟨h, hnew, -⟩ := IntHistogram.ofRange_eq_ok (show 0 < 3 by decide)
    (show (0 : Int64) ≤ 8 by decide)
  obtain rfl : ⟨.replicate 3 0, 0, 8, 3, 0⟩ = h := Except.ok.inj hnew
  obtain ⟨h', htexts⟩ := TextHistogram.ofBuckets_eq_ok (show 0 < 26 by decide)
  have haccepted :
      IntHistogram.accepted ⟨.replicate 3 0, 0, 8, 3, 0⟩ [1, 12, 7, 7] = [1, 7, 7] := by
    decide
  refine ⟨_, hnew, haccepted, ?_, by decide +kernel, by decide +kernel, _, htexts, by decide, ?_⟩
  · have happroximates := estimates_approximate.1 3 0 8 _ [1, 12, 7, 7] hnew (by decide)
    rwa [haccepted] at happroximates
  · exact estimates_approximate.2 26 _ ["carol", "dave"] htexts (by decide)

end QueryEngine
