import QueryEngine.Proofs.Histogram.Estimates
import QueryEngine.Proofs.InPlace

/-!
# A histogram as a tally

A histogram is filled in place: a value that is in range goes up in the count of its bucket and then
in the total, and a value that is not is refused before either write (`addInPlace_outcome`). So the
histogram is at any time a tally of the values that were in range. Which of them are in the same
bucket is all that it knows of them, so it keeps no trace of their order or of refused values
between them.

The counts add up to the total. With fewer than `2 ^ 64` values, 64 bits hold it, and they hold
every sum on the way to the values before a bucket and to those after it.
-/

namespace QueryEngine.IntHistogram

variable {h h' : IntHistogram} {buckets : Nat} {low high v : Int64} {values values' : List Int64}

/-! ## Filling in place -/

/-- The answer to a value: whether it is in range. -/
def answer (h : IntHistogram) (v : Int64) : Except QueryError Unit :=
  if h.Covers v then .ok () else .error (.outsideRange v h.min h.max)

/-- Counts one more value, write by write, if it is in range. -/
def addInPlace (v : Int64) : InPlace IntHistogram Unit := do
  let h ← get
  h.answer v
  set { h with counts := h.counts.modify (h.indexOf v) (· + 1) }
  modify fun h ↦ { h with total := h.total + 1 }

theorem addInPlace_outcome (h : IntHistogram) (v : Int64) :
    (addInPlace v).outcome h = InPlace.allOrNothing (h.add v) h := by
  have hrun : (addInPlace v).outcome h = (do
      h.answer v
      set { h with counts := h.counts.modify (h.indexOf v) (· + 1) }
      modify fun h ↦ { h with total := h.total + 1 } : InPlace IntHistogram Unit).outcome h := rfl
  rw [hrun, add, answer]
  split <;> rfl

theorem SameBuckets.answer_eq (same : h.SameBuckets h') : h'.answer = h.answer := by
  funext v
  simp only [answer, same.covers_iff, same.min_eq, same.max_eq]

/-- Which values are refused does not depend on what was counted before. -/
theorem feed_fst (h : IntHistogram) (values : List Int64) :
    (h.feed values).1 = values.map h.answer := by
  induction values generalizing h with
  | nil => rfl
  | cons v rest ih =>
    rw [feed, List.map_cons, answer]
    by_cases covers : h.Covers v
    · have hadd : h.add v = .ok _ := if_pos covers
      rw [if_pos covers, hadd]
      exact congrArg (.ok () :: ·) ((ih _).trans (by rw [(same_of_add hadd).answer_eq]))
    · have hadd : h.add v = .error _ := if_neg covers
      rw [if_neg covers, hadd]
      exact congrArg (Except.error (.outsideRange v h.min h.max) :: ·) (ih h)

theorem feed_append (h : IntHistogram) (values values' : List Int64) :
    (h.feed (values ++ values')).2 = ((h.feed values).2.feed values').2 := by
  induction values generalizing h with
  | nil => rfl
  | cons v rest ih =>
    rw [List.cons_append, feed, feed]
    cases h.add v with
    | ok h' => exact ih h'
    | error e => exact ih h

theorem addInPlace_outcome_feed (h : IntHistogram) (values : List Int64) (v : Int64) :
    (addInPlace v).outcome (h.feed values).2
      = (h.answer v, if h.Covers v then (h.feed (values ++ [v])).2 else (h.feed values).2) := by
  have same := same_feed h values
  rw [addInPlace_outcome, feed_append, ← same.answer_eq, answer]
  simp only [← same.covers_iff]
  by_cases covers : (h.feed values).2.Covers v
  · rw [if_pos covers, if_pos covers, feed, add, if_pos covers]
    rfl
  · rw [if_neg covers, if_neg covers, add, if_neg covers]
    rfl

/-! ## Counts -/

/-- The values that are counted are those of the range. -/
theorem accepted_eq_filter (h : IntHistogram) (values : List Int64) :
    h.accepted values = values.filter (h.Covers ·) := by
  induction values generalizing h with
  | nil => rfl
  | cons v rest ih =>
    rw [accepted]
    by_cases covers : h.Covers v
    · have hadd : h.add v = .ok _ := if_pos covers
      rw [hadd, List.filter_cons_of_pos (by simpa using covers)]
      refine congrArg (v :: ·) ((ih _).trans ?_)
      simp only [(same_of_add hadd).covers_iff]
    · have hadd : h.add v = .error _ := if_neg covers
      rw [hadd, List.filter_cons_of_neg (by simpa using covers)]
      exact ih h

/-- The numbers added up in order, if 64 bits hold every sum on the way. -/
def sum? (counts : List Nat) : Option Nat :=
  counts.foldlM (fun sum count : Nat ↦ word? (sum + count)) 0

theorem sum?_eq {counts : List Nat} (fits : counts.sum < 2 ^ 64) :
    sum? counts = some counts.sum := by
  have hfrom : ∀ sum : Nat, sum + counts.sum < 2 ^ 64 →
      counts.foldlM (fun sum count : Nat ↦ word? (sum + count)) sum
        = some (sum + counts.sum) := by
    clear fits
    induction counts with
    | nil => exact fun _ _ ↦ rfl
    | cons count rest ih =>
      intro sum hfits
      rw [List.sum_cons, ← Nat.add_assoc] at hfits ⊢
      have hword : word? (sum + count) = some (sum + count) := if_pos ⟨by omega, by omega⟩
      rw [List.foldlM_cons, hword]
      exact ih (sum + count) hfits
  have hzero := hfrom 0 (by rwa [Nat.zero_add])
  rwa [Nat.zero_add] at hzero

theorem Counts.sum_eq (counts : h.Counts values) : h.counts.sum = h.total := by
  have hall : h.below h.buckets = h.counts.sum := by
    rw [below, buckets, List.take_length]
    rfl
  rw [← hall, counts.below_buckets]

/-- The histogram is a tally of the given values: each is counted once, in its bucket, and 64 bits
have room for the total and for everything that is added up for an estimate. -/
structure Tallies (h : IntHistogram) (values : List Int64) : Prop where
  height_eq : ∀ j, h.height j = values.countP fun v ↦ h.indexOf v = j
  total_eq : h.total = values.length
  sum_eq : h.counts.sum = h.total
  total_lt : h.total < 2 ^ 64
  below_fits : ∀ i, sum? (h.counts.take i) = some (h.below i)
  above_fits : ∀ i, sum? (h.counts.drop (i + 1)) = some (h.above i)

theorem Counts.tallies (counts : h.Counts values) (few : values.length < 2 ^ 64) :
    h.Tallies values := by
  have hfew : h.total < 2 ^ 64 := counts.total_eq ▸ few
  have hsplit : ∀ i, (h.counts.take i).sum + (h.counts.drop i).sum = h.total := by
    intro i
    rw [← List.sum_append, List.take_append_drop, counts.sum_eq]
  refine ⟨counts.height_eq, counts.total_eq, counts.sum_eq, hfew, fun i ↦ sum?_eq ?_,
    fun i ↦ sum?_eq ?_⟩
  · have := hsplit i
    omega
  · have := hsplit (i + 1)
    omega

/-! ## Runs of values -/

/-- **A histogram is a tally of the values in range.** A value is counted if it is in range and
refused otherwise, and a refused one changes nothing. At any time, each bucket has counted the
values in range that belong to it, the counts add up to their number, and no sum of counts has to
leave the 64 bits. The same values in range, in any order and with any refused ones in between, make
the same histogram, which has the same estimates. -/
theorem feed_tallies (hnew : ofRange buckets low high = .ok h) (few : values.length < 2 ^ 64) :
    h.Spans buckets low high
      ∧ (h.feed values).1 = values.map h.answer
      ∧ (∀ v, (addInPlace v).outcome (h.feed values).2
        = (h.answer v, if h.Covers v then (h.feed (values ++ [v])).2 else (h.feed values).2))
      ∧ h.SameBuckets (h.feed values).2
      ∧ (h.feed values).2.Tallies (values.filter (h.Covers ·))
      ∧ ∀ values', (values.filter (h.Covers ·)).Perm (values'.filter (h.Covers ·)) →
        (h.feed values').2 = (h.feed values).2
          ∧ ∀ (F : Type) [Fractional F] (op : Comparison) (v : Int64),
            (h.feed values').2.estimate F op v = (h.feed values).2.estimate F op v := by
  obtain ⟨-, -, spans, -⟩ := spans_of_ofRange hnew
  have same := same_feed h
  have counts : ∀ values, (h.feed values).2.Counts (values.filter (h.Covers ·)) := by
    intro values
    rw [← accepted_eq_filter]
    exact (summarizes_feed hnew values).counts
  have hfew : (values.filter (h.Covers ·)).length < 2 ^ 64 :=
    Nat.lt_of_le_of_lt (List.length_filter_le _ _) few
  refine ⟨spans, feed_fst h values, addInPlace_outcome_feed h values, same values,
    (counts values).tallies hfew, fun values' perm ↦ ?_⟩
  have heq := (counts values).ext_of_perm (counts values') ((same values).symm.trans (same values'))
    perm
  exact ⟨heq.symm, fun F _ op v ↦ by rw [heq]⟩

/-- Six buckets for ten values, the last one beyond the range. Of four values one is refused, and
the others make the same histogram when they come from the last to the first. -/
theorem feed_tallies_backwards :
    ∃ h, ofRange 6 0 9 = .ok h ∧ [9, 10, 8, 3].length < 2 ^ 64
      ∧ (h.feed [9, 10, 8, 3]).1 = [.ok (), .error (.outsideRange 10 0 9), .ok (), .ok ()]
      ∧ (h.feed [9, 10, 8, 3]).2.Tallies [9, 8, 3]
      ∧ (addInPlace (-1)).outcome (h.feed [9, 10, 8, 3]).2
        = (.error (.outsideRange (-1) 0 9), (h.feed [9, 10, 8, 3]).2)
      ∧ (h.feed [3, 8, -1, 9]).2 = (h.feed [9, 10, 8, 3]).2 := by
  have hnew : ofRange 6 0 9 = .ok ⟨.replicate 6 0, 0, 9, 2, 0⟩ := rfl
  obtain ⟨-, hanswers, hnext, -, tallies, horder⟩ :=
    feed_tallies hnew (show [9, 10, 8, 3].length < 2 ^ 64 by decide)
  exact ⟨_, hnew, by decide, hanswers.trans (by decide), tallies, hnext (-1),
    (horder [3, 8, -1, 9] (by decide)).1⟩

end QueryEngine.IntHistogram
