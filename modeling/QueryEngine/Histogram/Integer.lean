import QueryEngine.Comparison
import QueryEngine.Histogram.Fractional

/-!
# Histograms of integers

A histogram divides a range of integers into buckets of one width and counts the values that fall
into each. The values themselves are forgotten. What fraction of them a comparison holds for is
estimated from the counts, as if the values of a bucket were spread evenly over its width.

## The buckets

The width is rounded up, so that the buckets cover the range; the last ones may reach beyond it, or
lie beyond it altogether. The largest value of the range always goes to the last bucket, wherever
its turn would be. `bounds` cuts a bucket off at the end of the range.
-/

namespace QueryEngine

/-- Counts of integers by bucket. -/
structure IntHistogram where
  counts : List Nat
  /-- The smallest value of the range. -/
  min : Int64
  /-- The largest value of the range. -/
  max : Int64
  /-- The number of values that a bucket stands for. -/
  width : Int
  /-- The number of values counted. -/
  total : Nat
deriving DecidableEq

namespace IntHistogram

/-- The histogram with a number of buckets over a range, with nothing counted. That an allocation
may fail, for more buckets than memory has the capacity for, is not modelled. -/
def ofRange (buckets : Nat) (min max : Int64) : Except QueryError IntHistogram :=
  if buckets = 0 then .error .noBuckets
  else if max < min then .error (.emptyRange min max)
  else
    let span := max.toInt - min.toInt + 1
    .ok ⟨.replicate buckets 0, min, max, (span + buckets - 1) / buckets, 0⟩

def buckets (h : IntHistogram) : Nat :=
  h.counts.length

/-- Whether a value lies in the range. -/
def Covers (h : IntHistogram) (v : Int64) : Prop :=
  h.min ≤ v ∧ v ≤ h.max

instance (h : IntHistogram) (v : Int64) : Decidable (h.Covers v) :=
  inferInstanceAs (Decidable (h.min ≤ v ∧ v ≤ h.max))

/-! ## Buckets -/

/-- The bucket of a value of the range. -/
def indexOf (h : IntHistogram) (v : Int64) : Nat :=
  let last := h.buckets - 1
  if v = h.max then last
  else Nat.min ((v.toInt - h.min.toInt) / h.width).toNat last

/-- The smallest and the largest value of a bucket, cut off at the end of the range. -/
def bounds (h : IntHistogram) (i : Nat) : Int × Int :=
  let left := h.min.toInt + i * h.width
  (Min.min left h.max.toInt, Min.min (left + h.width - 1) h.max.toInt)

def height (h : IntHistogram) (i : Nat) : Nat :=
  h.counts[i]?.getD 0

/-- The number of values counted in the buckets before a given one. -/
def below (h : IntHistogram) (i : Nat) : Nat :=
  (h.counts.take i).foldr (· + ·) 0

/-- The number of values counted in the buckets after a given one. -/
def above (h : IntHistogram) (i : Nat) : Nat :=
  (h.counts.drop (i + 1)).foldr (· + ·) 0

/-! ## Counting -/

/-- The histogram after one more value, which has to lie in the range. -/
def add (h : IntHistogram) (v : Int64) : Except QueryError IntHistogram :=
  if h.Covers v then
    .ok { h with counts := h.counts.modify (h.indexOf v) (· + 1), total := h.total + 1 }
  else .error (.outsideRange v h.min h.max)

/-- Counts values in order, with the answer to each, and goes on after a refused one. -/
def feed (h : IntHistogram) : List Int64 → List (Except QueryError Unit) × IntHistogram
  | [] => ([], h)
  | v :: rest =>
    match h.add v with
    | .ok h' => let (answers, last) := h'.feed rest; (.ok () :: answers, last)
    | .error e => let (answers, last) := h.feed rest; (.error e :: answers, last)

/-! ## Estimates -/

section Estimates

variable (F : Type) [Fractional F]

open Fractional

/-- A number of the values counted, as a fraction of all of them. -/
def fraction (h : IntHistogram) (count : Nat) : F :=
  ofInt count / ofInt h.total

def equal (h : IntHistogram) (v : Int64) : F :=
  if h.Covers v then h.fraction F (h.height (h.indexOf v)) / ofInt h.width else ofInt 0

/-- The estimated fraction of values greater than a given one: a share of its bucket and the buckets
after it. -/
def greater (h : IntHistogram) (v : Int64) : F :=
  if v < h.min then ofInt 1
  else if h.max < v then ofInt 0
  else
    let i := h.indexOf v
    let within := h.fraction F (h.height i) * (ofInt ((h.bounds i).2 - v.toInt) / ofInt h.width)
    within + h.fraction F (h.above i)

/-- The estimated fraction of values less than a given one: a share of its bucket and the buckets
before it. -/
def less (h : IntHistogram) (v : Int64) : F :=
  if h.max < v then ofInt 1
  else if v < h.min then ofInt 0
  else
    let i := h.indexOf v
    let within := h.fraction F (h.height i) * (ofInt (v.toInt - (h.bounds i).1) / ofInt h.width)
    within + h.fraction F (h.below i)

/-- The estimated fraction of values that a comparison with a given one holds for. -/
def estimate (h : IntHistogram) (op : Comparison) (v : Int64) : F :=
  if h.total = 0 then ofInt 0
  else
    match op with
    | .eq | .like => h.equal F v
    | .ne => ofInt 1 - h.equal F v
    | .gt => h.greater F v
    | .lt => h.less F v
    | .ge => h.greater F v + h.equal F v
    | .le => h.less F v + h.equal F v

end Estimates

def render (h : IntHistogram) : String :=
  "IntHistogram[" ++ toString h.min.toInt ++ ", " ++ toString h.max.toInt ++ "] total=" ++
    toString h.total ++ " buckets=[" ++ ", ".intercalate (h.counts.map toString) ++ "]"

end IntHistogram

end QueryEngine
