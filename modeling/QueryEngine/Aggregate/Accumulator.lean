import QueryEngine.Error
import QueryEngine.Integer

/-!
# Running values of a group

An accumulator holds what one group has seen so far of its function: the smallest or largest number,
the sum, the sum and the count that make a mean, or the count alone. It starts from the first value
of the group and takes the others one by one.

A sum that leaves its range is refused. The sum behind a mean has 128 bits, twice as many as the
numbers; the division waits until the result is read, and drops the fraction.
-/

namespace QueryEngine

/-- What a group has seen so far. -/
inductive Accumulator where
  | min (n : Int64)
  | max (n : Int64)
  | sum (n : Int64)
  | avg (sum : Int) (count : Nat)
  | count (n : Nat)
deriving DecidableEq

namespace Accumulator

def function : Accumulator → AggregateFunction
  | min _ => .min
  | max _ => .max
  | sum _ => .sum
  | avg _ _ => .avg
  | count _ => .count

/-- The accumulator of a group whose first value is given. -/
def start : AggregateFunction → Value → Except QueryError Accumulator
  | .count, _ => .ok (count 1)
  | .min, .integer v => .ok (min v)
  | .max, .integer v => .ok (max v)
  | .sum, .integer v => .ok (sum v)
  | .avg, .integer v => .ok (avg v.toInt 1)
  | f, .text _ => .error (.textField f)

/-- The accumulator after one more value. -/
def add : Accumulator → Value → Except QueryError Accumulator
  | count n, _ => .ok (count (n + 1))
  | min n, .integer v => .ok (min (Min.min n v))
  | max n, .integer v => .ok (max (Max.max n v))
  | sum n, .integer v =>
    match int64? (n.toInt + v.toInt) with
    | some total => .ok (sum total)
    | none => .error .numericOverflow
  | avg total n, .integer v =>
    match int128? (total + v.toInt) with
    | some total' => .ok (avg total' (n + 1))
    | none => .error .numericOverflow
  | _, .text _ => .error .textValue

/-- The aggregate of the values seen; a mean is cut off toward zero. -/
def result : Accumulator → Int64
  | min n | max n | sum n => n
  | avg total n => Int64.ofInt (total.tdiv n)
  | count n => Int64.ofNat n

end Accumulator

end QueryEngine
