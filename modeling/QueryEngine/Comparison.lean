import QueryEngine.Row.Access
import QueryEngine.Text.Bytes
import QueryEngine.Text.Occurrence

/-!
# Comparisons of values

Numbers are compared by size and texts by their bytes; a number and a text cannot be compared. Six
of the operators read their answer off the order (`Comparison.admits`). The seventh, LIKE, asks of
two texts whether the right one occurs in the left one, and of two numbers whether they are equal.
-/

namespace QueryEngine

/-- The order of two values of one type. -/
def Value.compare : Value → Value → Except QueryError Ordering
  | .integer a, .integer b => .ok (Ord.compare a.toInt b.toInt)
  | .text a, .text b => .ok (Text.compareBytes a b)
  | a, b => .error (.typeMismatch a.type b.type)

/-- The operators that compare two values. -/
inductive Comparison where
  | eq
  | gt
  | lt
  | ge
  | le
  | ne
  | like
deriving DecidableEq

namespace Comparison

def all : List Comparison :=
  [eq, gt, lt, ge, le, ne, like]

def render : Comparison → String
  | eq => "="
  | gt => ">"
  | lt => "<"
  | ge => ">="
  | le => "<="
  | ne => "<>"
  | like => "LIKE"

/-- The operator with its sides exchanged. LIKE has no such operator and stays. -/
def converse : Comparison → Comparison
  | gt => lt
  | lt => gt
  | ge => le
  | le => ge
  | op => op

/-- Whether the operator holds between two values that stand in the given order. -/
def admits : Comparison → Ordering → Bool
  | eq, o | like, o => o == .eq
  | ne, o => o != .eq
  | gt, o => o == .gt
  | lt, o => o == .lt
  | ge, o => o != .lt
  | le, o => o != .gt

/-- Whether the operator holds between two values. -/
def evaluate : Comparison → Value → Value → Except QueryError Bool
  | like, .text haystack, .text needle => .ok (Text.occursIn needle.toList haystack.toList)
  | op, left, right => (left.compare right).map op.admits

/-- Exchanging the sides of a comparison turns the order around. -/
theorem admits_converse (op : Comparison) (o : Ordering) :
    op.converse.admits o.swap = op.admits o := by
  cases op <;> cases o <;> rfl

end Comparison

end QueryEngine
