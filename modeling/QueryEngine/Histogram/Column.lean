import QueryEngine.Histogram.Text

/-!
# Histograms of columns

A column of integers has a histogram of integers and a column of text one of texts. Values of the
other type are refused, when counting as well as when estimating.
-/

namespace QueryEngine

/-- The histogram of a column. -/
inductive ColumnHistogram where
  | integer (h : IntHistogram)
  | text (h : TextHistogram)
deriving DecidableEq

/-- A value moved to the nearest end of a range, if it lies outside. -/
def clampTo (low high v : Int64) : Int64 :=
  if v < low then low else if high < v then high else v

namespace ColumnHistogram

def type : ColumnHistogram → ColumnType
  | integer _ => .integer
  | text _ => .text

def total : ColumnHistogram → Nat
  | integer h => h.total
  | text h => h.total

/-- The histogram after one more value. An integer outside the range counts as the nearest end. -/
def add : ColumnHistogram → Value → Except QueryError ColumnHistogram
  | integer h, .integer v => (h.add (clampTo h.min h.max v)).map integer
  | text h, .text s => (h.add s).map text
  | h, v => .error (.typeMismatch h.type v.type)

/-- The estimated fraction of values that a comparison with a given one holds for. -/
def estimate (F : Type) [Fractional F] : ColumnHistogram → Comparison → Value → Except QueryError F
  | integer h, op, .integer v => .ok (h.estimate F op v)
  | text h, op, .text s => .ok (h.estimate F op s)
  | h, _, v => .error (.typeMismatch h.type v.type)

end ColumnHistogram

end QueryEngine
