import QueryEngine.Text.Keyword

/-!
# Aggregate functions

The five functions that turn the rows of a group into one number. All but COUNT need a column of
integers.
-/

namespace QueryEngine

/-- What is computed over the rows of a group. -/
inductive AggregateFunction where
  | min
  | max
  | sum
  | avg
  | count
deriving DecidableEq

namespace AggregateFunction

def all : List AggregateFunction :=
  [min, max, sum, avg, count]

def render : AggregateFunction → String
  | min => "MIN"
  | max => "MAX"
  | sum => "SUM"
  | avg => "AVG"
  | count => "COUNT"

/-- The function of a given name, read without regard to case. -/
def ofName? (s : String) : Option AggregateFunction :=
  all.find? fun f ↦ f.render == Text.keyword s

end AggregateFunction

end QueryEngine
