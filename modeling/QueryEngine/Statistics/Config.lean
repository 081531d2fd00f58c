/-!
# Settings of statistics

How much the reading of a page is taken to cost, and how many buckets a histogram gets.
-/

namespace QueryEngine

/-- The settings under which statistics are computed. -/
structure StatisticsConfig where
  /-- The cost of reading one page. -/
  ioCostPerPage : Float
  /-- The number of buckets of every histogram. -/
  histogramBuckets : Nat

namespace StatisticsConfig

def standard : StatisticsConfig :=
  ⟨1000, 100⟩

def isStandard (c : StatisticsConfig) : Bool :=
  c.ioCostPerPage == standard.ioCostPerPage && c.histogramBuckets == standard.histogramBuckets

end StatisticsConfig

end QueryEngine
