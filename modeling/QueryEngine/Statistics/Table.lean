import QueryEngine.Histogram.Column
import QueryEngine.Operator.Lifecycle
import QueryEngine.Statistics.Config

/-!
# Statistics of a table

The statistics of a table are its page and row counts and a histogram of each column, all as of the
moment they were computed.

## Two passes

A histogram of integers needs its range before it can count. So the table is scanned twice: the
first pass finds the range of each column of integers, the second fills the histograms. Other
writers may change the table in between. The second pass then counts no more rows than the first one
saw, and counts a value outside the range of its column at the nearest end. A table whose first pass
sees no row gets no histograms.
-/

namespace QueryEngine

variable {σ τ : Type}

/-- The statistics of a table. -/
structure TableStatistics where
  table : String
  schema : Schema
  pages : Nat
  /-- The number of rows counted in the histograms. -/
  rows : Nat
  /-- The cost of reading one page. -/
  ioCostPerPage : Float
  /-- The histograms of the columns, in order; none at all if the table looked empty. -/
  histograms : List ColumnHistogram

/-! ## The first pass -/

/-- What the first pass finds out. -/
structure Survey where
  rows : Nat
  /-- The smallest and the largest integer of each column, as far as one was seen. -/
  ranges : List (Option (Int64 × Int64))

namespace Survey

/-- Nothing seen yet of rows of a given width. -/
def start (width : Nat) : Survey :=
  ⟨0, .replicate width none⟩

/-- A range widened to take in a value, if that is an integer. -/
def widen (range : Option (Int64 × Int64)) : Value → Option (Int64 × Int64)
  | .text _ => range
  | .integer v =>
    match range with
    | none => some (v, v)
    | some (low, high) => some (Min.min low v, Max.max high v)

/-- The ranges after the values of a row, position by position as far as both go. -/
def widenAll : List (Option (Int64 × Int64)) → List Value → List (Option (Int64 × Int64))
  | range :: ranges, v :: values => widen range v :: widenAll ranges values
  | ranges, _ => ranges

def note : Visitor σ Survey :=
  fun r survey s ↦ (.ok (.yield ⟨survey.rows + 1, widenAll survey.ranges r.values⟩), s)

/-- The empty histogram for a column of a given range. -/
def histogram (buckets : Nat) (column : Column) (range : Option (Int64 × Int64)) :
    Except QueryError ColumnHistogram :=
  match column.type, range with
  | .integer, some (low, high) =>
    (IntHistogram.ofRange buckets low high).map ColumnHistogram.integer
  | .integer, none => .error (.noIntegers column.name)
  | .text, _ => (TextHistogram.ofBuckets buckets).map ColumnHistogram.text

/-- The empty histograms for columns of given ranges. -/
def histograms (buckets : Nat) :
    List Column → List (Option (Int64 × Int64)) → Except QueryError (List ColumnHistogram)
  | column :: columns, range :: ranges =>
    match histogram buckets column range with
    | .error e => .error e
    | .ok h => (histograms buckets columns ranges).map (h :: ·)
  | _, _ => .ok []

end Survey

/-! ## The second pass -/

/-- The histograms after the values of a row, position by position as far as both go. -/
def fillAll : List ColumnHistogram → List Value → Except QueryError (List ColumnHistogram)
  | h :: histograms, v :: values =>
    match h.add v with
    | .error e => .error e
    | .ok h' => (fillAll histograms values).map (h' :: ·)
  | histograms, _ => .ok histograms

/-- Counts a row in the histograms and stops after the last row that is to be counted. -/
def fillRow (limit : Nat) : Visitor σ (Nat × List ColumnHistogram) :=
  fun r (n, histograms) s ↦
    match fillAll histograms r.values with
    | .error e => (.error e, s)
    | .ok filled =>
      (.ok (if n + 1 < limit then .yield (n + 1, filled) else .done (n + 1, filled)), s)

/-! ## Computing statistics -/

namespace TableStatistics

/-- The histograms of the rows of an open scan, and the number of rows counted in them. -/
def buildHistograms [Storage σ τ] (buckets : Nat) (scan : Operator τ) (s : σ) :
    Except QueryError (Nat × List ColumnHistogram) × σ :=
  match scan.forRows Survey.note (.start scan.schema.width) s with
  | ⟨.error e, _, s'⟩ => (.error e, s')
  | ⟨.ok step, scan', s'⟩ =>
    let survey := step.value
    if survey.rows = 0 then (.ok (0, []), s')
    else
      match Survey.histograms buckets scan.schema.columns survey.ranges with
      | .error e => (.error e, s')
      | .ok empty =>
        match scan'.rewindOn s' with
        | ⟨.error e, _, s''⟩ => (.error e, s'')
        | ⟨.ok (), scan'', s''⟩ =>
          let filled := scan''.forRows (fillRow survey.rows) (0, empty) s''
          (filled.answer.map ForInStep.value, filled.store)

/-- Computes the statistics of a table. -/
def compute [Storage σ τ] (config : StatisticsConfig) (table : τ) (s : σ) :
    Except QueryError TableStatistics × σ :=
  match Storage.pageCount table s with
  | (.error e, s') => (.error (.storage e), s')
  | (.ok pages, s') =>
    match Storage.tableSchema s' table with
    | .error e => (.error (.storage e), s')
    | .ok schema =>
      match (Operator.scan (.ofTable table schema)).openOn s' with
      | ⟨.error e, _, s''⟩ => (.error e, s'')
      | ⟨.ok (), scan, s''⟩ =>
        let (built, s''') := buildHistograms config.histogramBuckets scan s''
        (built.map fun (rows, histograms) ↦
          ⟨Storage.tableName σ table, schema, pages, rows, config.ioCostPerPage, histograms⟩, s''')

/-! ## Estimates -/

def histogram? (t : TableStatistics) (field : Nat) : Option ColumnHistogram :=
  t.histograms[field]?

def scanCost (t : TableStatistics) : Float :=
  Float.ofNat t.pages * t.ioCostPerPage

/-- The number of rows to expect when a given fraction is selected, rounded up. It is kept between
zero and the largest number of 64 bits, and is zero if the fraction is not a number. -/
def cardinality (t : TableStatistics) (selectivity : Float) : Nat :=
  (Float.ofNat t.rows * selectivity).ceil.toUInt64.toNat

/-- The estimated fraction of rows for which a comparison of a field with a constant holds. -/
def selectivity (F : Type) [Fractional F] (t : TableStatistics) (field : Nat) (op : Comparison)
    (v : Value) : Except QueryError F :=
  match t.schema.columnType field with
  | .error e => .error e
  | .ok type =>
    match v.expect type with
    | .error e => .error e
    | .ok () =>
      match t.histogram? field with
      | some h => h.estimate F op v
      | none => .ok (Fractional.ofInt 0)

end TableStatistics

end QueryEngine
