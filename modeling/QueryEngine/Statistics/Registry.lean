import QueryEngine.Statistics.Table
import Std.Data.TreeMap

/-!
# The registry of statistics

The registry keeps the latest statistics of each table under the name of the table, together with
the settings they are computed under. Entries are exchanged as a whole. Computing the statistics of
all tables exchanges all entries at once, after the last of them has succeeded, and drops those of
tables that are gone; if it fails, the registry stays as it was.
-/

namespace QueryEngine

variable {σ τ : Type}

/-- Statistics by the name of the table, in the order of the names. -/
abbrev StatisticsMap := Std.TreeMap String TableStatistics

/-- The latest statistics of each table. -/
structure StatisticsRegistry where
  config : StatisticsConfig
  entries : StatisticsMap

namespace StatisticsRegistry

def ofConfig (config : StatisticsConfig) : StatisticsRegistry :=
  ⟨config, ∅⟩

def get? (g : StatisticsRegistry) (table : String) : Option TableStatistics :=
  g.entries.get? table

/-- The names of the tables that have statistics, sorted. -/
def tables (g : StatisticsRegistry) : List String :=
  g.entries.keys

/-- Enters statistics under the name of their table, with the entry that they replace. -/
def set (g : StatisticsRegistry) (t : TableStatistics) :
    Option TableStatistics × StatisticsRegistry :=
  (g.get? t.table, { g with entries := g.entries.insert t.table t })

/-- Drops the entry of a table, and answers with it. -/
def remove (g : StatisticsRegistry) (table : String) :
    Option TableStatistics × StatisticsRegistry :=
  (g.get? table, { g with entries := g.entries.erase table })

variable [Storage σ τ]

/-- Computes the statistics of a table and enters them. -/
def compute (g : StatisticsRegistry) (table : τ) (s : σ) :
    Except QueryError TableStatistics × StatisticsRegistry × σ :=
  match TableStatistics.compute g.config table s with
  | (.ok t, s') =>
    (.ok t, { g with entries := g.entries.insert (Storage.tableName σ table) t }, s')
  | (.error e, s') => (.error e, g, s')

/-- Computes the statistics of tables one by one, up to the first failure. -/
def computeEach (config : StatisticsConfig) :
    List τ → StatisticsMap → σ → Except QueryError StatisticsMap × σ
  | [], entries, s => (.ok entries, s)
  | table :: rest, entries, s =>
    match TableStatistics.compute config table s with
    | (.ok t, s') => computeEach config rest (entries.insert (Storage.tableName σ table) t) s'
    | (.error e, s') => (.error e, s')

/-- Computes the statistics of all tables and answers with their number. -/
def computeAll (g : StatisticsRegistry) (s : σ) : Except QueryError Nat × StatisticsRegistry × σ :=
  match computeEach g.config (Storage.tables s) ∅ s with
  | (.ok entries, s') => (.ok entries.size, { g with entries }, s')
  | (.error e, s') => (.error e, g, s')

end StatisticsRegistry

end QueryEngine
