import QueryEngine.Aggregate.Grouping
import QueryEngine.Operator.Lookahead
import QueryEngine.Predicate

/-!
# Operators

A query is a tree of operators, and rows flow from its leaves to its root. The leaves are listed
rows and the scan of a table. Above them, a filter lets the rows of its input through that satisfy a
predicate; a modification inserts the rows of its input into a table, or deletes them from it, and
hands out their number; an aggregation hands out one row a group of its input.

An operator is a value that holds all of its state: where it is in its lifecycle, what it has
fetched and not handed out, and its inputs. `τ` is the type of the addresses of tables.
-/

namespace QueryEngine

/-! ## Leaves -/

/-- Rows that are listed in the operator itself. -/
structure Values where
  schema : Schema
  rows : List Row
  /-- The rows still to be handed out. -/
  pending : List Row
  look : Lookahead
deriving DecidableEq

namespace Values

def label : String := "Values"

/-- The operator over listed rows, all of which have to conform to the schema. -/
def ofRows (schema : Schema) (rows : List Row) : Except QueryError Values :=
  match rows.find? fun r ↦ ¬ r.Conforms schema with
  | some r => .error (.rowMismatch r schema)
  | none => .ok ⟨schema, rows, [], .closed⟩

end Values

/-- The rows of a table, page by page. -/
structure Scan (τ : Type) where
  table : τ
  schema : Schema
  /-- The number of pages there were when the operator was opened or rewound. -/
  pageCount : Nat
  /-- The page to be read next. -/
  nextPage : Nat
  /-- The rows still to be handed out of the page that was read last. -/
  pending : List Row
  look : Lookahead
deriving DecidableEq

namespace Scan

def label : String := "SeqScan"

/-- The closed scan of a table of a given schema. -/
def ofTable {τ : Type} (table : τ) (schema : Schema) : Scan τ :=
  ⟨table, schema, 0, 0, [], .closed⟩

end Scan

/-! ## Modifications -/

/-- What a modification does with the rows of its input. -/
inductive Modification where
  | insert
  | delete
deriving DecidableEq

namespace Modification

def label : Modification → String
  | insert => "Insert"
  | delete => "Delete"

/-- The schema of the one row that a modification hands out, the number of rows it wrote. -/
def schema : Modification → Schema
  | insert => .ofPairs [("inserted", .integer)]
  | delete => .ofPairs [("deleted", .integer)]

end Modification

/-- A modification of a table. -/
structure Batch (τ : Type) where
  change : Modification
  table : τ
  tableSchema : Schema
  /-- Whether the rows have been written since the operator was opened or rewound. -/
  done : Bool
  look : Lookahead
deriving DecidableEq

/-! ## Trees -/

/-- A tree of operators. -/
inductive Operator (τ : Type) where
  | values (v : Values)
  | scan (c : Scan τ)
  | filter (predicate : Predicate) (look : Lookahead) (input : Operator τ)
  | modify (batch : Batch τ) (input : Operator τ)
  /-- The groups are there from the building of the operator on until it is closed, and again once
  it is reopened; `schema` is their schema. -/
  | aggregate (spec : Aggregation) (schema : Schema) (groups : Option Values) (input : Operator τ)

namespace Operator

variable {τ : Type}

/-- The schema of the rows that an operator hands out. -/
def schema : Operator τ → Schema
  | values v => v.schema
  | scan c => c.schema
  | filter _ _ input => input.schema
  | modify b _ => b.change.schema
  | aggregate _ s _ _ => s

def children : Operator τ → List (Operator τ)
  | values _ | scan _ => []
  | filter _ _ input | modify _ input | aggregate _ _ _ input => [input]

def label : Operator τ → String
  | values _ => Values.label
  | scan _ => Scan.label
  | filter .. => "Filter"
  | modify b _ => b.change.label
  | aggregate .. => "Aggregate"

/-- The name of the operator that hands out the rows: an aggregation leaves that to the list of its
groups. -/
def rowLabel : Operator τ → String
  | aggregate .. => Values.label
  | op => op.label

end Operator

end QueryEngine
