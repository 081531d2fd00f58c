import QueryEngine.Aggregate.Accumulator
import QueryEngine.Row.Access

/-!
# Grouping

An aggregation names a function, the column it is computed over and, optionally, the column whose
values divide the rows into groups. Without that column all rows form one group.

A `Grouping` is an aggregation at work on rows of a known schema. It keeps one accumulator a group,
in the order in which the groups were first seen, and takes rows one at a time. A row whose fields
are missing or of the wrong type is refused, and so is one that drives a sum out of range; a refused
row has no effect (`feed`).
-/

namespace QueryEngine

/-! ## The computation -/

/-- What to compute over which column, and which column tells the groups apart. -/
structure Aggregation where
  function : AggregateFunction
  field : Nat
  group? : Option Nat
deriving DecidableEq

/-- The schema of the results over rows of a given schema: the column of the groups, if there is
one, and a column of integers named after the function and its column. -/
def Aggregation.schema (a : Aggregation) (input : Schema) : Except QueryError Schema :=
  match input.columnName a.field with
  | .error e => .error e
  | .ok name =>
    let result : Column := ⟨a.function.render ++ "(" ++ name ++ ")", .integer⟩
    match a.group? with
    | none => .ok ⟨[result]⟩
    | some i => (input.column i).map fun group ↦ ⟨[group, result]⟩

/-- The groups seen so far, in the order of their first rows. The key of a group is its value in the
column of the groups, and `none` is the key of the one group there is without such a column. -/
abbrev Groups := List (Option Value × Accumulator)

/-- The groups after a value has joined the group of its key. -/
def Groups.absorb (function : AggregateFunction) (key : Option Value) (v : Value) :
    Groups → Except QueryError Groups
  | [] => (Accumulator.start function v).map fun a ↦ [(key, a)]
  | (k, a) :: rest =>
    if k = key then (a.add v).map fun a' ↦ (k, a') :: rest
    else (absorb function key v rest).map fun rest' ↦ (k, a) :: rest'

/-! ## Groupings -/

/-- An aggregation over rows of a known schema, with the groups seen so far. -/
structure Grouping where
  function : AggregateFunction
  /-- The column of the values. -/
  field : Nat
  /-- The type of the values. -/
  type : ColumnType
  /-- The column of the groups and its type, if there is one. -/
  group? : Option (Nat × ColumnType)
  groups : Groups
deriving DecidableEq

namespace Grouping

/-- The grouping that has seen no row yet. COUNT takes any column, the other functions columns of
integers only. -/
def ofSchema (input : Schema) (a : Aggregation) : Except QueryError Grouping :=
  match input.column a.field with
  | .error e => .error e
  | .ok column =>
    if column.type = .text ∧ a.function ≠ .count then
      .error (.textColumn a.function column.name)
    else
      match a.group? with
      | none => .ok ⟨a.function, a.field, column.type, none, []⟩
      | some i =>
        (input.columnType i).map fun type ↦ ⟨a.function, a.field, column.type, some (i, type), []⟩

/-- The field of a row at a position, if it has the type that the schema announced. -/
def typedField (r : Row) (i : Nat) (type : ColumnType) : Except QueryError Value :=
  match r.get i with
  | .error e => .error e
  | .ok v => (v.expect type).map fun _ ↦ v

/-- The key of the group that a row belongs to. -/
def key (g : Grouping) (r : Row) : Except QueryError (Option Value) :=
  match g.group? with
  | none => .ok none
  | some (i, type) => (typedField r i type).map some

/-- The grouping after one more row, whose group is looked at before its value. -/
def merge (g : Grouping) (r : Row) : Except QueryError Grouping :=
  match g.key r with
  | .error e => .error e
  | .ok key =>
    match typedField r g.field g.type with
    | .error e => .error e
    | .ok v => (g.groups.absorb g.function key v).map fun groups ↦ { g with groups }

/-- Takes rows in order, with the answer to each, and goes on after a refused one. -/
def feed (g : Grouping) : List Row → List (Except QueryError Unit) × Grouping
  | [] => ([], g)
  | r :: rest =>
    match g.merge r with
    | .ok g' => let (answers, last) := g'.feed rest; (.ok () :: answers, last)
    | .error e => let (answers, last) := g.feed rest; (.error e :: answers, last)

/-- One row a group: its key, if it has one, and its aggregate. -/
def results (g : Grouping) : List Row :=
  g.groups.map fun (key, a) ↦ Row.ofValues (key.toList ++ [.integer a.result])

def clear (g : Grouping) : Grouping :=
  { g with groups := [] }

end Grouping

end QueryEngine
