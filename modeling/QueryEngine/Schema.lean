import QueryEngine.Text.Keyword

/-!
# Schemas

A schema describes the rows of a table or of an operator: a list of columns, each with a name and a
type. Names are descriptive only. They may repeat and may be empty, and two schemas fit each other
as soon as their types agree position by position (`Schema.Fits`).
-/

namespace QueryEngine

/-! ## Column types -/

/-- The type of the values in a column. -/
inductive ColumnType where
  | integer
  | text
deriving DecidableEq

namespace ColumnType

def render : ColumnType → String
  | integer => "INTEGER"
  | text => "TEXT"

/-- The type that a name stands for; names are keywords, read without regard to case. -/
def ofName? (s : String) : Option ColumnType :=
  let name := Text.keyword s
  if name ∈ ["INT", "INTEGER"] then some integer
  else if name ∈ ["TEXT", "VARCHAR", "CHAR", "STRING"] then some text
  else none

/-- The complaint about a name that stands for no type. -/
def unknownName (s : String) : String :=
  "Unknown data type: " ++ s

end ColumnType

/-! ## Columns and schemas -/

/-- A named and typed position of a row. -/
structure Column where
  /-- Describes the column and identifies nothing. -/
  name : String
  type : ColumnType
deriving DecidableEq

/-- The column in writing, its type around its name. -/
def Column.render (c : Column) : String :=
  c.type.render ++ "(" ++ c.name ++ ")"

/-- The columns of a row, in order. -/
structure Schema where
  columns : List Column
deriving DecidableEq

namespace Schema

/-- The schema with the given names and types. -/
def ofPairs (pairs : List (String × ColumnType)) : Schema :=
  ⟨pairs.map fun p ↦ ⟨p.1, p.2⟩⟩

def width (s : Schema) : Nat :=
  s.columns.length

def types (s : Schema) : List ColumnType :=
  s.columns.map Column.type

def append (left right : Schema) : Schema :=
  ⟨left.columns ++ right.columns⟩

/-- The position of the first column of a given name. -/
def indexOf? (s : Schema) (name : String) : Option Nat :=
  s.columns.findIdx? fun c ↦ c.name == name

def render (s : Schema) : String :=
  ", ".intercalate (s.columns.map Column.render)

/-- Two schemas fit each other when they have the same types in the same order. -/
def Fits (a b : Schema) : Prop :=
  a.types = b.types

instance (a b : Schema) : Decidable (a.Fits b) :=
  inferInstanceAs (Decidable (a.types = b.types))

@[simp] theorem length_types (s : Schema) : s.types.length = s.width :=
  List.length_map _

@[simp] theorem types_append (a b : Schema) : (a.append b).types = a.types ++ b.types :=
  List.map_append

@[simp] theorem width_append (a b : Schema) : (a.append b).width = a.width + b.width :=
  List.length_append

theorem Fits.refl (s : Schema) : s.Fits s := rfl

theorem Fits.symm {a b : Schema} (h : a.Fits b) : b.Fits a := Eq.symm h

theorem Fits.trans {a b c : Schema} (h : a.Fits b) (h' : b.Fits c) : a.Fits c := Eq.trans h h'

theorem Fits.width_eq {a b : Schema} (h : a.Fits b) : a.width = b.width := by
  rw [← length_types, ← length_types, h]

end Schema

end QueryEngine
