import QueryEngine.Schema

/-!
# Values and rows

A value is an integer or a text, and a row is a list of values. A row that came out of a table also
carries its record id, the place where the table keeps it; rows made elsewhere have none.

`Row.Conforms` is the one check of a row against a schema: the types of its values are the types of
the columns, position by position. A row of another width never conforms.
-/

namespace QueryEngine

/-! ## Values -/

/-- The content of one field. -/
inductive Value where
  | integer (n : Int64)
  | text (s : String)
deriving DecidableEq

namespace Value

def type : Value → ColumnType
  | integer _ => .integer
  | text _ => .text

def integer? : Value → Option Int64
  | integer n => some n
  | text _ => none

/-- The characters, if the value is a text. -/
def text? : Value → Option String
  | integer _ => none
  | text s => some s

/-- The value in writing: a number in decimal, a text between quotes and otherwise as it is. -/
def render : Value → String
  | integer n => toString n.toInt
  | text s => "\"" ++ s ++ "\""

end Value

/-! ## Record ids -/

/-- The place of a stored row: the table, the page of the table and the slot of the page. -/
structure RecordId where
  table : UInt32
  page : UInt32
  slot : UInt32
deriving DecidableEq

namespace RecordId

/-- The order by table, then by page, then by slot. -/
def compare (a b : RecordId) : Ordering :=
  (Ord.compare a.table b.table).then <| (Ord.compare a.page b.page).then <|
    Ord.compare a.slot b.slot

instance : Ord RecordId := ⟨compare⟩

/-- The record id in writing. -/
def render (r : RecordId) : String :=
  "(" ++ toString r.table.toNat ++ ":" ++ toString r.page.toNat ++ ":" ++ toString r.slot.toNat ++
    ")"

end RecordId

/-! ## Rows -/

/-- A list of values, with its place in a table if it has one. -/
structure Row where
  values : List Value
  id? : Option RecordId
deriving DecidableEq

namespace Row

/-- The row of the given values that is kept in no table. -/
def ofValues (values : List Value) : Row :=
  ⟨values, none⟩

def width (r : Row) : Nat :=
  r.values.length

def types (r : Row) : List ColumnType :=
  r.values.map Value.type

/-- A row conforms to a schema when its values have the types of the columns. -/
def Conforms (r : Row) (s : Schema) : Prop :=
  r.types = s.types

instance (r : Row) (s : Schema) : Decidable (r.Conforms s) :=
  inferInstanceAs (Decidable (r.types = s.types))

/-- The values in writing, set apart by tabs. -/
def render (r : Row) : String :=
  "\t".intercalate (r.values.map Value.render)

@[simp] theorem length_types (r : Row) : r.types.length = r.width :=
  List.length_map _

theorem Conforms.width_eq {r : Row} {s : Schema} (h : r.Conforms s) : r.width = s.width := by
  rw [← length_types, ← Schema.length_types, h]

/-- Fitting schemas have the same rows. -/
theorem Conforms.of_fits {r : Row} {s t : Schema} (h : r.Conforms s) (fits : s.Fits t) :
    r.Conforms t :=
  Eq.trans h fits

end Row

end QueryEngine
