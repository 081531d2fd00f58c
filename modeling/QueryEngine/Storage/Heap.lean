import QueryEngine.Storage.Interface

/-!
# The heap

The heap keeps every table in memory, as pages of slots. Rows are appended: to the last page while
it has room, else to a new page. A deleted row leaves its slot empty for good, so that a record id
means the same row for the life of the table and pages never disappear.

## The log

Since slots are only ever appended and emptied, the pages of a table hold one log of slots
(`HeapTable.log`), cut into pages of the same capacity. `log_appendSlot` is the equation for
appending: the log grows by one slot at its end, wherever the page boundary falls.
-/

namespace QueryEngine

/-! ## Tables -/

/-- The slots of a page, empty ones included. -/
abbrev Page := List (Option Row)

def Page.rows (p : Page) : List Row :=
  p.filterMap fun slot ↦ slot

/-- The pages after one more slot: on the last page while it has room, else on a new page. -/
def appendSlot (capacity : Nat) (slot : Option Row) : List Page → List Page
  | [] => [[slot]]
  | [last] => if last.length < capacity then [last ++ [slot]] else [last, [slot]]
  | page :: next :: rest => page :: appendSlot capacity slot (next :: rest)

/-- The page and the slot on it that the next row goes to. -/
def nextPlace (capacity : Nat) : List Page → Nat × Nat
  | [] => (0, 0)
  | [last] => if last.length < capacity then (0, last.length) else (1, 0)
  | _ :: next :: rest =>
    let (page, slot) := nextPlace capacity (next :: rest)
    (page + 1, slot)

/-- Appending a slot to the pages appends it to the log that they hold. -/
theorem log_appendSlot (capacity : Nat) (slot : Option Row) (pages : List Page) :
    (appendSlot capacity slot pages).flatten = pages.flatten ++ [slot] := by
  fun_induction appendSlot capacity slot pages with
  | case1 => rfl
  | case2 last h => simp
  | case3 last h => simp
  | case4 page next rest ih => simp only [List.flatten_cons, List.append_assoc] at ih ⊢; rw [ih]

/-- A table of the heap. -/
structure HeapTable where
  id : UInt32
  name : String
  schema : Schema
  pages : List Page
  /-- The number of rows that have not been deleted. -/
  liveRows : Nat
deriving DecidableEq

namespace HeapTable

/-- The slots of the table, in the order in which they were appended. -/
def log (t : HeapTable) : List (Option Row) :=
  t.pages.flatten

/-- The rows of the table, in the order in which they were inserted. -/
def rows (t : HeapTable) : List Row :=
  Page.rows t.log

/-- The record id of the next row. -/
def nextId (capacity : Nat) (t : HeapTable) : RecordId :=
  let (page, slot) := nextPlace capacity t.pages
  ⟨t.id, UInt32.ofNat page, UInt32.ofNat slot⟩

/-- The table after a row has been appended; the row is kept with its new record id. -/
def append (capacity : Nat) (t : HeapTable) (r : Row) : HeapTable :=
  { t with
    pages := appendSlot capacity (some { r with id? := some (t.nextId capacity) }) t.pages
    liveRows := t.liveRows + 1 }

/-- The row kept at a place, unless the place was never used or has been emptied. -/
def row? (t : HeapTable) (id : RecordId) : Option Row :=
  match t.pages[id.page.toNat]? with
  | none => none
  | some page => (page[id.slot.toNat]?).join

def vacate (t : HeapTable) (id : RecordId) : HeapTable :=
  { t with
    pages := t.pages.modify id.page.toNat fun page ↦ page.set id.slot.toNat none
    liveRows := t.liveRows - 1 }

end HeapTable

/-! ## The heap -/

/-- The slots that a page has when nothing else is asked for. -/
def defaultCapacity : Nat := 64

/-- The tables kept in memory, in the order of their creation. -/
structure Heap where
  /-- The number of slots of a page. -/
  capacity : Nat
  capacity_pos : 0 < capacity
  tables : List HeapTable
  /-- The id of the next table. -/
  nextId : UInt32

namespace Heap

/-- The heap without tables. A page has at least one slot, even when none is asked for. -/
def ofCapacity (capacity : Nat) : Heap where
  capacity := max capacity 1
  capacity_pos := Nat.lt_of_lt_of_le Nat.zero_lt_one (Nat.le_max_right _ _)
  tables := []
  nextId := 1

def table (h : Heap) (name : String) : Except StorageError HeapTable :=
  match h.tables.find? (·.name = name) with
  | some t => .ok t
  | none => .error (.tableNotFound name)

def tableById (h : Heap) (id : UInt32) : Except StorageError HeapTable :=
  match h.tables.find? (·.id = id) with
  | some t => .ok t
  | none => .error (.unknownTableId id)

/-- The heap with a table in the place of the one that has its id. -/
def update (h : Heap) (t : HeapTable) : Heap :=
  { h with tables := h.tables.map fun t' ↦ if t'.id = t.id then t else t' }

/-- Adds a table without rows and tells its id. -/
def createTable (h : Heap) (name : String) (schema : Schema) :
    Except StorageError (UInt32 × Heap) :=
  match h.table name with
  | .ok _ => .error (.tableExists name)
  | .error _ =>
    .ok (h.nextId,
      { h with tables := h.tables ++ [⟨h.nextId, name, schema, [], 0⟩], nextId := h.nextId + 1 })

/-- The rows on a page of a table. -/
def readPage (h : Heap) (name : String) (page : UInt32) : Except StorageError (List Row) :=
  match h.table name with
  | .error e => .error e
  | .ok t =>
    match t.pages[page.toNat]? with
    | some slots => .ok (Page.rows slots)
    | none => .error (.pageOutOfRange page t.pages.length)

/-- Appends a row to a table, if it conforms to the schema of the table, and tells its place. That
an allocation may fail, for a table beyond the capacity of memory, is not modelled. -/
def insert (h : Heap) (name : String) (r : Row) : Except StorageError (RecordId × Heap) :=
  match h.table name with
  | .error e => .error e
  | .ok t =>
    if r.Conforms t.schema then
      .ok (t.nextId h.capacity, h.update (t.append h.capacity r))
    else .error (.schemaViolation r t.schema)

/-- Removes the row that is kept where the given row says it is. -/
def delete (h : Heap) (r : Row) : Except StorageError Heap :=
  match r.id? with
  | none => .error .missingRecordId
  | some id =>
    match h.tableById id.table with
    | .error e => .error e
    | .ok t =>
      match t.row? id with
      | none => .error (.recordNotFound id)
      | some _ => .ok (h.update (t.vacate id))

/-- The heap serves every call by itself; its tables are known by their names. -/
instance : Storage Heap String where
  tableName name := name
  tables h := h.tables.map HeapTable.name
  tableSchema h name := (h.table name).map HeapTable.schema
  pageCount name h := ((h.table name).map fun t ↦ t.pages.length, h)
  readPage name page h := (h.readPage name page, h)
  insert name r h :=
    match h.insert name r with
    | .ok (id, h') => (.ok id, h')
    | .error e => (.error e, h)
  delete _ r h :=
    match h.delete r with
    | .ok h' => (.ok (), h')
    | .error e => (.error e, h)

end Heap

end QueryEngine
