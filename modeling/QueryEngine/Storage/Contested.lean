import QueryEngine.Storage.Heap

/-!
# A contested heap

Queries share a storage with other writers and meet it when it is out of order. `ContestedHeap` is a
heap in such company, with everything that happens around a query laid down in advance:

* an `Outage` says, for the calls of one sort, which of them are refused and what they are answered;
* a rival changes the heap just before given page counts are taken;
* schemas may be announced that are not those of the tables.

A call that is refused for an outage never reaches the heap, nor does it give the rival his turn.
-/

namespace QueryEngine

/-! ## Outages -/

/-- The refusals of the calls of one sort. -/
structure Outage where
  /-- The answer to a call that is refused, by the number of the call. -/
  refuses : Nat → Option StorageError
  /-- The calls that have been made. -/
  calls : Nat

namespace Outage

def none : Outage := ⟨fun _ ↦ .none, 0⟩

/-- The listed calls are refused, each with its own answer. -/
def ofList (refusals : List (Nat × StorageError)) : Outage :=
  ⟨fun call ↦ refusals.lookup call, 0⟩

/-- A number of calls is served, and every later one is refused with the same answer. -/
def failing (cause : StorageError) (served : Nat) : Outage :=
  ⟨fun call ↦ if served ≤ call then some cause else .none, 0⟩

/-- The answer of a storage that gives no reason. -/
def outOfService : StorageError :=
  .unavailable "injected failure"

/-- The answer of a storage that has no room left for what is to be written. -/
def noRoom : StorageError :=
  .unavailable "no room left"

/-- The answer of a storage that cannot make out a page. -/
def badPage : StorageError :=
  .unavailable "damaged page"

/-- A number of calls is served and every later one refused. -/
def after (served : Nat) : Outage :=
  failing outOfService served

/-- The answer to the next call, if it is refused. -/
def refusal (o : Outage) : Option StorageError :=
  o.refuses o.calls

/-- The outage after one more call. -/
def next (o : Outage) : Outage :=
  { o with calls := o.calls + 1 }

end Outage

/-! ## Rivals -/

/-- A change made by another writer. -/
inductive Edit where
  | insert (table : String) (row : Row)
  | delete (row : Row)

namespace Heap

/-- The heap after a change. -/
def edit (h : Heap) : Edit → Except StorageError Heap
  | .insert table row => (h.insert table row).map Prod.snd
  | .delete row => h.delete row

/-- The heap after changes in order, up to the first one that the heap refuses. -/
def editAll (h : Heap) : List Edit → Served Heap Unit
  | [] => (.ok (), h)
  | e :: rest =>
    match h.edit e with
    | .ok h' => h'.editAll rest
    | .error cause => (.error cause, h)

end Heap

/-! ## The contested heap -/

/-- A heap, and what happens around the queries on it. -/
structure ContestedHeap where
  heap : Heap
  /-- Refusals of page reads. -/
  reads : Outage
  /-- Refusals of inserts and deletes, counted together. -/
  writes : Outage
  /-- Refusals of page counts. -/
  counts : Outage
  /-- What the rival does before a page count, by the number of the count. -/
  edits : Nat → List Edit
  /-- The page counts that were not refused. -/
  counted : Nat
  /-- Schemas that are answered in the place of the tables' own. -/
  announced : List (String × Schema)

namespace ContestedHeap

/-- A heap with nobody around. -/
def ofHeap (heap : Heap) : ContestedHeap :=
  ⟨heap, .none, .none, .none, fun _ ↦ [], 0, []⟩

/-- The schema of a table, or the one that is announced for it. -/
def tableSchema (c : ContestedHeap) (name : String) : Except StorageError Schema :=
  match c.announced.lookup name with
  | some schema => .ok schema
  | none => Storage.tableSchema c.heap name

/-- The number of pages of a table, once the rival has had his turn. -/
def pageCount (name : String) (c : ContestedHeap) : Served ContestedHeap Nat :=
  match c.counts.refusal with
  | some cause => (.error cause, { c with counts := c.counts.next })
  | none =>
    let (edited, heap) := c.heap.editAll (c.edits c.counted)
    let c' := { c with heap, counts := c.counts.next, counted := c.counted + 1 }
    match edited with
    | .error e => (.error e, c')
    | .ok () => ((heap.table name).map fun t ↦ t.pages.length, c')

/-- The rows on a page of a table. -/
def readPage (name : String) (page : UInt32) (c : ContestedHeap) :
    Served ContestedHeap (List Row) :=
  let c' := { c with reads := c.reads.next }
  match c.reads.refusal with
  | some cause => (.error cause, c')
  | none => (c.heap.readPage name page, c')

def insert (name : String) (r : Row) (c : ContestedHeap) : Served ContestedHeap RecordId :=
  let c' := { c with writes := c.writes.next }
  match c.writes.refusal with
  | some cause => (.error cause, c')
  | none =>
    match c.heap.insert name r with
    | .ok (id, heap) => (.ok id, { c' with heap })
    | .error e => (.error e, c')

def delete (r : Row) (c : ContestedHeap) : Served ContestedHeap Unit :=
  let c' := { c with writes := c.writes.next }
  match c.writes.refusal with
  | some cause => (.error cause, c')
  | none =>
    match c.heap.delete r with
    | .ok heap => (.ok (), { c' with heap })
    | .error e => (.error e, c')

instance : Storage ContestedHeap String where
  tableName name := name
  tables c := c.heap.tables.map HeapTable.name
  tableSchema := tableSchema
  pageCount := pageCount
  readPage := readPage
  insert := insert
  delete _ := delete

end ContestedHeap

end QueryEngine
