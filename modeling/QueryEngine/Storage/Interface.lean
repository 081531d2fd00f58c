import QueryEngine.Error

/-!
# Storages

A storage keeps tables of rows on numbered pages. A query reads it a page at a time, writes it a row
at a time, and asks it for schemas and page counts; it never sees how the rows are kept.

## Calls

A storage is a value. A call takes it and gives back the answer together with the storage that the
call leaves, and it does so for a refused call too: a storage may keep count of the calls it
refuses, and what another writer did in the meantime stands. Only schemas are answered without such
a step, for asking for one has no effect.

`σ` is the type of the storage and `τ` the type of the addresses by which it knows its tables.
-/

namespace QueryEngine

/-- The answer to a call, with the storage that the call leaves. -/
abbrev Served (σ α : Type) := Except StorageError α × σ

/-- What a query needs of a storage. -/
class Storage (σ : Type) (τ : outParam Type) where
  /-- The name that a table goes by. -/
  tableName : τ → String
  /-- The tables, in a stable order. -/
  tables : σ → List τ
  /-- The schema of a table. -/
  tableSchema : σ → τ → Except StorageError Schema
  /-- The number of pages of a table. -/
  pageCount : τ → σ → Served σ Nat
  /-- The rows on a page, each with its record id, the same ones until the page is written to. -/
  readPage : τ → UInt32 → σ → Served σ (List Row)
  /-- Stores a row in a table and tells its place. -/
  insert : τ → Row → σ → Served σ RecordId
  /-- Removes the row that is kept where the given row says it is. The record id alone tells the
  place; the address only names the storage to turn to. -/
  delete : τ → Row → σ → Served σ Unit

end QueryEngine
