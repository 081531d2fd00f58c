import QueryEngine.Proofs.Storage.Orderly
import QueryEngine.Proofs.Storage.Quiet

/-!
# The catalog of a heap

The schema of a table is given when the table is created, and no call changes it. So one catalog of
schemas holds good for a heap at all times: every table is of the schema that the catalog has for
its name (`Heap.Offers`), whoever writes, and as many tables as there may be. What is read from a
table conforms to the schema in the catalog, and a row that does so is not refused for its types.
-/

namespace QueryEngine

/-- Whether every table is of the schema that the catalog has for its name. -/
structure Heap.Offers (h : Heap) (catalog : String → Schema) : Prop where
  reachable : h.Reachable
  schema_eq : ∀ t ∈ h.tables, t.schema = catalog t.name

/-- Whether a refusal is due to the types of a row. -/
def StorageError.IsTyping : StorageError → Prop
  | .schemaViolation .. => True
  | _ => False

namespace Heap

variable {h h' : Heap} {catalog : String → Schema} {name : String} {r : Row}

theorem offers_ofCapacity (capacity : Nat) (catalog : String → Schema) :
    (ofCapacity capacity).Offers catalog :=
  ⟨⟨capacity, [], rfl⟩, nofun⟩

namespace Offers

/-! ## Calls -/

private theorem schema_update (offers : h.Offers catalog) {t t' : HeapTable} (ht : t ∈ h.tables)
    (name_eq : t'.name = t.name) (schema_eq : t'.schema = t.schema) :
    ∀ t'' ∈ (h.update t').tables, t''.schema = catalog t''.name := by
  intro t'' ht''
  obtain ⟨t₀, ht₀, rfl⟩ := List.mem_map.mp ht''
  split
  · rw [schema_eq, name_eq]
    exact offers.schema_eq t ht
  · exact offers.schema_eq t₀ ht₀

theorem call (offers : h.Offers catalog) {c : Call}
    (creates : ∀ name schema, c = .create name schema → schema = catalog name) :
    (h.call c).2.Offers catalog := by
  refine ⟨offers.reachable.call c, ?_⟩
  rcases h.call_cases c with hsame | ⟨name, schema, rfl, -, hnew⟩ | ⟨_, _, t, -, ht, -, hnew⟩
    | ⟨_, _, t, _, -, -, ht, -, hnew⟩
  · rw [hsame]
    exact offers.schema_eq
  · rw [hnew]
    intro t ht
    rcases List.mem_append.mp ht with hold | hlast
    · exact offers.schema_eq t hold
    · rw [List.mem_singleton.mp hlast]
      exact creates name schema rfl
  · rw [hnew]
    exact offers.schema_update (mem_of_table ht) rfl rfl
  · rw [hnew]
    exact offers.schema_update (mem_of_tableById ht) rfl rfl

/-- However it is written to, a heap keeps to a catalog that tables are created by. -/
theorem run (offers : h.Offers catalog) {calls : List Call}
    (creates : ∀ name schema, .create name schema ∈ calls → schema = catalog name) :
    (h.run calls).2.Offers catalog := by
  induction calls generalizing h with
  | nil => exact offers
  | cons c rest ih =>
    refine ih (offers.call fun name schema hc ↦ creates name schema ?_) fun name schema hc ↦
      creates name schema (List.mem_cons_of_mem _ hc)
    exact hc ▸ List.mem_cons_self

theorem insert (offers : h.Offers catalog) {id : RecordId}
    (inserted : h.insert name r = .ok (id, h')) : h'.Offers catalog := by
  have hcall := offers.call (c := .insert name r) nofun
  rwa [Heap.call, inserted] at hcall

theorem delete (offers : h.Offers catalog) (deleted : h.delete r = .ok h') : h'.Offers catalog := by
  have hcall := offers.call (c := .delete r) nofun
  rwa [Heap.call, deleted] at hcall

theorem editAll (offers : h.Offers catalog) (edits : List Edit) :
    (h.editAll edits).2.Offers catalog := by
  induction edits generalizing h with
  | nil => exact offers
  | cons e rest ih =>
    rw [Heap.editAll]
    split
    · next h' hedit =>
      refine ih ?_
      cases e with
      | insert table row =>
        rw [edit] at hedit
        rcases hinsert : h.insert table row with e | ⟨id, h''⟩ <;> rw [hinsert] at hedit <;>
          cases hedit
        exact offers.insert hinsert
      | delete row => exact offers.delete hedit
    · exact offers

/-! ## Rows -/

theorem conforms (offers : h.Offers catalog) {page : UInt32} {rows : List Row}
    (hread : h.readPage name page = .ok rows) (hr : r ∈ rows) : r.Conforms (catalog name) := by
  rcases ht : h.table name with e | t
  · rw [readPage, ht] at hread
    cases hread
  · rw [← name_of_table ht, ← offers.schema_eq t (mem_of_table ht)]
    exact offers.reachable.sound.conforms_of_readPage ht hread hr

/-- A row of the schema in the catalog is not refused for its types. -/
theorem not_isTyping_of_insert (offers : h.Offers catalog) (conforms : r.Conforms (catalog name))
    {e : StorageError} (refused : h.insert name r = .error e) : ¬ e.IsTyping := by
  rw [Heap.insert] at refused
  split at refused
  · next ht =>
    rw [table] at ht
    split at ht <;> cases ht
    cases refused
    exact id
  · next t ht =>
    rw [← name_of_table ht, ← offers.schema_eq t (mem_of_table ht)] at conforms
    rw [if_pos conforms] at refused
    cases refused

end Offers

theorem not_isTyping_of_delete {e : StorageError} (refused : h.delete r = .error e) :
    ¬ e.IsTyping := by
  rw [delete] at refused
  split at refused
  · cases refused
    exact id
  · next place hplace =>
    split at refused
    · next ht =>
      rw [tableById] at ht
      split at ht <;> cases ht
      cases refused
      exact id
    · split at refused <;> cases refused
      exact id

end Heap

/-! ## Contested heaps -/

/-- Whether every table is of the schema that the catalog has for its name, and is announced so.
What writes are refused for is not the type of a row. -/
structure ContestedHeap.Offers (c : ContestedHeap) (catalog : String → Schema) : Prop where
  heap : c.heap.Offers catalog
  own : c.announced = []
  untyped : ∀ n cause, c.writes.refuses n = some cause → ¬ cause.IsTyping

namespace ContestedHeap.Offers

variable {c : ContestedHeap} {catalog : String → Schema} {name : String} {r : Row}

theorem tableSchema (offers : c.Offers catalog) {schema : Schema}
    (hschema : Storage.tableSchema c name = .ok schema) : schema = catalog name := by
  change c.tableSchema name = .ok schema at hschema
  rw [ContestedHeap.tableSchema, offers.own] at hschema
  change (c.heap.table name).map HeapTable.schema = _ at hschema
  rcases ht : c.heap.table name with e | t <;> rw [ht] at hschema <;> cases hschema
  rw [← Heap.name_of_table ht]
  exact offers.heap.schema_eq t (Heap.mem_of_table ht)

theorem pageCount (offers : c.Offers catalog) (name : String) :
    (Storage.pageCount name c).2.Offers catalog := by
  have hedited := offers.heap.editAll (c.edits c.counted)
  change (c.pageCount name).2.Offers catalog
  rw [ContestedHeap.pageCount]
  split
  · exact ⟨offers.heap, offers.own, offers.untyped⟩
  · generalize c.heap.editAll (c.edits c.counted) = edited at hedited
    obtain ⟨e | ⟨⟩, heap⟩ := edited
    · exact ⟨hedited, offers.own, offers.untyped⟩
    · exact ⟨hedited, offers.own, offers.untyped⟩

theorem readPage (offers : c.Offers catalog) (name : String) (page : UInt32) :
    (Storage.readPage name page c).2.Offers catalog
      ∧ ∀ rows, (Storage.readPage name page c).1 = .ok rows →
        ∀ r ∈ rows, r.Conforms (catalog name) := by
  change (c.readPage name page).2.Offers catalog ∧ ∀ rows, (c.readPage name page).1 = _ → _
  rw [ContestedHeap.readPage]
  split
  · refine ⟨⟨offers.heap, offers.own, offers.untyped⟩, fun rows hrows ↦ ?_⟩
    cases hrows
  · exact ⟨⟨offers.heap, offers.own, offers.untyped⟩,
      fun rows hrows r hr ↦ offers.heap.conforms hrows hr⟩

theorem insert (offers : c.Offers catalog) (conforms : r.Conforms (catalog name)) :
    (Storage.insert name r c).2.Offers catalog
      ∧ ∀ e, (Storage.insert name r c).1 = .error e → ¬ e.IsTyping := by
  change (c.insert name r).2.Offers catalog ∧ ∀ e, (c.insert name r).1 = _ → _
  rw [ContestedHeap.insert]
  split
  · next cause hcause =>
    refine ⟨⟨offers.heap, offers.own, offers.untyped⟩, fun e he ↦ ?_⟩
    cases he
    exact offers.untyped _ cause hcause
  · rcases hinsert : c.heap.insert name r with e | ⟨id, heap⟩
    · refine ⟨⟨offers.heap, offers.own, offers.untyped⟩, fun e' he ↦ ?_⟩
      cases he
      exact offers.heap.not_isTyping_of_insert conforms hinsert
    · refine ⟨⟨offers.heap.insert hinsert, offers.own, offers.untyped⟩, fun e he ↦ ?_⟩
      cases he

theorem delete (offers : c.Offers catalog) (name : String) (r : Row) :
    (Storage.delete name r c).2.Offers catalog
      ∧ ∀ e, (Storage.delete name r c).1 = .error e → ¬ e.IsTyping := by
  change (c.delete r).2.Offers catalog ∧ ∀ e, (c.delete r).1 = _ → _
  rw [ContestedHeap.delete]
  split
  · next cause hcause =>
    refine ⟨⟨offers.heap, offers.own, offers.untyped⟩, fun e he ↦ ?_⟩
    cases he
    exact offers.untyped _ cause hcause
  · rcases hdelete : c.heap.delete r with e | heap
    · refine ⟨⟨offers.heap, offers.own, offers.untyped⟩, fun e' he ↦ ?_⟩
      cases he
      exact Heap.not_isTyping_of_delete hdelete
    · refine ⟨⟨offers.heap.delete hdelete, offers.own, offers.untyped⟩, fun e he ↦ ?_⟩
      cases he

end ContestedHeap.Offers

end QueryEngine
