import QueryEngine.Storage.Contested

/-!
# Storages that only refuse writes

A contested heap is quiet when nobody else writes to it, no other schemas are announced and no read
is refused. All that can go wrong on it is that a write is refused, and a write that is not refused
is one on the heap in it (`ContestedHeap.delete_of_served`, `ContestedHeap.insert_of_served`).

Which writes are refused is arbitrary. A sequence of writes depends on whether all of them are
served (`Outage.Serves`) and, if not, on the first one that is refused, whose answer is the cause of
the failure (`Outage.FailsAt`).
-/

namespace QueryEngine

/-! ## Outages -/

namespace Outage

def skip (o : Outage) (n : Nat) : Outage :=
  { o with calls := o.calls + n }

/-- The next calls are served, as many as given. -/
def Serves (o : Outage) (n : Nat) : Prop :=
  ∀ i < n, (o.skip i).refusal = .none

/-- The next calls are served, as many as given, and the one after them is refused. -/
def FailsAt (o : Outage) (n : Nat) (cause : StorageError) : Prop :=
  o.Serves n ∧ (o.skip n).refusal = some cause

instance (o : Outage) (n : Nat) : Decidable (o.Serves n) :=
  inferInstanceAs (Decidable (∀ i < n, (o.skip i).refusal = .none))

theorem serves_zero (o : Outage) : o.Serves 0 :=
  fun _ hi ↦ absurd hi (Nat.not_lt_zero _)

theorem Serves.succ {o : Outage} {n : Nat} (serves : o.Serves n)
    (next : (o.skip n).refusal = .none) : o.Serves (n + 1) := by
  intro i hi
  rcases Nat.lt_succ_iff_lt_or_eq.mp hi with hlt | rfl
  · exact serves i hlt
  · exact next

variable {o : Outage} {j j' n : Nat} {cause cause' : StorageError}

theorem FailsAt.not_serves (fails : o.FailsAt j cause) (hlt : j < n) : ¬o.Serves n := by
  intro serves
  have hrefused := fails.2
  rw [serves j hlt] at hrefused
  cases hrefused

theorem FailsAt.unique (fails : o.FailsAt j cause) (fails' : o.FailsAt j' cause') :
    j = j' ∧ cause = cause' := by
  obtain rfl : j = j' := by
    rcases Nat.lt_trichotomy j j' with hlt | heq | hlt
    · exact absurd fails'.1 (fails.not_serves hlt)
    · exact heq
    · exact absurd fails.1 (fails'.not_serves hlt)
  exact ⟨rfl, Option.some.inj (fails.2.symm.trans fails'.2)⟩

end Outage

/-! ## Quiet heaps -/

namespace ContestedHeap

/-- Nothing is refused but writes, and nobody else is around. -/
structure Quiet (c : ContestedHeap) : Prop where
  reads : ∀ n, c.reads.refuses n = none
  counts : ∀ n, c.counts.refuses n = none
  edits : ∀ n, c.edits n = []
  announced : c.announced = []

theorem quiet_ofHeap (heap : Heap) (writes : Outage) : Quiet { ofHeap heap with writes } :=
  ⟨fun _ ↦ rfl, fun _ ↦ rfl, fun _ ↦ rfl, rfl⟩

namespace Quiet

variable {c : ContestedHeap} {name : String} {r : Row}

theorem afterRead (quiet : c.Quiet) : Quiet { c with reads := c.reads.next } :=
  ⟨quiet.reads, quiet.counts, quiet.edits, quiet.announced⟩

theorem afterCount (quiet : c.Quiet) :
    Quiet { c with counts := c.counts.next, counted := c.counted + 1 } :=
  ⟨quiet.reads, quiet.counts, quiet.edits, quiet.announced⟩

theorem afterWrite (quiet : c.Quiet) (heap : Heap) (writes : Outage) :
    Quiet { c with heap, writes } :=
  ⟨quiet.reads, quiet.counts, quiet.edits, quiet.announced⟩

theorem tableSchema_eq (quiet : c.Quiet) (name : String) :
    Storage.tableSchema c name = (c.heap.table name).map HeapTable.schema := by
  change c.tableSchema name = _
  rw [tableSchema, quiet.announced]
  rfl

theorem pageCount_eq (quiet : c.Quiet) (name : String) :
    Storage.pageCount name c = ((c.heap.table name).map fun t ↦ t.pages.length,
      { c with counts := c.counts.next, counted := c.counted + 1 }) := by
  change c.pageCount name = _
  rw [pageCount, Outage.refusal, quiet.counts, quiet.edits]
  rfl

theorem readPage_eq (quiet : c.Quiet) (name : String) (page : UInt32) :
    Storage.readPage name page c
      = (c.heap.readPage name page, { c with reads := c.reads.next }) := by
  change c.readPage name page = _
  rw [readPage, Outage.refusal, quiet.reads]

end Quiet

/-! ## Writes -/

variable {c : ContestedHeap} {name : String} {r : Row}

theorem delete_of_refused {cause : StorageError} (refused : c.writes.refusal = some cause) :
    Storage.delete name r c = (.error cause, { c with writes := c.writes.next }) := by
  change c.delete r = _
  rw [delete, refused]

theorem delete_of_served (served : c.writes.refusal = none) {heap : Heap}
    (deleted : c.heap.delete r = .ok heap) :
    Storage.delete name r c = (.ok (), { c with heap, writes := c.writes.next }) := by
  change c.delete r = _
  rw [delete, served, deleted]

theorem insert_of_refused {cause : StorageError} (refused : c.writes.refusal = some cause) :
    Storage.insert name r c = (.error cause, { c with writes := c.writes.next }) := by
  change c.insert name r = _
  rw [insert, refused]

theorem insert_of_served (served : c.writes.refusal = none) {id : RecordId} {heap : Heap}
    (inserted : c.heap.insert name r = .ok (id, heap)) :
    Storage.insert name r c = (.ok id, { c with heap, writes := c.writes.next }) := by
  change c.insert name r = _
  rw [insert, served, inserted]

/-- A delete is one on the heap, or nothing is removed. -/
theorem delete_cases (name : String) (r : Row) (c : ContestedHeap) :
    (∃ heap, c.heap.delete r = .ok heap
        ∧ Storage.delete name r c = (.ok (), { c with heap, writes := c.writes.next }))
      ∨ ∃ e, Storage.delete name r c = (.error e, { c with writes := c.writes.next }) := by
  change (∃ heap, _ ∧ c.delete r = _) ∨ ∃ e, c.delete r = _
  rw [delete]
  split
  · next cause _ => exact .inr ⟨cause, rfl⟩
  · rcases c.heap.delete r with e | heap
    · exact .inr ⟨e, rfl⟩
    · exact .inl ⟨heap, rfl, rfl⟩

theorem insert_cases (name : String) (r : Row) (c : ContestedHeap) :
    (∃ id heap, c.heap.insert name r = .ok (id, heap)
        ∧ Storage.insert name r c = (.ok id, { c with heap, writes := c.writes.next }))
      ∨ ∃ e, Storage.insert name r c = (.error e, { c with writes := c.writes.next }) := by
  change (∃ id heap, _ ∧ c.insert name r = _) ∨ ∃ e, c.insert name r = _
  rw [insert]
  split
  · next cause _ => exact .inr ⟨cause, rfl⟩
  · rcases c.heap.insert name r with e | ⟨id, heap⟩
    · exact .inr ⟨e, rfl⟩
    · exact .inl ⟨id, heap, rfl, rfl⟩

end ContestedHeap

end QueryEngine
