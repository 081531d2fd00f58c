import QueryEngine.Proofs.Storage.Lifetime

/-!
# Appending rows

`HeapTable.appendAll` appends rows one after the other. It is what inserting them comes to
(`Heap.insert_appendAll`): a table takes every row that conforms to its schema, and what it takes
stands at the end of its log.

`Heap.Gains` says what is to be seen of it: the values of the rows are there, in order and under
record ids that no row had before; what was stored before is where it was, and the other tables are
as before.
-/

namespace QueryEngine

/-! ## A table with more rows -/

namespace HeapTable

def appendAll (capacity : Nat) (t : HeapTable) (rows : List Row) : HeapTable :=
  rows.foldl (append capacity) t

/-- The rows that are kept when rows are appended in order. -/
def storedAll (capacity : Nat) (t : HeapTable) : List Row → List Row
  | [] => []
  | r :: rest => t.stored capacity r :: (t.append capacity r).storedAll capacity rest

variable {capacity : Nat} {t : HeapTable} {r : Row}

theorem appendAll_concat (capacity : Nat) (t : HeapTable) (rows : List Row) (r : Row) :
    t.appendAll capacity (rows ++ [r]) = (t.appendAll capacity rows).append capacity r :=
  List.foldl_concat ..

/-- Whatever an append keeps, appending rows in order keeps. -/
theorem appendAll_induction {P : HeapTable → Prop} (start : P t)
    (step : ∀ t' r, P t' → P (t'.append capacity r)) (rows : List Row) :
    P (t.appendAll capacity rows) := by
  induction rows generalizing t with
  | nil => exact start
  | cons r rest ih => exact ih (step t r start)

theorem becomes_appendAll (capacity : Nat) (t : HeapTable) (rows : List Row) :
    t.Becomes (t.appendAll capacity rows) :=
  appendAll_induction (P := t.Becomes) (.refl t)
    (fun t' r becomes ↦ becomes.trans (t'.becomes_append capacity r)) rows

theorem log_appendAll (capacity : Nat) (t : HeapTable) (rows : List Row) :
    (t.appendAll capacity rows).log = t.log ++ (t.storedAll capacity rows).map some := by
  induction rows generalizing t with
  | nil => exact (List.append_nil _).symm
  | cons r rest ih =>
    rw [appendAll, List.foldl_cons, ← appendAll, ih, log_append, storedAll, List.map_cons,
      List.append_assoc]
    rfl

theorem rows_appendAll (capacity : Nat) (t : HeapTable) (rows : List Row) :
    (t.appendAll capacity rows).rows = t.rows ++ t.storedAll capacity rows := by
  rw [HeapTable.rows, log_appendAll, Page.rows, List.filterMap_append, List.filterMap_map]
  exact congrArg (t.rows ++ ·) List.filterMap_some

theorem values_storedAll (capacity : Nat) (t : HeapTable) (rows : List Row) :
    (t.storedAll capacity rows).map Row.values = rows.map Row.values := by
  induction rows generalizing t with
  | nil => rfl
  | cons r rest ih => rw [storedAll, List.map_cons, ih]; rfl

theorem row?_append {id : RecordId} (hr : t.row? id = some r) (capacity : Nat) (r' : Row) :
    (t.append capacity r').row? id = some r := by
  rw [row?] at hr
  rcases hpage : t.pages[id.page.toNat]? with _ | page
  · rw [hpage] at hr
    cases hr
  · obtain ⟨more, hmore⟩ := exists_page_appendSlot capacity (some (t.stored capacity r')) hpage
    rw [hpage] at hr
    have hslot : page[id.slot.toNat]? = some (some r) := Option.join_eq_some_iff.mp hr
    have hlt := (List.getElem?_eq_some_iff.mp hslot).1
    have happ : (t.append capacity r').pages[id.page.toNat]? = some (page ++ more) := hmore
    rw [row?, happ]
    simp [List.getElem?_append_left hlt, hslot]

theorem row?_appendAll {id : RecordId} (hr : t.row? id = some r) (capacity : Nat)
    (rows : List Row) : (t.appendAll capacity rows).row? id = some r :=
  appendAll_induction (P := fun t' ↦ t'.row? id = some r) hr
    (fun _ r' hr ↦ row?_append hr capacity r') rows

theorem name_appendAll (capacity : Nat) (t : HeapTable) (rows : List Row) :
    (t.appendAll capacity rows).name = t.name :=
  appendAll_induction (P := fun t' ↦ t'.name = t.name) rfl (fun _ _ hname ↦ hname) rows

theorem schema_appendAll (capacity : Nat) (t : HeapTable) (rows : List Row) :
    (t.appendAll capacity rows).schema = t.schema :=
  appendAll_induction (P := fun t' ↦ t'.schema = t.schema) rfl (fun _ _ hschema ↦ hschema) rows

end HeapTable

theorem Follows.appendAll {capacity : Nat} (pos : 0 < capacity) {t : HeapTable} {j : Journal}
    (follows : Follows capacity t j) {rows : List Row}
    (conforms : ∀ r ∈ rows, r.Conforms t.schema) :
    ∃ j', Follows capacity (t.appendAll capacity rows) j' := by
  induction rows generalizing t j with
  | nil => exact ⟨j, follows⟩
  | cons r rest ih =>
    exact ih (follows.append pos (conforms r List.mem_cons_self))
      fun r' hr' ↦ conforms r' (List.mem_cons_of_mem _ hr')

/-! ## What is to be seen of it -/

/-- The second table has the given rows behind the log of the first one. What was stored is where it
was, and if 32 bits are enough, the new rows are found under record ids that no row had before. -/
structure HeapTable.GrowsBy (t t' : HeapTable) (stored : List Row) : Prop where
  id_eq : t'.id = t.id
  schema_eq : t'.schema = t.schema
  log_eq : t'.log = t.log ++ stored.map some
  kept : ∀ id r, t.row? id = some r → t'.row? id = some r
  ids_nodup : t'.Addressable → (stored.map Row.id?).Nodup
  fresh : t'.Addressable → ∀ r ∈ stored, ∃ id, r.id? = some id ∧ id.table = t.id ∧ ¬t.Used id
    ∧ t'.row? id = some r

/-- Rows of the given values have been added to a table, and no other table has changed. -/
structure Heap.Gains (h h' : Heap) (name : String) (t : HeapTable) (rows : List Row) : Prop where
  table : ∃ t' stored, h'.table name = .ok t' ∧ t.GrowsBy t' stored
    ∧ stored.map Row.values = rows.map Row.values
  others : ∀ name', name' ≠ name → h'.table name' = h.table name'

theorem HeapTable.Placed.growsBy {capacity : Nat} {t : HeapTable} {rows : List Row}
    (placed : (t.appendAll capacity rows).Placed) :
    t.GrowsBy (t.appendAll capacity rows) (t.storedAll capacity rows) where
  id_eq := (t.becomes_appendAll capacity rows).id_eq
  schema_eq := t.schema_appendAll capacity rows
  log_eq := t.log_appendAll capacity rows
  kept := fun _ _ hr ↦ row?_appendAll hr capacity rows
  ids_nodup := by
    intro addressable
    have hsorted := placed.pairwise_rows addressable
    rw [rows_appendAll, List.pairwise_append] at hsorted
    exact List.pairwise_map.mpr (hsorted.2.1.imp Row.Before.id?_ne)
  fresh := by
    intro addressable r hr
    have becomes := t.becomes_appendAll capacity rows
    have hmem : r ∈ (t.appendAll capacity rows).rows := by
      rw [rows_appendAll]
      exact List.mem_append_right _ hr
    have hnodup := placed.nodup_rows addressable
    rw [rows_appendAll, List.nodup_append] at hnodup
    obtain ⟨id, hid, htable, hrow⟩ := placed.row?_of_mem addressable hmem
    refine ⟨id, hid, htable.trans becomes.id_eq, ?_, hrow⟩
    rcases becomes.rows addressable r hmem with hold | ⟨id', hid', unused⟩
    · exact absurd rfl (hnodup.2.2 r hold r hr)
    · rwa [Option.some.inj (hid.symm.trans hid')]

namespace Heap

variable {h : Heap} {name : String} {t : HeapTable}

theorem gains_appendAll (reachable : h.Reachable) (few : h.tables.length ≤ 2 ^ 32)
    (ht : h.table name = .ok t) {rows : List Row} (conforms : ∀ r ∈ rows, r.Conforms t.schema) :
    h.Gains (h.update (t.appendAll h.capacity rows)) name t rows where
  table := by
    obtain ⟨j, follows⟩ := reachable.sound t (mem_of_table ht)
    obtain ⟨j', follows'⟩ := follows.appendAll h.capacity_pos conforms
    have hlookup := table_update (reachable.orderly few) ht
      (t.becomes_appendAll h.capacity rows).id_eq (t.name_appendAll h.capacity rows)
    have grows := (follows'.placed h.capacity_pos).growsBy
    exact ⟨_, _, hlookup, grows, t.values_storedAll h.capacity rows⟩
  others := by
    intro name' hne
    refine table_update_of_ne (reachable.orderly few) (mem_of_table ht)
      (t.becomes_appendAll h.capacity rows).id_eq (t.name_appendAll h.capacity rows) ?_
    rwa [name_of_table ht]

/-! ## Inserting row by row -/

theorem insert_appendAll (orderly : h.Orderly) (ht : h.table name = .ok t) {r : Row}
    (conforms : r.Conforms t.schema) (done : List Row) :
    ∃ id, (h.update (t.appendAll h.capacity done)).insert name r
      = .ok (id, h.update (t.appendAll h.capacity (done ++ [r]))) := by
  have hlookup := table_update orderly ht (t.becomes_appendAll h.capacity done).id_eq
    (t.name_appendAll h.capacity done)
  have hid : ((t.appendAll h.capacity done).append h.capacity r).id
      = (t.appendAll h.capacity done).id := rfl
  refine ⟨(t.appendAll h.capacity done).nextId h.capacity, ?_⟩
  rw [insert, hlookup]
  dsimp only
  rw [HeapTable.schema_appendAll, if_pos conforms, HeapTable.appendAll_concat,
    ← update_update h hid]
  rfl

end Heap

end QueryEngine
