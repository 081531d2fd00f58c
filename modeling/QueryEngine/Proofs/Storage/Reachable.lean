import QueryEngine.Proofs.Storage.Journal

/-!
# Reachable heaps

The heaps that come about by calls, from a heap without tables. The invariant of these heaps is
`Heap.Sound`: every table holds some journal. It needs no bound on the number of tables or of rows,
so whatever follows from it (pages are packed, stored rows conform to the schema of their table and
carry the record id of their place) is true of every reachable heap.

When a call succeeds and what it has done then is said once for each call (`createTable_eq_ok_iff`,
`insert_eq_ok_iff`, `delete_eq_ok_iff`).
-/

namespace QueryEngine

namespace Heap

/-! ## Calls -/

inductive Call where
  | create (name : String) (schema : Schema)
  | insert (name : String) (row : Row)
  | delete (row : Row)

/-- The answer to a call that succeeds. -/
inductive Answer where
  | created (id : UInt32)
  | stored (id : RecordId)
  | removed
deriving DecidableEq

/-- The answer to a call, and the heap after it. -/
def call (h : Heap) : Call → Except StorageError Answer × Heap
  | .create name schema =>
    match h.createTable name schema with
    | .ok (id, h') => (.ok (.created id), h')
    | .error e => (.error e, h)
  | .insert name r =>
    match h.insert name r with
    | .ok (id, h') => (.ok (.stored id), h')
    | .error e => (.error e, h)
  | .delete r =>
    match h.delete r with
    | .ok h' => (.ok .removed, h')
    | .error e => (.error e, h)

def run (h : Heap) : List Call → List (Except StorageError Answer) × Heap
  | [] => ([], h)
  | c :: rest => ((h.call c).1 :: ((h.call c).2.run rest).1, ((h.call c).2.run rest).2)

/-- The heaps that calls lead to from a heap without tables. -/
def Reachable (h : Heap) : Prop :=
  ∃ capacity calls, h = ((ofCapacity capacity).run calls).2

theorem run_concat (h : Heap) (calls : List Call) (c : Call) :
    h.run (calls ++ [c])
      = ((h.run calls).1 ++ [((h.run calls).2.call c).1], ((h.run calls).2.call c).2) := by
  induction calls generalizing h with
  | nil => rfl
  | cons c' rest ih => rw [List.cons_append, run, ih, run, List.cons_append]

theorem run_append (h : Heap) (calls calls' : List Call) :
    (h.run (calls ++ calls')).2 = ((h.run calls).2.run calls').2 := by
  induction calls generalizing h with
  | nil => rfl
  | cons c rest ih => exact ih (h.call c).2

/-! ## Looking tables up -/

theorem table_eq_ok_iff {h : Heap} {name : String} {t : HeapTable} :
    h.table name = .ok t ↔ h.tables.find? (·.name = name) = some t := by
  rw [table]
  split
  · next t' ht' => rw [ht', Except.ok.injEq, Option.some.injEq]
  · next hnone => simp [hnone]

theorem mem_of_table {h : Heap} {name : String} {t : HeapTable} (ht : h.table name = .ok t) :
    t ∈ h.tables :=
  List.mem_of_find?_eq_some (table_eq_ok_iff.mp ht)

theorem name_of_table {h : Heap} {name : String} {t : HeapTable} (ht : h.table name = .ok t) :
    t.name = name := by
  simpa using List.find?_some (table_eq_ok_iff.mp ht)

theorem mem_of_tableById {h : Heap} {id : UInt32} {t : HeapTable} (ht : h.tableById id = .ok t) :
    t ∈ h.tables := by
  rw [tableById] at ht
  split at ht
  · next t' ht' =>
    cases ht
    exact List.mem_of_find?_eq_some ht'
  · cases ht

theorem id_of_tableById {h : Heap} {id : UInt32} {t : HeapTable} (ht : h.tableById id = .ok t) :
    t.id = id := by
  rw [tableById] at ht
  split at ht
  · next t' ht' =>
    cases ht
    simpa using List.find?_some ht'
  · cases ht

/-! ## Calls that succeed -/

section

variable {h h' : Heap} {name : String} {r : Row}

theorem createTable_eq_ok_iff {schema : Schema} {id : UInt32} :
    h.createTable name schema = .ok (id, h')
      ↔ h.table name = .error (.tableNotFound name) ∧ id = h.nextId
        ∧ h' = { h with
            tables := h.tables ++ [⟨h.nextId, name, schema, [], 0⟩], nextId := h.nextId + 1 } := by
  rw [createTable, table]
  cases h.tables.find? (·.name = name) with
  | some t => simp
  | none => simp [eq_comm]

theorem insert_eq_ok_iff {id : RecordId} :
    h.insert name r = .ok (id, h')
      ↔ ∃ t, h.table name = .ok t ∧ r.Conforms t.schema ∧ id = t.nextId h.capacity
        ∧ h' = h.update (t.append h.capacity r) := by
  rw [insert]
  cases h.table name with
  | error e => simp
  | ok t =>
    by_cases conforms : r.Conforms t.schema
    · simp [conforms, eq_comm]
    · simp [conforms]

theorem delete_eq_ok_iff :
    h.delete r = .ok h'
      ↔ ∃ id t row, r.id? = some id ∧ h.tableById id.table = .ok t ∧ t.row? id = some row
        ∧ h' = h.update (t.vacate id) := by
  rw [delete]
  cases r.id? with
  | none => simp
  | some id =>
    rcases ht : h.tableById id.table with e | t
    · simp [ht]
    · cases hrow : t.row? id with
      | none => simp [ht, hrow]
      | some row => simp [ht, hrow, eq_comm]

end

/-! ## The invariant -/

/-- Every table holds some journal. -/
def Sound (h : Heap) : Prop :=
  ∀ t ∈ h.tables, ∃ j, Follows h.capacity t j

theorem sound_ofCapacity (capacity : Nat) : (ofCapacity capacity).Sound :=
  fun _ ht ↦ absurd ht List.not_mem_nil

theorem Sound.conforms_of_readPage {h : Heap} (sound : h.Sound) {name : String} {t : HeapTable}
    (ht : h.table name = .ok t) {page : UInt32} {rows : List Row}
    (hread : h.readPage name page = .ok rows) {r : Row} (hr : r ∈ rows) : r.Conforms t.schema := by
  rw [readPage, ht] at hread
  dsimp only at hread
  split at hread
  · next slots hslots =>
    cases hread
    obtain ⟨j, follows⟩ := sound t (mem_of_table ht)
    refine follows.conforms_of_mem ?_
    obtain ⟨slot, hslot, hrow⟩ := List.mem_filterMap.mp hr
    exact List.mem_filterMap.mpr
      ⟨slot, List.mem_flatten.mpr ⟨slots, List.mem_of_getElem? hslots, hslot⟩, hrow⟩
  · cases hread

theorem Sound.update {h : Heap} (sound : h.Sound) {t : HeapTable} {j : Journal}
    (follows : Follows h.capacity t j) : (h.update t).Sound := by
  intro t' ht'
  obtain ⟨t'', ht'', rfl⟩ := List.mem_map.mp ht'
  split
  · exact ⟨j, follows⟩
  · exact sound t'' ht''

theorem Sound.createTable {h h' : Heap} (sound : h.Sound) {name : String} {schema : Schema}
    {id : UInt32} (hcreate : h.createTable name schema = .ok (id, h')) : h'.Sound := by
  obtain ⟨-, -, rfl⟩ := createTable_eq_ok_iff.mp hcreate
  intro t ht
  rcases List.mem_append.mp ht with hold | hnew
  · exact sound t hold
  · rw [List.mem_singleton.mp hnew]
    have hfollows := Follows.empty h.capacity h.nextId.toNat name schema
    rw [UInt32.ofNat_toNat] at hfollows
    exact ⟨_, hfollows⟩

theorem Sound.insert {h h' : Heap} (sound : h.Sound) {name : String} {r : Row} {id : RecordId}
    (hinsert : h.insert name r = .ok (id, h')) : h'.Sound := by
  obtain ⟨t, ht, conforms, -, rfl⟩ := insert_eq_ok_iff.mp hinsert
  obtain ⟨j, follows⟩ := sound t (mem_of_table ht)
  exact sound.update (follows.append h.capacity_pos conforms)

theorem Sound.delete {h h' : Heap} (sound : h.Sound) {r : Row} (hdelete : h.delete r = .ok h') :
    h'.Sound := by
  obtain ⟨id, t, row, -, ht, hrow, rfl⟩ := delete_eq_ok_iff.mp hdelete
  obtain ⟨j, follows⟩ := sound t (mem_of_tableById ht)
  exact sound.update (follows.vacate hrow)

theorem Sound.call {h : Heap} (sound : h.Sound) (c : Call) : (h.call c).2.Sound := by
  cases c with
  | create name schema =>
    rw [Heap.call]
    split
    · next id h' hcreate => exact sound.createTable hcreate
    · exact sound
  | insert name r =>
    rw [Heap.call]
    split
    · next id h' hinsert => exact sound.insert hinsert
    · exact sound
  | delete r =>
    rw [Heap.call]
    split
    · next h' hdelete => exact sound.delete hdelete
    · exact sound

theorem Sound.run {h : Heap} (sound : h.Sound) (calls : List Call) : (h.run calls).2.Sound := by
  induction calls generalizing h with
  | nil => exact sound
  | cons c rest ih => exact ih (sound.call c)

theorem Reachable.sound {h : Heap} (reachable : h.Reachable) : h.Sound := by
  obtain ⟨capacity, calls, rfl⟩ := reachable
  exact (sound_ofCapacity capacity).run calls

end Heap

end QueryEngine
