import Mathlib.Algebra.Ring.Nat
import QueryEngine.Proofs.Storage.Lifetime
import QueryEngine.Storage.Contested

/-!
# The population of a heap

A heap holds so many rows, counted over all its tables. An insert that is accepted adds one to them
and a delete takes one away, as the ids of an orderly heap tell its tables apart: a change goes to
one table only. So the rows that a run of writes added or removed can be read off the heaps before
and after it, whoever counted them.

Writes change rows, but no schema. A heap that keeps a table of a given schema (`Heap.Keeps`) does
so for good, and all rows on its pages conform to the schema.
-/

namespace QueryEngine

/-! ## Tables -/

namespace Page

theorem length_rows_set {page : Page} {s : Nat} {r : Row} (hslot : page[s]? = some (some r)) :
    (rows (page.set s none)).length + 1 = (rows page).length := by
  induction page generalizing s with
  | nil => cases hslot
  | cons slot page ih =>
    cases s with
    | zero =>
      rw [List.getElem?_cons_zero, Option.some.injEq] at hslot
      subst hslot
      rfl
    | succ s =>
      have hrest := ih (s := s) hslot
      rw [List.set_cons_succ, rows, rows, List.filterMap_cons, List.filterMap_cons, ← rows, ← rows]
      cases slot with
      | none => exact hrest
      | some r' => exact congrArg (· + 1) hrest

theorem rows_append (page page' : Page) : rows (page ++ page') = rows page ++ rows page' :=
  List.filterMap_append

theorem length_rows_modify {pages : List Page} {p : Nat} {page : Page} {f : Page → Page}
    (hpage : pages[p]? = some page) (hf : (rows (f page)).length + 1 = (rows page).length) :
    (rows (pages.modify p f).flatten).length + 1 = (rows pages.flatten).length := by
  induction pages generalizing p with
  | nil => cases hpage
  | cons first pages ih =>
    cases p with
    | zero =>
      rw [List.getElem?_cons_zero, Option.some.injEq] at hpage
      subst hpage
      rw [List.modify_zero_cons, List.flatten_cons, List.flatten_cons, rows_append, rows_append,
        List.length_append, List.length_append]
      omega
    | succ p =>
      have hrest := ih (p := p) hpage
      rw [List.modify_succ_cons, List.flatten_cons, List.flatten_cons, rows_append, rows_append,
        List.length_append, List.length_append]
      omega

end Page

namespace HeapTable

variable {t : HeapTable}

theorem length_rows_append (capacity : Nat) (t : HeapTable) (r : Row) :
    (t.append capacity r).rows.length = t.rows.length + 1 := by
  rw [rows_append, List.length_append, List.length_singleton]

theorem length_rows_vacate {id : RecordId} {r : Row} (hrow : t.row? id = some r) :
    (t.vacate id).rows.length + 1 = t.rows.length := by
  rw [row?] at hrow
  split at hrow
  · cases hrow
  · next page hpage =>
    exact Page.length_rows_modify hpage (Page.length_rows_set (Option.join_eq_some_iff.mp hrow))

end HeapTable

namespace Heap

/-! ## The number of rows -/

def population (h : Heap) : Nat :=
  (h.tables.map fun t ↦ t.rows.length).sum

variable {h h' : Heap} {name : String} {r : Row}

private theorem sum_map_exchange {l : List HeapTable} (nodup : (l.map HeapTable.id).Nodup)
    {t t' : HeapTable} (ht : t ∈ l) (id_eq : t'.id = t.id) (f : HeapTable → Nat) :
    ((l.map fun t'' ↦ if t''.id = t'.id then t' else t'').map f).sum + f t
      = (l.map f).sum + f t' := by
  induction l with
  | nil => cases ht
  | cons t₀ l ih =>
    rw [List.map_cons, List.nodup_cons] at nodup
    rw [List.map_cons, List.map_cons, List.map_cons, List.sum_cons, List.sum_cons]
    rcases List.mem_cons.mp ht with rfl | ht
    · have hrest : (l.map fun t'' ↦ if t''.id = t'.id then t' else t'') = l := by
        refine (List.map_congr_left fun t'' ht'' ↦ if_neg fun heq ↦ ?_).trans (List.map_id _)
        exact nodup.1 (List.mem_map.mpr ⟨t'', ht'', heq.trans id_eq⟩)
      rw [if_pos id_eq.symm, hrest]
      omega
    · have hne : t₀.id ≠ t'.id := fun heq ↦
        nodup.1 (List.mem_map.mpr ⟨t, ht, id_eq.symm.trans heq.symm⟩)
      have hrest := ih nodup.2 ht
      rw [if_neg hne]
      omega

/-- A change of a table changes the population as it changes the rows of the table. -/
theorem Orderly.population_update (orderly : h.Orderly) {t : HeapTable} (ht : t ∈ h.tables)
    (t' : HeapTable) (id_eq : t'.id = t.id) :
    (h.update t').population + t.rows.length = h.population + t'.rows.length :=
  sum_map_exchange orderly.ids_nodup ht id_eq fun t ↦ t.rows.length

theorem population_insert (orderly : h.Orderly) {id : RecordId}
    (inserted : h.insert name r = .ok (id, h')) : h'.population = h.population + 1 := by
  obtain ⟨t, ht, -, -, rfl⟩ := insert_eq_ok_iff.mp inserted
  have hupdate := orderly.population_update (mem_of_table ht) (t.append h.capacity r) rfl
  rw [HeapTable.length_rows_append] at hupdate
  omega

theorem population_delete (orderly : h.Orderly) (deleted : h.delete r = .ok h') :
    h'.population + 1 = h.population := by
  obtain ⟨id, t, row, -, ht, hrow, rfl⟩ := delete_eq_ok_iff.mp deleted
  have hupdate := orderly.population_update (mem_of_tableById ht) (t.vacate id) rfl
  have hvacate := HeapTable.length_rows_vacate hrow
  omega

/-! ## Keeping a table -/

/-- Whether the heap, with no more tables than there are numbers for them, has a table of the given
name and schema. -/
structure Keeps (h : Heap) (name : String) (schema : Schema) : Prop where
  reachable : h.Reachable
  few : h.tables.length ≤ 2 ^ 32
  found : ∃ t, h.table name = .ok t ∧ t.schema = schema

namespace Keeps

variable {schema : Schema}

theorem orderly (keeps : h.Keeps name schema) : h.Orderly :=
  keeps.reachable.orderly keeps.few

private theorem update (keeps : h.Keeps name schema) {c : Call} {t t' : HeapTable}
    (hcall : (h.call c).2 = h.update t') (ht : t ∈ h.tables) (id_eq : t'.id = t.id)
    (name_eq : t'.name = t.name) (schema_eq : t'.schema = t.schema) :
    (h.update t').Keeps name schema where
  reachable := hcall ▸ keeps.reachable.call c
  few := by
    rw [length_tables_update]
    exact keeps.few
  found := by
    obtain ⟨t₀, ht₀, hschema⟩ := keeps.found
    obtain ⟨t₁, ht₁, hschema₁⟩ := exists_table_update keeps.orderly ht₀ ht
      (R := fun t t' ↦ t'.schema = t.schema) (fun _ ↦ rfl) schema_eq id_eq name_eq
    exact ⟨t₁, ht₁, hschema₁.trans hschema⟩

theorem insert (keeps : h.Keeps name schema) {name' : String} {id : RecordId}
    (inserted : h.insert name' r = .ok (id, h')) : h'.Keeps name schema := by
  have hcall : (h.call (.insert name' r)).2 = h' := by rw [call, inserted]
  obtain ⟨t, ht, -, -, rfl⟩ := insert_eq_ok_iff.mp inserted
  exact keeps.update hcall (mem_of_table ht) rfl rfl rfl

theorem delete (keeps : h.Keeps name schema) (deleted : h.delete r = .ok h') :
    h'.Keeps name schema := by
  have hcall : (h.call (.delete r)).2 = h' := by rw [call, deleted]
  obtain ⟨id, t, row, -, ht, -, rfl⟩ := delete_eq_ok_iff.mp deleted
  exact keeps.update hcall (mem_of_tableById ht) rfl rfl rfl

theorem edit (keeps : h.Keeps name schema) {e : Edit} (edited : h.edit e = .ok h') :
    h'.Keeps name schema := by
  cases e with
  | insert table row =>
    rw [Heap.edit] at edited
    rcases hinsert : h.insert table row with cause | ⟨id, h₁⟩
    · rw [hinsert] at edited
      cases edited
    · rw [hinsert] at edited
      cases edited
      exact keeps.insert hinsert
  | delete row => exact keeps.delete edited

/-- A table outlives the changes that others make. -/
theorem editAll (keeps : h.Keeps name schema) {edits : List Edit}
    {answer : Except StorageError Unit} (edited : h.editAll edits = (answer, h')) :
    h'.Keeps name schema := by
  induction edits generalizing h with
  | nil =>
    obtain ⟨-, rfl⟩ := Prod.mk.inj edited
    exact keeps
  | cons e rest ih =>
    rw [Heap.editAll] at edited
    split at edited
    · next h₁ hedit => exact ih (keeps.edit hedit) edited
    · obtain ⟨-, rfl⟩ := Prod.mk.inj edited
      exact keeps

/-- A table outlives every call. -/
theorem call (keeps : h.Keeps name schema) (c : Call)
    (few : (h.call c).2.tables.length ≤ 2 ^ 32) : (h.call c).2.Keeps name schema := by
  rcases h.call_cases c with hsame | ⟨_, _, -, -, hnew⟩ | ⟨_, r, t, -, ht, -, hnew⟩
    | ⟨_, id, t, _, -, -, ht, -, hnew⟩
  · rwa [hsame]
  · obtain ⟨t, ht, hschema⟩ := keeps.found
    refine ⟨keeps.reachable.call c, few, t, ?_, hschema⟩
    rw [hnew, table_eq_ok_iff, List.find?_append, table_eq_ok_iff.mp ht]
    rfl
  · have hupdate := keeps.update hnew (mem_of_table ht) rfl rfl rfl
    rwa [hnew]
  · have hupdate := keeps.update hnew (mem_of_tableById ht) rfl rfl rfl
    rwa [hnew]

theorem conforms (keeps : h.Keeps name schema) {page : UInt32} {rows : List Row}
    (hread : h.readPage name page = .ok rows) (hr : r ∈ rows) : r.Conforms schema := by
  obtain ⟨t, ht, rfl⟩ := keeps.found
  exact keeps.reachable.sound.conforms_of_readPage ht hread hr

end Keeps

end Heap

end QueryEngine
