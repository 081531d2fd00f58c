import Mathlib.Algebra.Group.Nat.Defs
import QueryEngine.Proofs.Storage.Packed

/-!
# The journal of a table

What a table amounts to, apart from its pages: the list of all rows that were ever inserted, in that
order, each with a mark that tells whether it has been deleted. A journal only grows at its end, and
a mark is only ever set. It knows nothing of pages; the page and the slot of an entry, and the
number of pages, are computed from the capacity of a page.

## Agreement

`Follows` says that a table of the heap is the table of a journal. It is the invariant behind all
that is said about stored rows, and the two writes keep it: appending a row (`Follows.append`) and
emptying the slot of one (`Follows.vacate`). Neither needs a bound on the number of rows. The bound
matters only where a record id has to be read back as a position, since page and slot numbers have
32 bits.
-/

namespace QueryEngine

theorem ofNat_inj_of_lt {m n : Nat} (hm : m < 2 ^ 32) (hn : n < 2 ^ 32) :
    UInt32.ofNat m = UInt32.ofNat n ↔ m = n := by
  rw [← UInt32.toNat_inj, UInt32.toNat_ofNat', UInt32.toNat_ofNat', Nat.mod_eq_of_lt hm,
    Nat.mod_eq_of_lt hn]

/-! ## Journals -/

/-- A row that was inserted into a table. -/
structure Entry where
  values : List Value
  /-- Whether the row has been deleted since. -/
  deleted : Bool
deriving DecidableEq

/-- All rows ever inserted into a table. -/
structure Journal where
  id : Nat
  name : String
  schema : Schema
  entries : List Entry
deriving DecidableEq

namespace Journal

/-- The record id of an entry: the entries fill one page after the other. -/
def recordId (capacity : Nat) (j : Journal) (k : Nat) : RecordId :=
  ⟨UInt32.ofNat j.id, UInt32.ofNat (k / capacity), UInt32.ofNat (k % capacity)⟩

/-- An entry as a row with its record id, unless it is deleted. -/
def row? (capacity : Nat) (j : Journal) (k : Nat) (e : Entry) : Option Row :=
  if e.deleted then none else some ⟨e.values, some (j.recordId capacity k)⟩

def rows? (capacity : Nat) (j : Journal) : List (Option Row) :=
  j.entries.mapIdx (j.row? capacity)

def liveCount (j : Journal) : Nat :=
  j.entries.countP fun e ↦ !e.deleted

/-- The number of pages that the entries fill, the last one perhaps in part. -/
def pageCount (capacity : Nat) (j : Journal) : Nat :=
  (j.entries.length + capacity - 1) / capacity

def page (capacity : Nat) (j : Journal) (p : Nat) : List Row :=
  ((j.rows? capacity).zipIdx.filter fun x ↦ x.2 / capacity = p).filterMap Prod.fst

def append (j : Journal) (r : Row) : Journal :=
  { j with entries := j.entries ++ [⟨r.values, false⟩] }

def strike (j : Journal) (k : Nat) : Journal :=
  { j with entries := j.entries.modify k fun e ↦ { e with deleted := true } }

@[simp] theorem length_rows? (capacity : Nat) (j : Journal) :
    (j.rows? capacity).length = j.entries.length :=
  List.length_mapIdx

theorem getElem?_rows? (capacity : Nat) (j : Journal) (k : Nat) :
    (j.rows? capacity)[k]? = j.entries[k]?.map (j.row? capacity k) :=
  List.getElem?_mapIdx

/-- A row is kept at a position when an undeleted entry stands there. -/
theorem join_getElem?_rows? {capacity : Nat} {j : Journal} {k : Nat} {row : Row} :
    (j.rows? capacity)[k]?.join = some row ↔
      ∃ e, j.entries[k]? = some e ∧ e.deleted = false ∧
        row = ⟨e.values, some (j.recordId capacity k)⟩ := by
  rw [getElem?_rows?]
  cases hk : j.entries[k]? with
  | none => simp
  | some e =>
    rw [Option.map_some, Option.join_some, row?]
    by_cases hd : e.deleted
    · simp [hd]
    · rw [if_neg hd, Option.some.injEq]
      constructor
      · rintro rfl
        exact ⟨e, rfl, Bool.eq_false_iff.mpr hd, rfl⟩
      · rintro ⟨e', he', -, rfl⟩
        cases he'
        rfl

theorem rows?_append (capacity : Nat) (j : Journal) (r : Row) :
    (j.append r).rows? capacity
      = j.rows? capacity ++ [some ⟨r.values, some (j.recordId capacity j.entries.length)⟩] :=
  List.mapIdx_concat

theorem rows?_strike (capacity : Nat) (j : Journal) (k : Nat) :
    (j.strike k).rows? capacity = (j.rows? capacity).set k none := by
  apply List.ext_getElem?
  intro i
  rw [getElem?_rows?, List.getElem?_set, length_rows?, getElem?_rows?, strike]
  by_cases hik : k = i
  · subst hik
    rw [List.getElem?_modify_eq, if_pos rfl]
    by_cases hk : k < j.entries.length
    · rw [List.getElem?_eq_getElem hk, if_pos hk]
      rfl
    · rw [List.getElem?_eq_none (Nat.le_of_not_lt hk), if_neg hk]
      rfl
  · rw [List.getElem?_modify_ne _ _ hik, if_neg hik]
    rfl

theorem liveCount_append (j : Journal) (r : Row) : (j.append r).liveCount = j.liveCount + 1 := by
  rw [liveCount, append, List.countP_append, List.countP_singleton]
  rfl

theorem liveCount_strike {j : Journal} {k : Nat} {e : Entry} (hk : j.entries[k]? = some e)
    (live : e.deleted = false) : (j.strike k).liveCount = j.liveCount - 1 := by
  obtain ⟨hlt, he⟩ := List.getElem?_eq_some_iff.mp hk
  have hset : j.entries.modify k (fun e ↦ { e with deleted := true })
      = j.entries.set k { e with deleted := true } := by
    apply List.ext_getElem?
    intro i
    rw [List.getElem?_set]
    by_cases hik : k = i
    · subst hik
      rw [List.getElem?_modify_eq, if_pos rfl, if_pos hlt, hk]
      rfl
    · rw [List.getElem?_modify_ne _ _ hik, if_neg hik]
  rw [liveCount, strike, hset, List.countP_set hlt, he, live]
  simp [liveCount]

end Journal

/-! ## Pages of a list -/

section

variable {α : Type} {q : Nat → Prop} [DecidablePred q] {l : List α} {k : Nat}

private theorem filter_zipIdx_eq_nil (h : ∀ i, k ≤ i → i < l.length + k → ¬q i) :
    (l.zipIdx k).filter (fun x ↦ q x.2) = [] := by
  rw [List.filter_eq_nil_iff]
  rintro ⟨a, i⟩ hmem
  simpa using h i (List.le_snd_of_mem_zipIdx hmem) (List.snd_lt_of_mem_zipIdx hmem)

private theorem filter_zipIdx_eq_self (h : ∀ i, k ≤ i → i < l.length + k → q i) :
    (l.zipIdx k).filter (fun x ↦ q x.2) = l.zipIdx k := by
  rw [List.filter_eq_self]
  rintro ⟨a, i⟩ hmem
  simpa using h i (List.le_snd_of_mem_zipIdx hmem) (List.snd_lt_of_mem_zipIdx hmem)

end

/-- The elements whose positions have a given quotient are a piece of the list. -/
theorem map_fst_filter_zipIdx_div {α : Type} {capacity : Nat} (pos : 0 < capacity) (l : List α)
    (p : Nat) :
    ((l.zipIdx.filter fun x ↦ x.2 / capacity = p).map Prod.fst)
      = (l.drop (p * capacity)).take capacity := by
  have hsplit : l = l.take (p * capacity)
      ++ ((l.drop (p * capacity)).take capacity ++ (l.drop (p * capacity)).drop capacity) := by
    rw [List.take_append_drop, List.take_append_drop]
  have hlength := l.length_take_le (p * capacity)
  -- Positions before the piece have a smaller quotient, those after it a greater one.
  have hbefore : ((l.take (p * capacity)).zipIdx 0).filter (fun x ↦ x.2 / capacity = p) = [] := by
    refine filter_zipIdx_eq_nil (q := (· / capacity = p)) fun i _ hi ↦ ?_
    have hlt : i / capacity < p := Nat.div_lt_of_lt_mul (by rw [Nat.mul_comm]; omega)
    exact Nat.ne_of_lt hlt
  have hwithin : (((l.drop (p * capacity)).take capacity).zipIdx
      (0 + (l.take (p * capacity)).length)).filter (fun x ↦ x.2 / capacity = p)
        = ((l.drop (p * capacity)).take capacity).zipIdx (0 + (l.take (p * capacity)).length) := by
    refine filter_zipIdx_eq_self (q := (· / capacity = p)) fun i hlo hhi ↦ ?_
    rw [List.length_take, List.length_drop, List.length_take] at hhi
    rw [List.length_take] at hlo
    exact Nat.div_eq_of_lt_le (by omega) (by rw [Nat.succ_mul]; omega)
  have hafter : (((l.drop (p * capacity)).drop capacity).zipIdx
      (0 + (l.take (p * capacity)).length
        + ((l.drop (p * capacity)).take capacity).length)).filter
          (fun x ↦ x.2 / capacity = p) = [] := by
    refine filter_zipIdx_eq_nil (q := (· / capacity = p)) fun i hlo hhi ↦ ?_
    rw [List.length_drop, List.length_drop, List.length_take, List.length_take,
      List.length_drop] at hhi
    rw [List.length_take, List.length_take, List.length_drop] at hlo
    have hle : p + 1 ≤ i / capacity := by
      rw [Nat.le_div_iff_mul_le pos, Nat.succ_mul]
      omega
    exact Nat.ne_of_gt hle
  calc (l.zipIdx.filter fun x ↦ x.2 / capacity = p).map Prod.fst
      = ((l.take (p * capacity) ++ ((l.drop (p * capacity)).take capacity
          ++ (l.drop (p * capacity)).drop capacity)).zipIdx.filter
            fun x ↦ x.2 / capacity = p).map Prod.fst := by rw [← hsplit]
    _ = (((l.drop (p * capacity)).take capacity).zipIdx
          (0 + (l.take (p * capacity)).length)).map Prod.fst := by
      rw [List.zipIdx_append, List.zipIdx_append, List.filter_append, List.filter_append, hbefore,
        hwithin, hafter, List.nil_append, List.append_nil]
    _ = (l.drop (p * capacity)).take capacity := List.zipIdx_map_fst _ _

/-! ## Agreement of a table with its journal -/

/-- The table holds the journal: same schema, the undeleted entries in their slots, and a counter
that is right. -/
structure Follows (capacity : Nat) (t : HeapTable) (j : Journal) : Prop where
  id_eq : t.id = UInt32.ofNat j.id
  name_eq : t.name = j.name
  schema_eq : t.schema = j.schema
  packed : Packed capacity t.pages
  log_eq : t.log = j.rows? capacity
  liveRows_eq : t.liveRows = j.liveCount
  conforms : ∀ e ∈ j.entries, e.values.map Value.type = j.schema.types

namespace Follows

variable {capacity : Nat} {t : HeapTable} {j : Journal}

theorem empty (capacity id : Nat) (name : String) (schema : Schema) :
    Follows capacity ⟨UInt32.ofNat id, name, schema, [], 0⟩ ⟨id, name, schema, []⟩ where
  id_eq := rfl
  name_eq := rfl
  schema_eq := rfl
  packed := trivial
  log_eq := rfl
  liveRows_eq := rfl
  conforms := fun _ he ↦ absurd he List.not_mem_nil

theorem length_flatten (h : Follows capacity t j) : t.pages.flatten.length = j.entries.length := by
  rw [← j.length_rows? capacity, ← h.log_eq, HeapTable.log]

theorem nextId_eq (pos : 0 < capacity) (h : Follows capacity t j) :
    t.nextId capacity = j.recordId capacity j.entries.length := by
  rw [HeapTable.nextId, h.packed.nextPlace_eq pos, h.length_flatten, h.id_eq]
  rfl

theorem append (pos : 0 < capacity) (h : Follows capacity t j) {r : Row}
    (conforms : r.Conforms t.schema) : Follows capacity (t.append capacity r) (j.append r) where
  id_eq := h.id_eq
  name_eq := h.name_eq
  schema_eq := h.schema_eq
  packed := h.packed.appendSlot pos _
  log_eq := by
    rw [Journal.rows?_append, ← h.log_eq, ← h.nextId_eq pos]
    exact log_appendSlot capacity _ t.pages
  liveRows_eq := by
    rw [Journal.liveCount_append, ← h.liveRows_eq]
    rfl
  conforms := by
    intro e he
    rcases List.mem_append.mp he with hold | hnew
    · exact h.conforms e hold
    · rw [List.mem_singleton.mp hnew]
      exact h.schema_eq ▸ conforms

theorem row?_eq (h : Follows capacity t j) (id : RecordId) :
    t.row? id = if id.slot.toNat < capacity
      then ((j.rows? capacity)[id.page.toNat * capacity + id.slot.toNat]?).join else none := by
  have hslot := h.packed.slot_eq id.page.toNat id.slot.toNat
  rw [← HeapTable.log, h.log_eq] at hslot
  have hrow : t.row? id = ((t.pages[id.page.toNat]?).bind (·[id.slot.toNat]?)).join := by
    rw [HeapTable.row?]
    cases t.pages[id.page.toNat]? <;> rfl
  rw [hrow, hslot]
  split <;> rfl

theorem vacate (h : Follows capacity t j) {id : RecordId} {row : Row}
    (hrow : t.row? id = some row) :
    Follows capacity (t.vacate id) (j.strike (id.page.toNat * capacity + id.slot.toNat)) := by
  rw [h.row?_eq] at hrow
  split at hrow
  · next hslot =>
    obtain ⟨e, he, live, -⟩ := Journal.join_getElem?_rows?.mp hrow
    refine ⟨h.id_eq, h.name_eq, h.schema_eq, h.packed.modify_set _ _ _, ?_, ?_, ?_⟩
    · rw [Journal.rows?_strike, ← h.log_eq]
      exact h.packed.flatten_modify_set _ hslot none
    · rw [Journal.liveCount_strike he live, ← h.liveRows_eq]
      rfl
    · intro e' he'
      obtain ⟨i, hi⟩ := List.mem_iff_getElem?.mp he'
      rw [Journal.strike, List.getElem?_modify] at hi
      obtain ⟨e'', he'', rfl⟩ := Option.map_eq_some_iff.mp hi
      have hold := h.conforms e'' (List.mem_of_getElem? he'')
      split <;> exact hold
  · cases hrow

theorem length_pages (pos : 0 < capacity) (h : Follows capacity t j) :
    t.pages.length = j.pageCount capacity := by
  rw [h.packed.length_eq pos, h.length_flatten]
  rfl

theorem map_rows_getElem? (pos : 0 < capacity) (h : Follows capacity t j) (p : Nat) :
    (t.pages[p]?).map Page.rows
      = if p < j.pageCount capacity then some (j.page capacity p) else none := by
  rw [h.packed.getElem?_eq, h.length_pages pos]
  split
  · rw [Option.map_some, ← HeapTable.log, h.log_eq, Journal.page,
      ← map_fst_filter_zipIdx_div pos, Page.rows, List.filterMap_map]
    rfl
  · rfl

theorem conforms_of_mem (h : Follows capacity t j) {row : Row} (hrow : row ∈ t.rows) :
    row.Conforms t.schema := by
  rw [HeapTable.rows, Page.rows, List.mem_filterMap] at hrow
  obtain ⟨slot, hslot, rfl⟩ := hrow
  obtain ⟨k, hk⟩ := List.mem_iff_getElem?.mp hslot
  rw [h.log_eq] at hk
  obtain ⟨e, he, -, rfl⟩ := Journal.join_getElem?_rows?.mp (congrArg Option.join hk)
  rw [Row.Conforms, h.schema_eq]
  exact h.conforms e (List.mem_of_getElem? he)

end Follows

end QueryEngine
