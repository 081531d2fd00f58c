import QueryEngine.Proofs.Storage.Reachable

/-!
# Ledgers

A ledger has nothing but the journals of its tables: no pages, no counters, no stored record ids. It
takes the same calls as a heap and answers them in plain numbers. What a call does can be read off
its definition: a table gets the next number, a row goes to the end of the journal, and a deletion
marks the entry that has the given place.

## Bounds

Table ids and the two numbers of a place have 32 bits, and the heap does not guard against running
out of them. `Ledger.Small` keeps a run below these limits. It is asked of the last state only,
since tables and journals never shrink (`Ledger.small_of_small_call`).
-/

namespace QueryEngine

/-! ## Ledgers -/

/-- The journals of all tables, in the order of their creation. -/
structure Ledger where
  /-- The number of slots of a page. -/
  capacity : Nat
  journals : List Journal

/-- The undeleted entry at a place. -/
def Journal.position? (capacity : Nat) (j : Journal) (page slot : Nat) : Option Nat :=
  (List.range j.entries.length).find? fun k ↦
    k / capacity = page && k % capacity = slot && j.entries[k]?.any fun e ↦ !e.deleted

namespace Ledger

inductive Answer where
  | created (id : Nat)
  | stored (table page slot : Nat)
  | removed
deriving DecidableEq

/-- The ledger without tables. A page has at least one slot. -/
def ofCapacity (capacity : Nat) : Ledger :=
  ⟨max capacity 1, []⟩

def find? (l : Ledger) (name : String) : Option Journal :=
  l.journals.find? (·.name = name)

/-- The table and the position of the undeleted entry that has a given record id. -/
def locate? (l : Ledger) (id : RecordId) : Option (Nat × Nat) :=
  match l.journals.find? (·.id = id.table.toNat) with
  | none => none
  | some j => (j.position? l.capacity id.page.toNat id.slot.toNat).map fun k ↦ (j.id, k)

def update (l : Ledger) (id : Nat) (f : Journal → Journal) : Ledger :=
  { l with journals := l.journals.map fun j ↦ if j.id = id then f j else j }

/-- The answer to a call, unless it fails, and the ledger after it. -/
def call (l : Ledger) : Heap.Call → Option Answer × Ledger
  | .create name schema =>
    match l.find? name with
    | some _ => (none, l)
    | none =>
      (some (.created (l.journals.length + 1)),
        { l with journals := l.journals ++ [⟨l.journals.length + 1, name, schema, []⟩] })
  | .insert name r =>
    match l.find? name with
    | none => (none, l)
    | some j =>
      if r.Conforms j.schema then
        (some (.stored j.id (j.entries.length / l.capacity) (j.entries.length % l.capacity)),
          l.update j.id (·.append r))
      else (none, l)
  | .delete r =>
    match r.id?.bind l.locate? with
    | none => (none, l)
    | some (id, k) => (some .removed, l.update id (·.strike k))

def run (l : Ledger) : List Heap.Call → List (Option Answer) × Ledger
  | [] => ([], l)
  | c :: rest => ((l.call c).1 :: ((l.call c).2.run rest).1, ((l.call c).2.run rest).2)

/-- Few enough tables and rows for ids of 32 bits. -/
def Small (l : Ledger) : Prop :=
  l.journals.length < 2 ^ 32 - 1 ∧ ∀ j ∈ l.journals, j.entries.length < 2 ^ 32

instance (l : Ledger) : Decidable l.Small :=
  inferInstanceAs (Decidable (_ ∧ _))

/-- The place that an answer hands out. -/
def Answer.place? : Option Answer → Option (Nat × Nat × Nat)
  | some (.stored table page slot) => some (table, page, slot)
  | _ => none

theorem run_concat (l : Ledger) (calls : List Heap.Call) (c : Heap.Call) :
    l.run (calls ++ [c])
      = ((l.run calls).1 ++ [((l.run calls).2.call c).1], ((l.run calls).2.call c).2) := by
  induction calls generalizing l with
  | nil => rfl
  | cons c' rest ih => rw [List.cons_append, run, ih, run, List.cons_append]

theorem small_of_small_update {l : Ledger} {id : Nat} {f : Journal → Journal}
    (grows : ∀ j, j.entries.length ≤ (f j).entries.length) (h : (l.update id f).Small) :
    l.Small := by
  obtain ⟨htables, hrows⟩ := h
  refine ⟨by rwa [update, List.length_map] at htables, fun j hj ↦ ?_⟩
  have hmap := hrows _ (List.mem_map_of_mem hj)
  split at hmap
  · exact Nat.lt_of_le_of_lt (grows j) hmap
  · exact hmap

theorem small_of_small_call {l : Ledger} {c : Heap.Call} (h : (l.call c).2.Small) : l.Small := by
  cases c with
  | create name schema =>
    rw [call] at h
    split at h
    · exact h
    · obtain ⟨htables, hrows⟩ := h
      rw [List.length_append] at htables
      exact ⟨by omega, fun j hj ↦ hrows j (List.mem_append_left _ hj)⟩
  | insert name r =>
    rw [call] at h
    split at h
    · exact h
    · split at h
      · exact small_of_small_update (fun j ↦ by simp [Journal.append]) h
      · exact h
  | delete r =>
    rw [call] at h
    split at h
    · exact h
    · exact small_of_small_update (fun j ↦ by simp [Journal.strike]) h

end Ledger

/-! ## Places and positions -/

/-- An undeleted entry has one place, and a place one position. -/
theorem Journal.position?_eq {capacity : Nat} (pos : 0 < capacity) (j : Journal)
    (page slot : Nat) :
    j.position? capacity page slot
      = if slot < capacity
        then ((j.rows? capacity)[page * capacity + slot]?).join.map
          fun _ ↦ page * capacity + slot
        else none := by
  -- Quotient and remainder tell the position, so there is one candidate for it.
  have hback : ∀ k, k / capacity = page → k % capacity = slot → k = page * capacity + slot := by
    intro k hpage hslot
    rw [← hpage, ← hslot, Nat.mul_comm, Nat.div_add_mod]
  by_cases hslot : slot < capacity
  · rw [if_pos hslot]
    have hdiv : (page * capacity + slot) / capacity = page := by
      rw [Nat.mul_comm, Nat.mul_add_div pos, Nat.div_eq_of_lt hslot, Nat.add_zero]
    have hmod : (page * capacity + slot) % capacity = slot := by
      rw [Nat.mul_comm, Nat.mul_add_mod, Nat.mod_eq_of_lt hslot]
    cases hrow : ((j.rows? capacity)[page * capacity + slot]?).join with
    | some row =>
      obtain ⟨e, he, live, -⟩ := join_getElem?_rows?.mp hrow
      obtain ⟨hlt, -⟩ := List.getElem?_eq_some_iff.mp he
      rw [Option.map_some, position?, List.find?_range_eq_some]
      refine ⟨by simp [hdiv, hmod, he, live], List.mem_range.mpr hlt, fun k hk ↦ ?_⟩
      have hne : ¬(k / capacity = page ∧ k % capacity = slot) := fun h ↦
        Nat.ne_of_lt hk (hback k h.1 h.2)
      by_cases hkpage : k / capacity = page
      · have hkslot : k % capacity ≠ slot := fun h ↦ hne ⟨hkpage, h⟩
        simp [hkslot]
      · simp [hkpage]
    | none =>
      rw [Option.map_none, position?, List.find?_eq_none]
      intro k _ hk
      simp only [Bool.and_eq_true, decide_eq_true_eq, Option.any_eq_true] at hk
      obtain ⟨⟨hkpage, hkslot⟩, e, he, live⟩ := hk
      rw [hback k hkpage hkslot] at he
      have hsome : ((j.rows? capacity)[page * capacity + slot]?).join
          = some ⟨e.values, some (j.recordId capacity (page * capacity + slot))⟩ :=
        join_getElem?_rows?.mpr ⟨e, he, by simpa using live, rfl⟩
      rw [hrow] at hsome
      cases hsome
  · rw [if_neg hslot, position?, List.find?_eq_none]
    intro k _ hk
    simp only [Bool.and_eq_true, decide_eq_true_eq] at hk
    exact hslot (hk.1.2 ▸ Nat.mod_lt k pos)

theorem Follows.position?_eq {capacity : Nat} {t : HeapTable} {j : Journal} (pos : 0 < capacity)
    (h : Follows capacity t j) (id : RecordId) :
    j.position? capacity id.page.toNat id.slot.toNat
      = (t.row? id).map fun _ ↦ id.page.toNat * capacity + id.slot.toNat := by
  rw [j.position?_eq pos, h.row?_eq]
  split <;> rfl

end QueryEngine
