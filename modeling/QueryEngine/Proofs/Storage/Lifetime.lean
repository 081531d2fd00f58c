import QueryEngine.Proofs.Storage.Orderly
import QueryEngine.Proofs.Storage.Places

/-!
# The life of a place

A place of a table is used once. The next row goes behind the last place that was ever used, and a
place that has been emptied stays empty. So a row that is found at some time was there before, or
it is in a place that had not been used (`HeapTable.Becomes.rows`); a row that was deleted does not
come back, and no other row comes in its stead.

`HeapTable.Becomes` compares a table with what it is later on. It is reflexive and transitive, and
every call keeps it (`Heap.Orderly.becomes_call`).
-/

namespace QueryEngine

/-! ## Appending a slot -/

section

variable {capacity : Nat} {slot : Option Row} {pages : List Page}

/-- Pages stay and are only extended at their end. -/
theorem exists_page_appendSlot (capacity : Nat) (slot : Option Row) {p : Nat} {page : Page}
    (hpage : pages[p]? = some page) :
    ∃ more, (appendSlot capacity slot pages)[p]? = some (page ++ more) := by
  fun_induction appendSlot capacity slot pages generalizing p with
  | case1 => cases hpage
  | case2 last room =>
    obtain ⟨hp, rfl⟩ := List.getElem?_eq_some_iff.mp hpage
    obtain rfl : p = 0 := Nat.lt_one_iff.mp hp
    exact ⟨[slot], rfl⟩
  | case3 last full =>
    obtain ⟨hp, rfl⟩ := List.getElem?_eq_some_iff.mp hpage
    obtain rfl : p = 0 := Nat.lt_one_iff.mp hp
    exact ⟨[], congrArg some (List.append_nil last).symm⟩
  | case4 first next rest ih =>
    rcases p with _ | p
    · refine ⟨[], ?_⟩
      rw [List.append_nil]
      exact hpage
    · exact ih hpage

theorem exists_page_nextPlace (capacity : Nat) (slot : Option Row) (pages : List Page) :
    ∃ page, (appendSlot capacity slot pages)[(nextPlace capacity pages).1]? = some page
      ∧ page[(nextPlace capacity pages).2]? = some slot := by
  fun_induction appendSlot capacity slot pages with
  | case1 => exact ⟨_, rfl, rfl⟩
  | case2 last room =>
    rw [nextPlace, if_pos room]
    exact ⟨_, rfl, List.getElem?_concat_length⟩
  | case3 last full =>
    rw [nextPlace, if_neg full]
    exact ⟨_, rfl, rfl⟩
  | case4 first next rest ih => exact ih

theorem length_le_nextPlace {page : Page}
    (hpage : pages[(nextPlace capacity pages).1]? = some page) :
    page.length ≤ (nextPlace capacity pages).2 := by
  fun_induction nextPlace capacity pages with
  | case1 => cases hpage
  | case2 last room =>
    cases hpage
    exact Nat.le_refl _
  | case3 last full => cases hpage
  | case4 first next rest p s hplace ih =>
    rw [hplace] at ih
    exact ih hpage

end

/-! ## Tables over time -/

namespace HeapTable

/-- A row has been put in the place at some time, whether or not it is still there. -/
def Used (t : HeapTable) (id : RecordId) : Prop :=
  ∃ page, t.pages[id.page.toNat]? = some page ∧ id.slot.toNat < page.length

/-- The first table may be the second one later on: pages stay and become no shorter, and a row that
was not there is in a place that was not used. -/
structure Becomes (t t' : HeapTable) : Prop where
  id_eq : t'.id = t.id
  pages : ∀ (p : Nat) page, t.pages[p]? = some page →
    ∃ page', t'.pages[p]? = some page' ∧ page.length ≤ page'.length
  rows : t'.Addressable → ∀ r ∈ t'.rows, r ∈ t.rows ∨ ∃ id, r.id? = some id ∧ ¬t.Used id

namespace Becomes

variable {t t' t'' : HeapTable}

protected theorem refl (t : HeapTable) : t.Becomes t where
  id_eq := rfl
  pages := fun _ page hpage ↦ ⟨page, hpage, Nat.le_refl _⟩
  rows := fun _ _ hr ↦ Or.inl hr

theorem used (h : t.Becomes t') {id : RecordId} (used : t.Used id) : t'.Used id := by
  obtain ⟨page, hpage, hslot⟩ := used
  obtain ⟨page', hpage', hle⟩ := h.pages _ page hpage
  exact ⟨page', hpage', Nat.lt_of_lt_of_le hslot hle⟩

theorem length_le (h : t.Becomes t') : t.pages.length ≤ t'.pages.length := by
  rcases hlast : t.pages.length with _ | last
  · exact Nat.zero_le _
  · obtain ⟨page, hpage, -⟩ := h.pages last _ (List.getElem?_eq_getElem (by omega))
    exact (List.getElem?_eq_some_iff.mp hpage).1

/-- If numbers of 32 bits are enough later on, they are enough now. -/
theorem addressable (h : t.Becomes t') (addressable : t'.Addressable) : t.Addressable where
  pages := Nat.le_trans h.length_le addressable.pages
  slots := by
    intro page hpage
    obtain ⟨p, hp⟩ := List.mem_iff_getElem?.mp hpage
    obtain ⟨page', hpage', hle⟩ := h.pages p page hp
    exact Nat.le_trans hle (addressable.slots page' (List.mem_of_getElem? hpage'))

protected theorem trans (h : t.Becomes t') (h' : t'.Becomes t'') : t.Becomes t'' where
  id_eq := h'.id_eq.trans h.id_eq
  pages := by
    intro p page hpage
    obtain ⟨page', hpage', hle⟩ := h.pages p page hpage
    obtain ⟨page'', hpage'', hle'⟩ := h'.pages p page' hpage'
    exact ⟨page'', hpage'', Nat.le_trans hle hle'⟩
  rows := by
    intro addressable r hr
    rcases h'.rows addressable r hr with hr' | ⟨id, hid, unused⟩
    · exact h.rows (h'.addressable addressable) r hr'
    · exact Or.inr ⟨id, hid, fun used ↦ unused (h.used used)⟩

end Becomes

variable {t : HeapTable}

def stored (capacity : Nat) (t : HeapTable) (r : Row) : Row :=
  { r with id? := some (t.nextId capacity) }

theorem log_append (capacity : Nat) (t : HeapTable) (r : Row) :
    (t.append capacity r).log = t.log ++ [some (t.stored capacity r)] :=
  log_appendSlot capacity _ t.pages

theorem rows_append (capacity : Nat) (t : HeapTable) (r : Row) :
    (t.append capacity r).rows = t.rows ++ [t.stored capacity r] := by
  rw [rows, log_append, Page.rows, List.filterMap_append]
  rfl

theorem becomes_append (capacity : Nat) (t : HeapTable) (r : Row) :
    t.Becomes (t.append capacity r) where
  id_eq := rfl
  pages := by
    intro p page hpage
    obtain ⟨more, hmore⟩ := exists_page_appendSlot capacity (some (t.stored capacity r)) hpage
    exact ⟨_, hmore, List.length_append ▸ Nat.le_add_right _ _⟩
  rows := by
    intro addressable r' hr'
    rw [rows_append, List.mem_append, List.mem_singleton] at hr'
    rcases hr' with hr' | rfl
    · exact Or.inl hr'
    · refine Or.inr ⟨_, rfl, ?_⟩
      rintro ⟨page, hpage, hslot⟩
      -- The numbers of the next place are not cut off, as the place is one of the table afterwards.
      obtain ⟨page', hpage', hslot'⟩ :=
        exists_page_nextPlace capacity (some (t.stored capacity r)) t.pages
      have hp := Nat.lt_of_lt_of_le (List.getElem?_eq_some_iff.mp hpage').1 addressable.pages
      have hs := Nat.lt_of_lt_of_le (List.getElem?_eq_some_iff.mp hslot').1
        (addressable.slots page' (List.mem_of_getElem? hpage'))
      rw [nextId, UInt32.toNat_ofNat', Nat.mod_eq_of_lt hp] at hpage
      rw [nextId, UInt32.toNat_ofNat', Nat.mod_eq_of_lt hs] at hslot
      exact Nat.not_lt_of_le (length_le_nextPlace hpage) hslot

theorem becomes_vacate (t : HeapTable) (id : RecordId) : t.Becomes (t.vacate id) where
  id_eq := rfl
  pages := by
    intro p page hpage
    rw [vacate, List.getElem?_modify, hpage]
    refine ⟨_, rfl, ?_⟩
    split
    · exact Nat.le_of_eq List.length_set.symm
    · exact Nat.le_refl _
  rows := by
    intro _ r hr
    obtain ⟨p, s, page, hpage, hslot⟩ := exists_slot hr
    rw [vacate, List.getElem?_modify] at hpage
    obtain ⟨page', hpage', rfl⟩ := Option.map_eq_some_iff.mp hpage
    refine Or.inl (mem_rows_of_slot hpage' (s := s) ?_)
    split at hslot
    · rw [List.getElem?_set] at hslot
      split at hslot
      · split at hslot
        · cases hslot
        · cases hslot
      · exact hslot
    · exact hslot

end HeapTable

namespace Heap

/-- A table stays under its name, whatever is called. -/
theorem Orderly.becomes_call {h : Heap} (orderly : h.Orderly) {name : String} {t : HeapTable}
    (ht : h.table name = .ok t) (c : Call) :
    ∃ t', (h.call c).2.table name = .ok t' ∧ t.Becomes t' := by
  rcases h.call_cases c with hsame | ⟨_, _, -, -, hnew⟩ | ⟨_, r, t₀, -, ht₀, -, hnew⟩
    | ⟨_, id, t₀, _, -, -, ht₀, -, hnew⟩
  · exact ⟨t, hsame.symm ▸ ht, .refl t⟩
  · refine ⟨t, ?_, .refl t⟩
    rw [hnew, table_eq_ok_iff, List.find?_append, table_eq_ok_iff.mp ht]
    rfl
  · rw [hnew]
    exact exists_table_update orderly ht (mem_of_table ht₀) HeapTable.Becomes.refl
      (t₀.becomes_append h.capacity r) rfl rfl
  · rw [hnew]
    exact exists_table_update orderly ht (mem_of_tableById ht₀) HeapTable.Becomes.refl
      (t₀.becomes_vacate id) rfl rfl

end Heap

end QueryEngine
