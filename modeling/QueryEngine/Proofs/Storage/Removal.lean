import QueryEngine.Proofs.Storage.Orderly
import QueryEngine.Proofs.Storage.Places

/-!
# Removing rows

`HeapTable.without` empties the slots of given rows. It is what deleting the rows one after the
other comes to (`Heap.Locates.delete`): a row is found under its record id as long as it has not
been deleted, and deleting it touches no slot but its own.

`Heap.Loses` says what is to be seen of it: the rows are gone, all others are where they were, the
pages and the other tables are as before.

Rows of any table may be deleted one after the other (`Heap.deleteAll`), and their places are empty
then (`Heap.vacant_of_deleteAll`).
-/

namespace QueryEngine

/-! ## A table without some of its rows -/

namespace HeapTable

def without (t : HeapTable) (gone : List Row) : HeapTable :=
  { t with
    pages := t.pages.map fun page ↦ page.map fun slot ↦ slot.filter (· ∉ gone)
    liveRows := t.liveRows - gone.length }

variable {t : HeapTable} {gone : List Row} {r : Row} {id : RecordId}

theorem without_nil (t : HeapTable) : t.without [] = t := by
  have hslot : ∀ slot : Option Row, slot.filter (· ∉ []) = slot := by
    rintro (_ | r)
    · rfl
    · rfl
  have hpages : (t.pages.map fun page ↦ page.map fun slot ↦ slot.filter (· ∉ [])) = t.pages := by
    simp only [hslot, List.map_id']
  rw [without, hpages]
  rfl

theorem getElem?_pages_without (t : HeapTable) (gone : List Row) (p : Nat) :
    (t.without gone).pages[p]?
      = t.pages[p]?.map fun page ↦ page.map fun slot ↦ slot.filter (· ∉ gone) :=
  List.getElem?_map

theorem length_pages_without (t : HeapTable) (gone : List Row) :
    (t.without gone).pages.length = t.pages.length :=
  List.length_map _

theorem rows_page_without (page : Page) (gone : List Row) :
    Page.rows (page.map fun slot ↦ slot.filter (· ∉ gone))
      = (Page.rows page).filter (· ∉ gone) := by
  rw [Page.rows, Page.rows, List.filterMap_map, List.filter_filterMap]
  refine List.filterMap_congr fun slot _ ↦ ?_
  rcases slot with _ | r
  · rfl
  · simp [Option.filter]

theorem rows_without (t : HeapTable) (gone : List Row) :
    (t.without gone).rows = t.rows.filter (· ∉ gone) := by
  rw [rows_eq, rows_eq, List.filter_flatten, without, List.map_map, List.map_map]
  congr 1
  exact List.map_congr_left fun page _ ↦ rows_page_without page gone

theorem row?_without (t : HeapTable) (gone : List Row) (id : RecordId) :
    (t.without gone).row? id = (t.row? id).filter (· ∉ gone) := by
  rw [row?, row?, getElem?_pages_without]
  rcases t.pages[id.page.toNat]? with _ | page
  · rfl
  · simp only [Option.map_some, List.getElem?_map]
    rcases page[id.slot.toNat]? with _ | slot <;> rfl

theorem Placed.without (placed : t.Placed) (gone : List Row) : (t.without gone).Placed := by
  intro p s page r hpage hslot
  rw [getElem?_pages_without] at hpage
  obtain ⟨page', hpage', rfl⟩ := Option.map_eq_some_iff.mp hpage
  rw [List.getElem?_map] at hslot
  obtain ⟨slot, hslot', hfilter⟩ := Option.map_eq_some_iff.mp hslot
  obtain ⟨rfl, -⟩ := Option.filter_eq_some_iff.mp hfilter
  exact placed p s page' r hpage' hslot'

theorem Addressable.without (addressable : t.Addressable) (gone : List Row) :
    (t.without gone).Addressable where
  pages := by
    rw [length_pages_without]
    exact addressable.pages
  slots := by
    intro page hpage
    obtain ⟨page', hpage', rfl⟩ := List.mem_map.mp hpage
    rw [List.length_map]
    exact addressable.slots page' hpage'

/-- Emptying the slot that a row is kept in removes the row and nothing else. -/
theorem vacate_without (placed : t.Placed) (addressable : t.Addressable) (hr : r ∈ t.rows)
    (hid : r.id? = some id) (gone : List Row) :
    (t.without gone).vacate id = t.without (gone ++ [r]) := by
  obtain ⟨id₀, page, hid₀, -, hpage, hslot⟩ := placed.slot_of_mem addressable hr
  obtain rfl := Option.some.inj (hid₀.symm.trans hid)
  have hpages : (t.without gone).pages.modify id₀.page.toNat (·.set id₀.slot.toNat none)
      = (t.without (gone ++ [r])).pages := by
    apply List.ext_getElem?
    intro p
    rw [List.getElem?_modify, getElem?_pages_without, getElem?_pages_without]
    rcases hpage' : t.pages[p]? with _ | page'
    · rfl
    · refine congrArg some (List.ext_getElem? fun s ↦ ?_)
      by_cases hplace : id₀.page.toNat = p ∧ id₀.slot.toNat = s
      · obtain ⟨rfl, rfl⟩ := hplace
        obtain rfl := Option.some.inj (hpage.symm.trans hpage')
        obtain ⟨hs, hr⟩ := List.getElem?_eq_some_iff.mp hslot
        simp [hs, hr, Option.filter]
      · -- The slot is another one, so the row in it is another one.
        have hslots : (page'.map fun slot ↦ slot.filter (· ∉ gone))[s]?
            = (page'.map fun slot ↦ slot.filter (· ∉ gone ++ [r]))[s]? := by
          rw [List.getElem?_map, List.getElem?_map]
          rcases hslot' : page'[s]? with _ | _ | r'
          · rfl
          · rfl
          · have hne : r' ≠ r := by
              rintro rfl
              exact hplace (placed.slot_unique addressable hpage hslot hpage' hslot')
            simp [Option.filter, hne]
        rw [← hslots]
        split
        · next hp =>
          have hs : id₀.slot.toNat ≠ s := fun hs ↦ hplace ⟨hp, hs⟩
          exact List.getElem?_set_ne hs
        · rfl
  rw [vacate, hpages]
  simp [without, Nat.sub_sub]

end HeapTable

/-! ## Heaps that tell rows by their record ids -/

namespace Heap

/-- The heap is orderly, and record ids tell the rows of a table, which conform to its schema. -/
structure Locates (h : Heap) (name : String) (t : HeapTable) : Prop where
  orderly : h.Orderly
  table_eq : h.table name = .ok t
  placed : t.Placed
  addressable : t.Addressable
  conforms : ∀ r ∈ t.rows, r.Conforms t.schema

/-- Numbers of 32 bits are enough for tables, pages and slots. -/
theorem Reachable.locates {h : Heap} (reachable : h.Reachable) {name : String} {t : HeapTable}
    (ht : h.table name = .ok t) (few : h.tables.length ≤ 2 ^ 32) (addressable : t.Addressable) :
    h.Locates name t := by
  have hmem := mem_of_table ht
  obtain ⟨j, follows⟩ := reachable.sound t hmem
  exact ⟨reachable.orderly few, ht, reachable.sound.placed hmem, addressable,
    fun r hr ↦ follows.conforms_of_mem hr⟩

namespace Locates

variable {h : Heap} {name : String} {t : HeapTable} {r : Row}

theorem mem (locates : h.Locates name t) : t ∈ h.tables :=
  mem_of_table locates.table_eq

theorem table_without (locates : h.Locates name t) (gone : List Row) :
    (h.update (t.without gone)).table name = .ok (t.without gone) :=
  table_update locates.orderly locates.table_eq rfl rfl

theorem without (locates : h.Locates name t) (gone : List Row) :
    (h.update (t.without gone)).Locates name (t.without gone) where
  orderly := locates.orderly.update locates.mem rfl rfl
  table_eq := locates.table_without gone
  placed := locates.placed.without gone
  addressable := locates.addressable.without gone
  conforms := by
    intro r hr
    rw [HeapTable.rows_without] at hr
    exact locates.conforms r (List.mem_filter.mp hr).1

theorem delete (locates : h.Locates name t) (hr : r ∈ t.rows) {gone : List Row} (hgone : r ∉ gone) :
    (h.update (t.without gone)).delete r = .ok (h.update (t.without (gone ++ [r]))) := by
  obtain ⟨id, hid, htable, hrow⟩ := locates.placed.row?_of_mem locates.addressable hr
  have hlookup : (h.update (t.without gone)).tableById id.table = .ok (t.without gone) := by
    rw [htable]
    exact tableById_update locates.orderly locates.mem rfl rfl
  have hrow' : (t.without gone).row? id = some r := by
    rw [HeapTable.row?_without, hrow]
    simp [Option.filter, hgone]
  rw [Heap.delete, hid]
  simp only [hlookup, hrow']
  rw [HeapTable.vacate_without locates.placed locates.addressable hr hid, update_update]
  rfl

theorem readPage (locates : h.Locates name t) (gone : List Row) {p : Nat} {page : Page}
    (hpage : t.pages[p]? = some page) :
    (h.update (t.without gone)).readPage name (UInt32.ofNat p)
      = .ok ((Page.rows page).filter (· ∉ gone)) := by
  obtain ⟨hp, -⟩ := List.getElem?_eq_some_iff.mp hpage
  rw [Heap.readPage, locates.table_without gone]
  have few := Nat.lt_of_lt_of_le hp locates.addressable.pages
  simp only [UInt32.toNat_ofNat', Nat.mod_eq_of_lt few,
    HeapTable.getElem?_pages_without, hpage, Option.map_some, HeapTable.rows_page_without]

end Locates

/-! ## What is to be seen of a removal -/

/-- Rows of a table have been removed, and nothing else has changed: all other rows are where they
were, and there are as many pages as before. -/
structure Loses (h h' : Heap) (name : String) (t : HeapTable) (gone : List Row) : Prop where
  table : ∃ t', h'.table name = .ok t' ∧ t'.id = t.id ∧ t'.schema = t.schema
    ∧ t'.pages.length = t.pages.length ∧ t'.rows = t.rows.filter (· ∉ gone)
    ∧ ∀ id r, t'.row? id = some r ↔ t.row? id = some r ∧ r ∉ gone
  others : ∀ name', name' ≠ name → h'.table name' = h.table name'

theorem Locates.loses {h : Heap} {name : String} {t : HeapTable} (locates : h.Locates name t)
    (gone : List Row) : h.Loses (h.update (t.without gone)) name t gone where
  table := by
    refine ⟨t.without gone, locates.table_without gone, rfl, rfl, t.length_pages_without gone,
      t.rows_without gone, fun id r ↦ ?_⟩
    rw [HeapTable.row?_without, Option.filter_eq_some_iff, decide_eq_true_eq]
  others := by
    intro name' hne
    refine table_update_of_ne locates.orderly locates.mem rfl rfl ?_
    rwa [name_of_table locates.table_eq]

end Heap

/-! ## Places that have been emptied -/

/-- Emptying a place leaves all others as they are. -/
theorem HeapTable.row?_vacate (t : HeapTable) (id id' : RecordId) :
    (t.vacate id).row? id'
      = if id.page = id'.page ∧ id.slot = id'.slot then none else t.row? id' := by
  have hpages : (t.vacate id).pages[id'.page.toNat]?
      = t.pages[id'.page.toNat]?.map fun page ↦
          if id.page = id'.page then page.set id.slot.toNat none else page := by
    rw [vacate, List.getElem?_modify]
    simp only [UInt32.toNat_inj]
    rfl
  rw [row?, row?, hpages]
  rcases t.pages[id'.page.toNat]? with _ | page
  · simp
  by_cases hpage : id.page = id'.page
  · simp only [Option.map_some, hpage, if_true, true_and]
    by_cases hslot : id.slot = id'.slot
    · simp only [hslot, if_true, List.getElem?_set]
      split <;> rfl
    · have hne : id.slot.toNat ≠ id'.slot.toNat := hslot ∘ UInt32.toNat_inj.mp
      simp only [hslot, if_false, List.getElem?_set_ne hne]
  · simp only [Option.map_some, hpage, if_false, false_and]

namespace Heap

variable {h h' : Heap} {id : RecordId} {r : Row}

/-- No row is kept at a place of a table of the heap. -/
def Vacant (h : Heap) (id : RecordId) : Prop :=
  ∃ t, h.tableById id.table = .ok t ∧ t.row? id = none

theorem vacant_of_delete (orderly : h.Orderly) (deleted : h.delete r = .ok h') :
    ∃ id, r.id? = some id ∧ h'.Vacant id := by
  obtain ⟨id, t, row, hid, ht, -, rfl⟩ := delete_eq_ok_iff.mp deleted
  refine ⟨id, hid, t.vacate id, ?_, ?_⟩
  · rw [← id_of_tableById ht]
    exact tableById_update orderly (mem_of_tableById ht) rfl rfl
  · rw [HeapTable.row?_vacate, if_pos ⟨rfl, rfl⟩]

theorem Vacant.delete (vacant : h.Vacant id) (orderly : h.Orderly)
    (deleted : h.delete r = .ok h') : h'.Vacant id := by
  obtain ⟨t, ht, hnone⟩ := vacant
  obtain ⟨id', t', row, -, ht', -, rfl⟩ := delete_eq_ok_iff.mp deleted
  have hmem := mem_of_tableById ht
  have hmem' := mem_of_tableById ht'
  rw [Vacant, ← id_of_tableById ht]
  by_cases heq : t.id = t'.id
  · obtain rfl := orderly.eq_of_id_eq hmem' hmem heq
    refine ⟨t.vacate id', tableById_update orderly hmem rfl rfl, ?_⟩
    rw [HeapTable.row?_vacate, hnone, ite_self]
  · exact ⟨t, tableById_update_of_ne orderly hmem' rfl rfl hmem heq, hnone⟩

/-! ## Deleting rows one after the other -/

def deleteAll (h : Heap) (rows : List Row) : Except StorageError Heap :=
  rows.foldlM delete h

variable {rows : List Row}

theorem deleteAll_cons_eq_ok_iff :
    h.deleteAll (r :: rows) = .ok h' ↔ ∃ h₁, h.delete r = .ok h₁ ∧ h₁.deleteAll rows = .ok h' := by
  have hcons : h.deleteAll (r :: rows) = (h.delete r).bind (·.deleteAll rows) := List.foldlM_cons
  rw [hcons]
  rcases h.delete r with e | h₁
  · simp [Except.bind]
  · simp [Except.bind]

theorem Orderly.delete (orderly : h.Orderly) (deleted : h.delete r = .ok h') : h'.Orderly := by
  obtain ⟨id, t, row, -, ht, -, rfl⟩ := delete_eq_ok_iff.mp deleted
  exact orderly.update (mem_of_tableById ht) rfl rfl

theorem Vacant.deleteAll (vacant : h.Vacant id) (orderly : h.Orderly)
    (deleted : h.deleteAll rows = .ok h') : h'.Vacant id := by
  induction rows generalizing h with
  | nil =>
    cases deleted
    exact vacant
  | cons r rows ih =>
    obtain ⟨h₁, hr, hrows⟩ := deleteAll_cons_eq_ok_iff.mp deleted
    exact ih (vacant.delete orderly hr) (orderly.delete hr) hrows

/-- Deleting rows one after the other leaves the places of all of them vacant. -/
theorem vacant_of_deleteAll (orderly : h.Orderly) (deleted : h.deleteAll rows = .ok h') :
    ∀ r ∈ rows, ∃ id, r.id? = some id ∧ h'.Vacant id := by
  induction rows generalizing h with
  | nil =>
    intro r hr
    cases hr
  | cons r rows ih =>
    obtain ⟨h₁, hr, hrows⟩ := deleteAll_cons_eq_ok_iff.mp deleted
    have orderly₁ := orderly.delete hr
    intro r' hr'
    rcases List.mem_cons.mp hr' with rfl | hr'
    · obtain ⟨id, hid, vacant⟩ := vacant_of_delete orderly hr
      exact ⟨id, hid, vacant.deleteAll orderly₁ hrows⟩
    · exact ih orderly₁ hrows r' hr'

end Heap

end QueryEngine
