import Mathlib.Data.List.Nodup
import QueryEngine.Proofs.Storage.Reachable

/-!
# The places of rows

A stored row carries the record id of the slot that it is kept in (`HeapTable.Placed`). Page and
slot numbers have 32 bits, so the record id tells the slot as long as the table has no more pages,
and a page no more slots, than there are numbers (`HeapTable.Addressable`). No two rows of such a
table are equal then, and they stand in the order of their places (`Row.Before`).
-/

namespace QueryEngine

/-! ## The order of places -/

namespace Row

/-- The row is kept on an earlier page than the other one, or earlier on the same page. -/
def Before (r r' : Row) : Prop :=
  ∃ id id', r.id? = some id ∧ r'.id? = some id'
    ∧ (id.page < id'.page ∨ id.page = id'.page ∧ id.slot < id'.slot)

/-- The row is kept on the page of a given number. -/
def OnPage (r : Row) (p : Nat) : Prop :=
  ∃ id, r.id? = some id ∧ id.page.toNat = p

variable {r r' r'' : Row} {p p' : Nat}

theorem Before.id?_ne (h : r.Before r') : r.id? ≠ r'.id? := by
  obtain ⟨id, id', hid, hid', hbefore⟩ := h
  rw [hid, hid']
  rintro heq
  obtain rfl := Option.some.inj heq
  rcases hbefore with hpage | ⟨-, hslot⟩
  · exact UInt32.lt_irrefl _ hpage
  · exact UInt32.lt_irrefl _ hslot

theorem Before.ne (h : r.Before r') : r ≠ r' :=
  fun heq ↦ h.id?_ne (congrArg Row.id? heq)

theorem OnPage.before (h : r.OnPage p) (h' : r'.OnPage p') (hlt : p < p') : r.Before r' := by
  obtain ⟨id, hid, rfl⟩ := h
  obtain ⟨id', hid', rfl⟩ := h'
  exact ⟨id, id', hid, hid', Or.inl (UInt32.lt_iff_toNat_lt.mpr hlt)⟩

theorem OnPage.unique (h : r.OnPage p) (h' : r.OnPage p') : p = p' := by
  obtain ⟨id, hid, rfl⟩ := h
  obtain ⟨id', hid', rfl⟩ := h'
  rw [Option.some.inj (hid.symm.trans hid')]

/-- Rows in the order of their places are different. -/
theorem nodup_of_pairwise_before {rows : List Row} (h : rows.Pairwise Before) : rows.Nodup :=
  h.imp Before.ne

end Row

/-! ## Record ids of stored rows -/

/-- Every row carries the record id of the slot that it is kept in. -/
def HeapTable.Placed (t : HeapTable) : Prop :=
  ∀ (p s : Nat) page r, t.pages[p]? = some page → page[s]? = some (some r) →
    r.id? = some ⟨t.id, UInt32.ofNat p, UInt32.ofNat s⟩

theorem Follows.placed {capacity : Nat} (pos : 0 < capacity) {t : HeapTable} {j : Journal}
    (follows : Follows capacity t j) : t.Placed := by
  intro p s page r hpage hslot
  have hlog := follows.packed.slot_eq p s
  rw [hpage, Option.bind_some, hslot, ← HeapTable.log, follows.log_eq] at hlog
  split at hlog
  · next hlt =>
    obtain ⟨e, -, -, rfl⟩ := Journal.join_getElem?_rows?.mp (congrArg Option.join hlog.symm)
    have hdiv : (p * capacity + s) / capacity = p := by
      rw [Nat.mul_comm, Nat.mul_add_div pos, Nat.div_eq_of_lt hlt, Nat.add_zero]
    have hmod : (p * capacity + s) % capacity = s := by
      rw [Nat.mul_comm, Nat.mul_add_mod, Nat.mod_eq_of_lt hlt]
    simp only [Journal.recordId, hdiv, hmod, follows.id_eq]
  · cases hlog

theorem Heap.Sound.placed {h : Heap} (sound : h.Sound) {t : HeapTable} (ht : t ∈ h.tables) :
    t.Placed := by
  obtain ⟨j, follows⟩ := sound t ht
  exact follows.placed h.capacity_pos

/-! ## Places that 32 bits can tell -/

namespace HeapTable

/-- The table has no more pages, and no page has more slots, than there are numbers for them. -/
structure Addressable (t : HeapTable) : Prop where
  pages : t.pages.length ≤ 2 ^ 32
  slots : ∀ page ∈ t.pages, page.length ≤ 2 ^ 32

variable {t : HeapTable} {p p' s s' : Nat} {page page' : Page} {r : Row}

theorem rows_eq (t : HeapTable) : t.rows = (t.pages.map Page.rows).flatten := by
  rw [rows, log, Page.rows, List.filterMap_flatten]
  rfl

theorem mem_rows_iff : r ∈ Page.rows page ↔ ∃ s : Nat, page[s]? = some (some r) := by
  rw [Page.rows, List.mem_filterMap]
  constructor
  · rintro ⟨slot, hslot, rfl⟩
    exact List.mem_iff_getElem?.mp hslot
  · rintro ⟨s, hs⟩
    exact ⟨some r, List.mem_of_getElem? hs, rfl⟩

theorem mem_rows_of_slot (hpage : t.pages[p]? = some page) (hslot : page[s]? = some (some r)) :
    r ∈ t.rows := by
  rw [rows_eq, List.mem_flatten]
  exact ⟨_, List.mem_map_of_mem (List.mem_of_getElem? hpage), mem_rows_iff.mpr ⟨s, hslot⟩⟩

theorem exists_slot (hr : r ∈ t.rows) :
    ∃ (p s : Nat) (page : Page), t.pages[p]? = some page ∧ page[s]? = some (some r) := by
  rw [rows_eq, List.mem_flatten] at hr
  obtain ⟨rows, hrows, hr⟩ := hr
  obtain ⟨page, hpage, rfl⟩ := List.mem_map.mp hrows
  obtain ⟨p, hp⟩ := List.mem_iff_getElem?.mp hpage
  obtain ⟨s, hs⟩ := mem_rows_iff.mp hr
  exact ⟨p, s, page, hp, hs⟩

theorem Placed.onPage (placed : t.Placed) (few : t.pages.length ≤ 2 ^ 32)
    (hpage : t.pages[p]? = some page) (hr : r ∈ Page.rows page) : r.OnPage p := by
  obtain ⟨s, hs⟩ := mem_rows_iff.mp hr
  obtain ⟨hlt, -⟩ := List.getElem?_eq_some_iff.mp hpage
  exact ⟨_, placed p s page r hpage hs,
    (UInt32.toNat_ofNat' ..).trans (Nat.mod_eq_of_lt (Nat.lt_of_lt_of_le hlt few))⟩

theorem Placed.pairwise_page (placed : t.Placed) (hpage : t.pages[p]? = some page)
    (short : page.length ≤ 2 ^ 32) : (Page.rows page).Pairwise Row.Before := by
  rw [Page.rows, List.pairwise_filterMap, List.pairwise_iff_getElem]
  intro s s' hs hs' hlt r hr r' hr'
  have hid := placed p s page r hpage (hr ▸ List.getElem?_eq_getElem hs)
  have hid' := placed p s' page r' hpage (hr' ▸ List.getElem?_eq_getElem hs')
  refine ⟨_, _, hid, hid', Or.inr ⟨rfl, ?_⟩⟩
  rw [UInt32.lt_iff_toNat_lt, UInt32.toNat_ofNat', UInt32.toNat_ofNat',
    Nat.mod_eq_of_lt (Nat.lt_of_lt_of_le hs short), Nat.mod_eq_of_lt (Nat.lt_of_lt_of_le hs' short)]
  exact hlt

/-- The rows of a table stand in the order of their places. -/
theorem Placed.pairwise_rows (placed : t.Placed) (addressable : t.Addressable) :
    t.rows.Pairwise Row.Before := by
  rw [rows_eq, List.pairwise_flatten, List.pairwise_map, List.pairwise_iff_getElem]
  constructor
  · intro rows hrows
    obtain ⟨page, hpage, rfl⟩ := List.mem_map.mp hrows
    obtain ⟨p, hp⟩ := List.mem_iff_getElem?.mp hpage
    exact placed.pairwise_page hp (addressable.slots page hpage)
  · intro p p' hp hp' hlt r hr r' hr'
    have hpage := placed.onPage addressable.pages (List.getElem?_eq_getElem hp) hr
    have hpage' := placed.onPage addressable.pages (List.getElem?_eq_getElem hp') hr'
    exact hpage.before hpage' hlt

theorem Placed.nodup_rows (placed : t.Placed) (addressable : t.Addressable) : t.rows.Nodup :=
  Row.nodup_of_pairwise_before (placed.pairwise_rows addressable)

/-- A row is kept in one slot only. -/
theorem Placed.slot_unique (placed : t.Placed) (addressable : t.Addressable)
    (hpage : t.pages[p]? = some page) (hslot : page[s]? = some (some r))
    (hpage' : t.pages[p']? = some page') (hslot' : page'[s']? = some (some r)) :
    p = p' ∧ s = s' := by
  have hid := placed p s page r hpage hslot
  rw [placed p' s' page' r hpage' hslot', Option.some.injEq, RecordId.mk.injEq] at hid
  obtain ⟨hp, -⟩ := List.getElem?_eq_some_iff.mp hpage
  obtain ⟨hp', -⟩ := List.getElem?_eq_some_iff.mp hpage'
  obtain ⟨hs, -⟩ := List.getElem?_eq_some_iff.mp hslot
  obtain ⟨hs', -⟩ := List.getElem?_eq_some_iff.mp hslot'
  have short := addressable.slots page (List.mem_of_getElem? hpage)
  have short' := addressable.slots page' (List.mem_of_getElem? hpage')
  obtain ⟨-, hpages, hslots⟩ := hid
  rw [ofNat_inj_of_lt (Nat.lt_of_lt_of_le hp' addressable.pages)
    (Nat.lt_of_lt_of_le hp addressable.pages)] at hpages
  rw [ofNat_inj_of_lt (Nat.lt_of_lt_of_le hs' short') (Nat.lt_of_lt_of_le hs short)] at hslots
  exact ⟨hpages.symm, hslots.symm⟩

/-- The record id of a row leads to the slot that the row is kept in. -/
theorem Placed.slot_of_mem (placed : t.Placed) (addressable : t.Addressable) (hr : r ∈ t.rows) :
    ∃ id page, r.id? = some id ∧ id.table = t.id ∧ t.pages[id.page.toNat]? = some page
      ∧ page[id.slot.toNat]? = some (some r) := by
  obtain ⟨p, s, page, hpage, hslot⟩ := exists_slot hr
  have hp := Nat.lt_of_lt_of_le (List.getElem?_eq_some_iff.mp hpage).1 addressable.pages
  have hs := Nat.lt_of_lt_of_le (List.getElem?_eq_some_iff.mp hslot).1
    (addressable.slots page (List.mem_of_getElem? hpage))
  refine ⟨_, page, placed p s page r hpage hslot, rfl, ?_, ?_⟩
  · rwa [UInt32.toNat_ofNat', Nat.mod_eq_of_lt hp]
  · rwa [UInt32.toNat_ofNat', Nat.mod_eq_of_lt hs]

theorem Placed.row?_of_mem (placed : t.Placed) (addressable : t.Addressable) (hr : r ∈ t.rows) :
    ∃ id, r.id? = some id ∧ id.table = t.id ∧ t.row? id = some r := by
  obtain ⟨id, page, hid, htable, hpage, hslot⟩ := placed.slot_of_mem addressable hr
  refine ⟨id, hid, htable, ?_⟩
  rw [row?, hpage]
  simp [hslot]

end HeapTable

end QueryEngine
