import Mathlib.Data.List.Forall2
import Mathlib.Data.List.Induction
import Mathlib.Data.List.Nodup
import QueryEngine.Proofs.Storage.Ledger

/-!
# The heap as an append-only log

A heap is compared with a ledger. Both take the same calls, and `Agrees` is the relation between
them that every call keeps (`Agrees.call`). `run_eq_ledger` says that the heap answers every run of
calls as the ledger does, that it never hands out a record id twice, and that what can be read from
it afterwards is what the ledger says it is.
-/

namespace QueryEngine

/-! ## Agreement of a heap with a ledger -/

/-- The heap holds the tables of the ledger, which are numbered from one on. -/
structure Agrees (h : Heap) (l : Ledger) : Prop where
  capacity_eq : h.capacity = l.capacity
  nextId_eq : h.nextId = UInt32.ofNat (l.journals.length + 1)
  follows : List.Forall₂ (Follows h.capacity) h.tables l.journals
  ids_eq : l.journals.map Journal.id = List.range' 1 l.journals.length

private theorem forall₂_and_mem {α β : Type} {R : α → β → Prop} {l₁ : List α} {l₂ : List β}
    (h : List.Forall₂ R l₁ l₂) : List.Forall₂ (fun a b ↦ R a b ∧ b ∈ l₂) l₁ l₂ := by
  induction h with
  | nil => exact .nil
  | cons hab _ ih =>
    exact .cons ⟨hab, List.mem_cons_self⟩
      (ih.imp fun _ _ hmem ↦ ⟨hmem.1, List.mem_cons_of_mem _ hmem.2⟩)

private theorem find?_of_forall₂ {α β : Type} {R : α → β → Prop} {l₁ : List α} {l₂ : List β}
    (h : List.Forall₂ R l₁ l₂) {p : α → Bool} {q : β → Bool}
    (hpq : ∀ a, ∀ b ∈ l₂, R a b → p a = q b) :
    (l₁.find? p = none ∧ l₂.find? q = none)
      ∨ ∃ a b, l₁.find? p = some a ∧ l₂.find? q = some b ∧ R a b := by
  induction h with
  | nil => exact Or.inl ⟨rfl, rfl⟩
  | @cons a b l₁ l₂ hab hrest ih =>
    have hhead := hpq a b List.mem_cons_self hab
    rw [List.find?_cons, List.find?_cons, hhead]
    cases q b with
    | true => exact Or.inr ⟨a, b, rfl, rfl, hab⟩
    | false => exact ih fun a b hb ↦ hpq a b (List.mem_cons_of_mem _ hb)

namespace Agrees

variable {h : Heap} {l : Ledger}

theorem id_lt (agrees : Agrees h l) (small : l.Small) {j : Journal} (hj : j ∈ l.journals) :
    j.id < 2 ^ 32 := by
  have hid := List.mem_map_of_mem (f := Journal.id) hj
  rw [agrees.ids_eq, List.mem_range'_1] at hid
  have hlt := small.1
  omega

theorem eq_of_id_eq (agrees : Agrees h l) {j j' : Journal} (hj : j ∈ l.journals)
    (hj' : j' ∈ l.journals) (hid : j.id = j'.id) : j = j' := by
  have hnodup : (l.journals.map Journal.id).Nodup := agrees.ids_eq ▸ List.nodup_range'
  exact List.inj_on_of_nodup_map hnodup hj hj' hid

theorem table (agrees : Agrees h l) (name : String) :
    (h.tables.find? (·.name = name) = none ∧ l.find? name = none)
      ∨ ∃ t j, h.tables.find? (·.name = name) = some t ∧ l.find? name = some j
        ∧ Follows h.capacity t j := by
  refine find?_of_forall₂ agrees.follows fun t j _ follows ↦ ?_
  rw [follows.name_eq]

theorem tableById (agrees : Agrees h l) (small : l.Small) (id : UInt32) :
    (h.tables.find? (·.id = id) = none ∧ l.journals.find? (·.id = id.toNat) = none)
      ∨ ∃ t j, h.tables.find? (·.id = id) = some t
        ∧ l.journals.find? (·.id = id.toNat) = some j ∧ Follows h.capacity t j := by
  refine find?_of_forall₂ agrees.follows fun t j hj follows ↦ ?_
  have hiff : t.id = id ↔ j.id = id.toNat := by
    rw [follows.id_eq, ← UInt32.toNat_inj, UInt32.toNat_ofNat',
      Nat.mod_eq_of_lt (agrees.id_lt small hj)]
  rw [decide_eq_decide, hiff]

/-- Changing one table and its journal alike keeps the agreement. -/
theorem update (agrees : Agrees h l) (small : l.Small) {j : Journal} (hj : j ∈ l.journals)
    {f : Journal → Journal} (keeps : ∀ j, (f j).id = j.id) {t : HeapTable}
    (follows : Follows h.capacity t (f j)) : Agrees (h.update t) (l.update j.id f) where
  capacity_eq := agrees.capacity_eq
  nextId_eq := by
    rw [Ledger.update, List.length_map]
    exact agrees.nextId_eq
  follows := by
    rw [Heap.update, Ledger.update, List.forall₂_map_left_iff, List.forall₂_map_right_iff]
    refine (forall₂_and_mem agrees.follows).imp fun t' j' hpair ↦ ?_
    obtain ⟨follows', hj'⟩ := hpair
    have hiff : t'.id = t.id ↔ j'.id = j.id := by
      -- Ids of 32 bits tell tables apart as long as there are few of them.
      rw [follows'.id_eq, follows.id_eq, keeps,
        ofNat_inj_of_lt (agrees.id_lt small hj') (agrees.id_lt small hj)]
    by_cases hid : j'.id = j.id
    · rw [if_pos (hiff.mpr hid), if_pos hid, agrees.eq_of_id_eq hj' hj hid]
      exact follows
    · rw [if_neg (hid ∘ hiff.mp), if_neg hid]
      exact follows'
  ids_eq := by
    rw [Ledger.update, List.length_map, ← agrees.ids_eq, List.map_map]
    refine List.map_congr_left fun j' _ ↦ ?_
    rw [Function.comp_apply]
    split
    · exact keeps j'
    · rfl

end Agrees

/-! ## Answers -/

/-- The answer of a heap in plain numbers. -/
def Heap.Answer.plain : Heap.Answer → Ledger.Answer
  | created id => .created id.toNat
  | stored id => .stored id.table.toNat id.page.toNat id.slot.toNat
  | removed => .removed

namespace Agrees

variable {h : Heap} {l : Ledger}

theorem create (agrees : Agrees h l) (name : String) (schema : Schema)
    (small : (l.call (.create name schema)).2.Small) :
    (h.call (.create name schema)).1.toOption.map Heap.Answer.plain
        = (l.call (.create name schema)).1
      ∧ Agrees (h.call (.create name schema)).2 (l.call (.create name schema)).2 := by
  rw [Ledger.call] at small ⊢
  rw [Heap.call, Heap.createTable, Heap.table]
  rcases agrees.table name with ⟨ht, hj⟩ | ⟨t, j, ht, hj, -⟩
  · rw [ht, hj]
    rw [hj] at small
    -- The ledger with the new table is small, so its number has not been cut off.
    have hlt : l.journals.length + 1 < 2 ^ 32 - 1 := by simpa using small.1
    refine ⟨?_, agrees.capacity_eq, ?_, ?_, ?_⟩
    · have hid : h.nextId.toNat = l.journals.length + 1 := by
        rw [agrees.nextId_eq, UInt32.toNat_ofNat', Nat.mod_eq_of_lt (by omega)]
      simp [Except.toOption, Heap.Answer.plain, hid]
    · rw [List.length_append, List.length_singleton, agrees.nextId_eq]
      exact (UInt32.ofNat_add _ 1).symm
    · rw [agrees.nextId_eq]
      exact List.rel_append agrees.follows (.cons (Follows.empty _ _ _ _) .nil)
    · rw [List.map_append, agrees.ids_eq, List.length_append, List.length_singleton,
        List.range'_1_concat, Nat.add_comm 1]
      rfl
  · rw [ht, hj]
    exact ⟨rfl, agrees⟩

theorem insert (agrees : Agrees h l) (name : String) (r : Row)
    (small : (l.call (.insert name r)).2.Small) :
    (h.call (.insert name r)).1.toOption.map Heap.Answer.plain = (l.call (.insert name r)).1
      ∧ Agrees (h.call (.insert name r)).2 (l.call (.insert name r)).2 := by
  have small' := Ledger.small_of_small_call small
  rw [Ledger.call, Heap.call, Heap.insert, Heap.table]
  rcases agrees.table name with ⟨ht, hj⟩ | ⟨t, j, ht, hj, follows⟩
  · rw [ht, hj]
    exact ⟨rfl, agrees⟩
  · have hmem : j ∈ l.journals := List.mem_of_find?_eq_some hj
    rw [ht, hj]
    simp only [follows.schema_eq]
    by_cases conforms : r.Conforms j.schema
    · rw [if_pos conforms, if_pos conforms]
      have hlt := small'.2 j hmem
      have hpage : j.entries.length / l.capacity < 2 ^ 32 :=
        Nat.lt_of_le_of_lt (Nat.div_le_self _ _) hlt
      have hslot : j.entries.length % l.capacity < 2 ^ 32 :=
        Nat.lt_of_le_of_lt (Nat.mod_le _ _) hlt
      have hid : t.nextId h.capacity = j.recordId l.capacity j.entries.length := by
        rw [follows.nextId_eq h.capacity_pos, agrees.capacity_eq]
      refine ⟨?_, agrees.update small' hmem (f := (·.append r)) (fun _ ↦ rfl)
        (follows.append h.capacity_pos (follows.schema_eq ▸ conforms))⟩
      simp only [Except.toOption, Option.map_some, Heap.Answer.plain, hid, Journal.recordId,
        UInt32.toNat_ofNat', Nat.mod_eq_of_lt hpage, Nat.mod_eq_of_lt hslot,
        Nat.mod_eq_of_lt (agrees.id_lt small' hmem)]
    · rw [if_neg conforms, if_neg conforms]
      exact ⟨rfl, agrees⟩

theorem delete (agrees : Agrees h l) (r : Row) (small : l.Small) :
    (h.call (.delete r)).1.toOption.map Heap.Answer.plain = (l.call (.delete r)).1
      ∧ Agrees (h.call (.delete r)).2 (l.call (.delete r)).2 := by
  rw [Ledger.call, Heap.call, Heap.delete]
  cases r.id? with
  | none => exact ⟨rfl, agrees⟩
  | some id =>
    rw [Option.bind_some, Ledger.locate?]
    simp only [Heap.tableById]
    rcases agrees.tableById small id.table with ⟨ht, hj⟩ | ⟨t, j, ht, hj, follows⟩
    · rw [ht, hj]
      exact ⟨rfl, agrees⟩
    · have hmem : j ∈ l.journals := List.mem_of_find?_eq_some hj
      rw [ht, hj]
      simp only [← agrees.capacity_eq, follows.position?_eq h.capacity_pos]
      cases hrow : t.row? id with
      | none => exact ⟨rfl, agrees⟩
      | some row =>
        exact ⟨rfl, agrees.update small hmem
          (f := (·.strike (id.page.toNat * h.capacity + id.slot.toNat))) (fun _ ↦ rfl)
          (follows.vacate hrow)⟩

/-- One call is answered alike and keeps the agreement. -/
theorem call (agrees : Agrees h l) (c : Heap.Call) (small : (l.call c).2.Small) :
    (h.call c).1.toOption.map Heap.Answer.plain = (l.call c).1
      ∧ Agrees (h.call c).2 (l.call c).2 := by
  cases c with
  | create name schema => exact agrees.create name schema small
  | insert name r => exact agrees.insert name r small
  | delete r => exact agrees.delete r (Ledger.small_of_small_call small)

theorem ofCapacity (capacity : Nat) :
    Agrees (Heap.ofCapacity capacity) (Ledger.ofCapacity capacity) :=
  ⟨rfl, rfl, .nil, rfl⟩

theorem run (agrees : Agrees h l) (calls : List Heap.Call) (small : (l.run calls).2.Small) :
    (h.run calls).1.map (fun a ↦ a.toOption.map Heap.Answer.plain) = (l.run calls).1
      ∧ Agrees (h.run calls).2 (l.run calls).2 := by
  induction calls using List.reverseRecOn with
  | nil => exact ⟨rfl, agrees⟩
  | append_singleton calls c ih =>
    rw [Ledger.run_concat] at small ⊢
    obtain ⟨hanswers, hagrees⟩ := ih (Ledger.small_of_small_call small)
    obtain ⟨hanswer, hagrees'⟩ := hagrees.call c small
    rw [Heap.run_concat]
    refine ⟨?_, hagrees'⟩
    rw [List.map_append, hanswers, List.map_singleton, hanswer]

end Agrees

/-! ## Places that are handed out -/

def Journal.place (capacity : Nat) (j : Journal) (k : Nat) : Nat × Nat × Nat :=
  (j.id, k / capacity, k % capacity)

/-- The places are those of entries, and none of them occurs twice. -/
structure Ledger.Used (l : Ledger) (places : List (Nat × Nat × Nat)) : Prop where
  nodup : places.Nodup
  entry : ∀ x ∈ places, ∃ j ∈ l.journals, ∃ k < j.entries.length, x = j.place l.capacity k

namespace Ledger

/-- Places of entries stay places of entries when a journal changes and does not get shorter. -/
theorem Used.update {l : Ledger} {places : List (Nat × Nat × Nat)} (used : l.Used places) (id : Nat)
    {f : Journal → Journal} (keeps : ∀ j, (f j).id = j.id)
    (grows : ∀ j, j.entries.length ≤ (f j).entries.length) : (l.update id f).Used places := by
  refine ⟨used.nodup, fun x hx ↦ ?_⟩
  obtain ⟨j, hj, k, hk, rfl⟩ := used.entry x hx
  refine ⟨_, List.mem_map_of_mem hj, k, ?_⟩
  split
  · refine ⟨Nat.lt_of_lt_of_le hk (grows j), ?_⟩
    rw [Journal.place, Journal.place, keeps, Ledger.update]
  · exact ⟨hk, rfl⟩

theorem Used.append {h : Heap} {l : Ledger} (agrees : Agrees h l)
    {places : List (Nat × Nat × Nat)} (used : l.Used places) {j : Journal} (hj : j ∈ l.journals)
    (r : Row) :
    (l.update j.id (·.append r)).Used (places ++ [j.place l.capacity j.entries.length]) := by
  -- An entry at this place would be one past the end of its journal.
  have hfresh : j.place l.capacity j.entries.length ∉ places := by
    intro hmem
    obtain ⟨j', hj', k, hk, hplace⟩ := used.entry _ hmem
    rw [Journal.place, Journal.place, Prod.mk.injEq, Prod.mk.injEq] at hplace
    obtain ⟨hid, hdiv, hmod⟩ := hplace
    have hlen : j.entries.length = k := by
      rw [← Nat.div_add_mod j.entries.length l.capacity, hdiv, hmod, Nat.div_add_mod]
    rw [agrees.eq_of_id_eq hj' hj hid.symm, hlen] at hk
    exact Nat.lt_irrefl k hk
  have hused := used.update j.id (f := (·.append r)) (fun _ ↦ rfl)
    (fun j ↦ by simp [Journal.append])
  refine ⟨?_, fun x hx ↦ ?_⟩
  · rw [List.nodup_append]
    refine ⟨used.nodup, List.nodup_singleton _, fun x hx y hy hxy ↦ ?_⟩
    rw [List.mem_singleton.mp hy] at hxy
    exact hfresh (hxy ▸ hx)
  · rcases List.mem_append.mp hx with hold | hnew
    · exact hused.entry x hold
    · rw [List.mem_singleton.mp hnew]
      refine ⟨j.append r, List.mem_map.mpr ⟨j, hj, if_pos rfl⟩, j.entries.length, ?_, rfl⟩
      simp [Journal.append]

theorem Used.call {h : Heap} {l : Ledger} (agrees : Agrees h l)
    {places : List (Nat × Nat × Nat)} (used : l.Used places) (c : Heap.Call) :
    (l.call c).2.Used (places ++ (Answer.place? (l.call c).1).toList) := by
  cases c with
  | create name schema =>
    rw [Ledger.call]
    split
    · simpa [Answer.place?] using used
    · refine ⟨by simpa [Answer.place?] using used.nodup, fun x hx ↦ ?_⟩
      obtain ⟨j, hj, hentry⟩ := used.entry x (by simpa [Answer.place?] using hx)
      exact ⟨j, List.mem_append_left _ hj, hentry⟩
  | insert name r =>
    rw [Ledger.call]
    split
    · simpa [Answer.place?] using used
    · next j hj =>
      split
      · exact used.append agrees (List.mem_of_find?_eq_some hj) r
      · simpa [Answer.place?] using used
  | delete r =>
    rw [Ledger.call]
    split
    · simpa [Answer.place?] using used
    · next id k _ =>
      have hused := used.update id (f := (·.strike k)) (fun _ ↦ rfl)
        (fun j ↦ by simp [Journal.strike])
      simpa [Answer.place?] using hused

/-- No place is handed out twice in a run. -/
theorem nodup_places {h : Heap} {l : Ledger} (agrees : Agrees h l)
    (calls : List Heap.Call) (small : (l.run calls).2.Small) :
    ((l.run calls).1.filterMap Answer.place?).Nodup := by
  have hused : (l.run calls).2.Used ((l.run calls).1.filterMap Answer.place?) := by
    induction calls using List.reverseRecOn with
    | nil => exact ⟨List.nodup_nil, fun _ hx ↦ absurd hx List.not_mem_nil⟩
    | append_singleton calls c ih =>
      rw [run_concat] at small ⊢
      have hsmall := small_of_small_call small
      rw [List.filterMap_append]
      have hstep := (ih hsmall).call (agrees.run calls hsmall).2 c
      cases hplace : Answer.place? ((l.run calls).2.call c).1 with
      | none => simpa [hplace] using hstep
      | some x => simpa [hplace] using hstep
  exact hused.nodup

end Ledger

/-! ## What can be read -/

/-- All that can be read from the heap is what the ledger says. -/
structure Heap.Shows (h : Heap) (l : Ledger) : Prop where
  tables_eq : Storage.tables h = l.journals.map Journal.name
  schema_eq : ∀ name, (Storage.tableSchema h name).toOption = (l.find? name).map Journal.schema
  pageCount_eq : ∀ name,
    (Storage.pageCount name h).1.toOption = (l.find? name).map (Journal.pageCount l.capacity)
  liveRows_eq : ∀ name,
    ((h.table name).map HeapTable.liveRows).toOption = (l.find? name).map Journal.liveCount
  readPage_eq : ∀ name (p : UInt32),
    (Storage.readPage name p h).1.toOption = (l.find? name).bind fun j ↦
      if p.toNat < j.pageCount l.capacity then some (j.page l.capacity p.toNat) else none

theorem Agrees.lookup {h : Heap} {l : Ledger} (agrees : Agrees h l) {α : Type} {f : HeapTable → α}
    {g : Journal → α} (hfg : ∀ t j, Follows h.capacity t j → f t = g j) (name : String) :
    ((h.table name).map f).toOption = (l.find? name).map g := by
  rw [Heap.table]
  rcases agrees.table name with ⟨ht, hj⟩ | ⟨t, j, ht, hj, follows⟩
  · rw [ht, hj]
    rfl
  · rw [ht, hj, Option.map_some, ← hfg t j follows]
    rfl

theorem Agrees.shows {h : Heap} {l : Ledger} (agrees : Agrees h l) : h.Shows l where
  tables_eq := by
    have hnames : List.Forall₂ (fun a b ↦ a = b) (h.tables.map HeapTable.name)
        (l.journals.map Journal.name) := by
      rw [List.forall₂_map_left_iff, List.forall₂_map_right_iff]
      exact agrees.follows.imp fun _ _ follows ↦ follows.name_eq
    exact List.forall₂_eq_eq_eq ▸ hnames
  schema_eq := agrees.lookup fun _ _ follows ↦ follows.schema_eq
  pageCount_eq := by
    refine agrees.lookup fun t j follows ↦ ?_
    rw [follows.length_pages h.capacity_pos, agrees.capacity_eq]
  liveRows_eq := agrees.lookup fun _ _ follows ↦ follows.liveRows_eq
  readPage_eq := by
    intro name p
    change (h.readPage name p).toOption = _
    rw [Heap.readPage, Heap.table]
    rcases agrees.table name with ⟨ht, hj⟩ | ⟨t, j, ht, hj, follows⟩
    · rw [ht, hj]
      rfl
    · rw [ht, hj, Option.bind_some, ← agrees.capacity_eq,
        ← follows.map_rows_getElem? h.capacity_pos]
      cases hpage : t.pages[p.toNat]? <;> simp [hpage, Except.toOption]

/-! ## Runs -/

def Heap.Answer.recordId? : Except StorageError Heap.Answer → Option RecordId
  | .ok (.stored id) => some id
  | _ => none

private theorem place?_map_plain (a : Except StorageError Heap.Answer) :
    Ledger.Answer.place? (a.toOption.map Heap.Answer.plain)
      = (Heap.Answer.recordId? a).map fun id ↦ (id.table.toNat, id.page.toNat, id.slot.toNat) := by
  rcases a with e | answer
  · rfl
  · cases answer <;> rfl

/-- **A heap is an append-only log a table.** From a heap without tables, every run of calls is
answered as the ledger answers it, all record ids that it hands out are different, and the heap
shows the tables, schemas, page counts, numbers of rows and pages of the ledger. -/
theorem Heap.run_eq_ledger (capacity : Nat) (calls : List Heap.Call)
    (small : ((Ledger.ofCapacity capacity).run calls).2.Small) :
    ((ofCapacity capacity).run calls).1.map (fun a ↦ a.toOption.map Answer.plain)
        = ((Ledger.ofCapacity capacity).run calls).1
      ∧ (((ofCapacity capacity).run calls).1.filterMap Answer.recordId?).Nodup
      ∧ ((ofCapacity capacity).run calls).2.Shows
          ((Ledger.ofCapacity capacity).run calls).2 := by
  have agrees := Agrees.ofCapacity capacity
  obtain ⟨hanswers, hagrees⟩ := agrees.run calls small
  refine ⟨hanswers, ?_, hagrees.shows⟩
  have hplaces := Ledger.nodup_places agrees calls small
  rw [← hanswers, List.filterMap_map] at hplaces
  have hids : ((ofCapacity capacity).run calls).1.filterMap
        (Ledger.Answer.place? ∘ fun a ↦ a.toOption.map Answer.plain)
      = (((ofCapacity capacity).run calls).1.filterMap Answer.recordId?).map
        fun id ↦ (id.table.toNat, id.page.toNat, id.slot.toNat) := by
    rw [List.map_filterMap]
    exact List.filterMap_congr fun a _ ↦ place?_map_plain a
  rw [hids] at hplaces
  exact hplaces.of_map _

/-- A page just filled, a row that does not conform, a table created twice, a row deleted twice. -/
def Heap.callsOnTwoPages : List Heap.Call :=
  [.create "t" ⟨[⟨"n", .integer⟩]⟩, .insert "t" (.ofValues [.integer 7]),
    .insert "t" (.ofValues [.integer 8]), .insert "t" (.ofValues [.integer 9]),
    .insert "t" (.ofValues [.text "x"]), .create "t" ⟨[]⟩,
    .delete ⟨[], some ⟨1, 0, 1⟩⟩, .delete ⟨[], some ⟨1, 0, 1⟩⟩]

theorem Heap.run_eq_ledger_two_pages :
    ((Ledger.ofCapacity 2).run callsOnTwoPages).2.Small
      ∧ ((ofCapacity 2).run callsOnTwoPages).1.map (fun a ↦ a.toOption.map Answer.plain)
        = [some (.created 1), some (.stored 1 0 0), some (.stored 1 0 1), some (.stored 1 1 0),
          none, none, some .removed, none]
      ∧ (Storage.readPage "t" 0 ((ofCapacity 2).run callsOnTwoPages).2).1.toOption
        = some [⟨[.integer 7], some ⟨1, 0, 0⟩⟩] := by
  have small : ((Ledger.ofCapacity 2).run callsOnTwoPages).2.Small := by decide
  obtain ⟨hanswers, -, shows⟩ := run_eq_ledger 2 callsOnTwoPages small
  refine ⟨small, hanswers, ?_⟩
  rw [shows.readPage_eq]
  decide

end QueryEngine
