import Mathlib.Data.List.Induction
import Mathlib.Data.List.Nodup
import QueryEngine.Proofs.Storage.Reachable

/-!
# Telling tables apart

Tables are looked up by their names and by their ids, and a change of a table goes to the one that
has its id. In an orderly heap (`Heap.Orderly`) names and ids tell the tables apart, so that a
change is seen under the name of its table and under no other.

## Numbers

A new table gets the next number, cut off at 32 bits. So a heap is orderly as long as there are no
more tables than numbers (`Heap.Reachable.orderly`).
-/

namespace QueryEngine

namespace Heap

/-! ## What calls do -/

/-- A call changes nothing, adds a table without rows, appends a row to a table, or empties the
slot of one. -/
theorem call_cases (h : Heap) (c : Call) :
    (h.call c).2 = h
      ∨ (∃ name schema, c = .create name schema ∧ h.table name = .error (.tableNotFound name)
          ∧ (h.call c).2 = { h with
              tables := h.tables ++ [⟨h.nextId, name, schema, [], 0⟩], nextId := h.nextId + 1 })
      ∨ (∃ name r t, c = .insert name r ∧ h.table name = .ok t ∧ r.Conforms t.schema
          ∧ (h.call c).2 = h.update (t.append h.capacity r))
      ∨ ∃ r id t row, c = .delete r ∧ r.id? = some id ∧ h.tableById id.table = .ok t
          ∧ t.row? id = some row ∧ (h.call c).2 = h.update (t.vacate id) := by
  cases c with
  | create name schema =>
    rcases hcreate : h.createTable name schema with e | ⟨id, h'⟩
    · exact Or.inl (by rw [call, hcreate])
    · obtain ⟨hname, -, rfl⟩ := createTable_eq_ok_iff.mp hcreate
      exact Or.inr (Or.inl ⟨name, schema, rfl, hname, by rw [call, hcreate]⟩)
  | insert name r =>
    rcases hinsert : h.insert name r with e | ⟨id, h'⟩
    · exact Or.inl (by rw [call, hinsert])
    · obtain ⟨t, ht, conforms, -, rfl⟩ := insert_eq_ok_iff.mp hinsert
      exact Or.inr (Or.inr (Or.inl ⟨name, r, t, rfl, ht, conforms, by rw [call, hinsert]⟩))
  | delete r =>
    rcases hdelete : h.delete r with e | h'
    · exact Or.inl (by rw [call, hdelete])
    · obtain ⟨id, t, row, hid, ht, hrow, rfl⟩ := delete_eq_ok_iff.mp hdelete
      exact Or.inr (Or.inr (Or.inr ⟨r, id, t, row, rfl, hid, ht, hrow, by rw [call, hdelete]⟩))

theorem length_tables_update (h : Heap) (t : HeapTable) :
    (h.update t).tables.length = h.tables.length :=
  List.length_map _

theorem length_tables_le_call (h : Heap) (c : Call) :
    h.tables.length ≤ (h.call c).2.tables.length := by
  rcases h.call_cases c with hsame | ⟨_, _, -, -, hnew⟩ | ⟨_, _, _, -, -, -, hnew⟩
    | ⟨_, _, _, _, -, -, -, -, hnew⟩
  · exact Nat.le_of_eq (by rw [hsame])
  · rw [hnew, List.length_append]
    exact Nat.le_add_right _ _
  · exact Nat.le_of_eq (by rw [hnew, length_tables_update])
  · exact Nat.le_of_eq (by rw [hnew, length_tables_update])

theorem length_tables_le_run (h : Heap) (calls : List Call) :
    h.tables.length ≤ (h.run calls).2.tables.length := by
  induction calls generalizing h with
  | nil => exact Nat.le_refl _
  | cons c rest ih => exact Nat.le_trans (h.length_tables_le_call c) (ih (h.call c).2)

theorem Reachable.call {h : Heap} (reachable : h.Reachable) (c : Call) :
    (h.call c).2.Reachable := by
  obtain ⟨capacity, calls, rfl⟩ := reachable
  exact ⟨capacity, calls ++ [c], by rw [run_concat]⟩

/-! ## Orderly heaps -/

/-- No two tables have the same id, and no two have the same name. -/
structure Orderly (h : Heap) : Prop where
  ids_nodup : (h.tables.map HeapTable.id).Nodup
  names_nodup : (h.tables.map HeapTable.name).Nodup

private theorem find?_of_nodup_map {α β : Type} [DecidableEq β] {f : α → β} {l : List α}
    (nodup : (l.map f).Nodup) {a : α} (ha : a ∈ l) : l.find? (f · = f a) = some a := by
  induction l with
  | nil => cases ha
  | cons b l ih =>
    rw [List.map_cons, List.nodup_cons] at nodup
    rcases List.mem_cons.mp ha with rfl | ha
    · simp
    · have hne : f b ≠ f a := fun heq ↦ nodup.1 (heq ▸ List.mem_map_of_mem ha)
      rw [List.find?_cons, decide_eq_false hne]
      exact ih nodup.2 ha

private theorem find?_map_of_fixed {α : Type} {f : α → α} {p : α → Bool} {l : List α}
    (hp : ∀ a ∈ l, p (f a) = p a) (hf : ∀ a ∈ l, p a → f a = a) :
    (l.map f).find? p = l.find? p := by
  induction l with
  | nil => rfl
  | cons a l ih =>
    have hrest := ih (fun b hb ↦ hp b (List.mem_cons_of_mem _ hb))
      fun b hb ↦ hf b (List.mem_cons_of_mem _ hb)
    rw [List.map_cons, List.find?_cons, List.find?_cons, hp a List.mem_cons_self, hrest]
    cases ha : p a with
    | true => rw [hf a List.mem_cons_self ha]
    | false => rfl

namespace Orderly

variable {h : Heap} {t t' : HeapTable} {name : String}

theorem table_of_mem (orderly : h.Orderly) (ht : t ∈ h.tables) : h.table t.name = .ok t :=
  table_eq_ok_iff.mpr (find?_of_nodup_map orderly.names_nodup ht)

theorem tableById_of_mem (orderly : h.Orderly) (ht : t ∈ h.tables) :
    h.tableById t.id = .ok t := by
  rw [tableById, find?_of_nodup_map orderly.ids_nodup ht]

theorem eq_of_id_eq (orderly : h.Orderly) (ht : t ∈ h.tables) (ht' : t' ∈ h.tables)
    (id_eq : t'.id = t.id) : t' = t := by
  have hlookup := orderly.tableById_of_mem ht'
  rw [id_eq, orderly.tableById_of_mem ht] at hlookup
  exact (Except.ok.inj hlookup).symm

theorem map_update (orderly : h.Orderly) (ht : t ∈ h.tables) (id_eq : t'.id = t.id) {α : Type}
    {f : HeapTable → α} (hf : f t' = f t) : (h.update t').tables.map f = h.tables.map f := by
  rw [update, List.map_map]
  refine List.map_congr_left fun t'' ht'' ↦ ?_
  rw [Function.comp_apply, id_eq]
  split
  · next heq => rw [hf, orderly.eq_of_id_eq ht ht'' heq]
  · rfl

theorem update (orderly : h.Orderly) (ht : t ∈ h.tables) (id_eq : t'.id = t.id)
    (name_eq : t'.name = t.name) : (h.update t').Orderly where
  ids_nodup := by
    rw [orderly.map_update ht id_eq id_eq]
    exact orderly.ids_nodup
  names_nodup := by
    rw [orderly.map_update ht id_eq name_eq]
    exact orderly.names_nodup

end Orderly

section

variable {h : Heap} {t t' : HeapTable} {name : String}

theorem mem_update (ht : t ∈ h.tables) (id_eq : t'.id = t.id) : t' ∈ (h.update t').tables :=
  List.mem_map.mpr ⟨t, ht, if_pos id_eq.symm⟩

theorem update_update (h : Heap) (id_eq : t'.id = t.id) : (h.update t).update t' = h.update t' := by
  have htables : (h.update t |>.update t').tables = (h.update t').tables := by
    rw [update, update, update, List.map_map]
    refine List.map_congr_left fun t'' _ ↦ ?_
    rw [Function.comp_apply, id_eq]
    split
    · exact if_pos rfl
    · rfl
  exact congrArg (fun tables ↦ { h with tables }) htables

theorem update_self (orderly : h.Orderly) (ht : t ∈ h.tables) : h.update t = h := by
  have htables : h.tables.map (fun t' ↦ if t'.id = t.id then t else t') = h.tables := by
    refine (List.map_congr_left fun t' ht' ↦ ?_).trans (List.map_id _)
    split
    · next heq => exact (orderly.eq_of_id_eq ht ht' heq).symm
    · rfl
  exact congrArg (fun tables ↦ { h with tables }) htables

theorem table_update (orderly : h.Orderly) (ht : h.table name = .ok t) (id_eq : t'.id = t.id)
    (name_eq : t'.name = t.name) : (h.update t').table name = .ok t' := by
  have hmem := mem_of_table ht
  rw [← name_of_table ht, ← name_eq]
  exact (orderly.update hmem id_eq name_eq).table_of_mem (mem_update hmem id_eq)

theorem tableById_update (orderly : h.Orderly) (ht : t ∈ h.tables) (id_eq : t'.id = t.id)
    (name_eq : t'.name = t.name) : (h.update t').tableById t.id = .ok t' := by
  rw [← id_eq]
  exact (orderly.update ht id_eq name_eq).tableById_of_mem (mem_update ht id_eq)

theorem tableById_update_of_ne {t'' : HeapTable} (orderly : h.Orderly) (ht : t ∈ h.tables)
    (id_eq : t'.id = t.id) (name_eq : t'.name = t.name) (ht'' : t'' ∈ h.tables)
    (hne : t''.id ≠ t.id) : (h.update t').tableById t''.id = .ok t'' := by
  refine (orderly.update ht id_eq name_eq).tableById_of_mem (List.mem_map.mpr ⟨t'', ht'', ?_⟩)
  exact if_neg (id_eq ▸ hne)

theorem table_update_of_ne (orderly : h.Orderly) (ht : t ∈ h.tables) (id_eq : t'.id = t.id)
    (name_eq : t'.name = t.name) (hne : name ≠ t.name) :
    (h.update t').table name = h.table name := by
  have hfixed : ∀ t'' ∈ h.tables, t''.id = t'.id → t''.name = t'.name := by
    intro t'' ht'' heq
    rw [orderly.eq_of_id_eq ht ht'' (heq.trans id_eq), name_eq]
  have hfind : (h.update t').tables.find? (·.name = name) = h.tables.find? (·.name = name) := by
    apply find?_map_of_fixed
    · intro t'' ht''
      split
      · next heq => rw [hfixed t'' ht'' heq]
      · rfl
    · intro t'' ht'' hname
      rw [if_neg]
      intro heq
      have hname' : t''.name = name := by simpa using hname
      exact hne (hname'.symm.trans ((hfixed t'' ht'' heq).trans name_eq))
  rw [table, table, hfind]

/-- If a change of a table keeps it related to what it was, every table is related to the one that
had its name. -/
theorem exists_table_update (orderly : h.Orderly) {t₀ : HeapTable}
    (ht₀ : h.table name = .ok t₀) (ht : t ∈ h.tables) {R : HeapTable → HeapTable → Prop}
    (refl : ∀ t, R t t) (changed : R t t') (id_eq : t'.id = t.id) (name_eq : t'.name = t.name) :
    ∃ t₁, (h.update t').table name = .ok t₁ ∧ R t₀ t₁ := by
  by_cases hname : name = t.name
  · have hlookup := orderly.table_of_mem ht
    rw [← hname, ht₀, Except.ok.injEq] at hlookup
    subst hlookup
    exact ⟨t', table_update orderly ht₀ id_eq name_eq, changed⟩
  · exact ⟨t₀, (table_update_of_ne orderly ht id_eq name_eq hname).trans ht₀, refl t₀⟩

end

/-! ## The numbers of tables -/

/-- The tables have the numbers from one on, cut off at 32 bits, and no name is used twice. -/
structure Numbered (h : Heap) : Prop where
  ids_eq : h.tables.map HeapTable.id = (List.range' 1 h.tables.length).map UInt32.ofNat
  nextId_eq : h.nextId = UInt32.ofNat (h.tables.length + 1)
  names_nodup : (h.tables.map HeapTable.name).Nodup

namespace Numbered

variable {h : Heap}

theorem orderly (numbered : h.Numbered) (few : h.tables.length ≤ 2 ^ 32) : h.Orderly where
  ids_nodup := by
    rw [numbered.ids_eq]
    refine List.Nodup.map_on (fun m hm n hn heq ↦ ?_) List.nodup_range'
    rw [List.mem_range'_1] at hm hn
    rw [← UInt32.toNat_inj, UInt32.toNat_ofNat', UInt32.toNat_ofNat'] at heq
    omega
  names_nodup := numbered.names_nodup

theorem update (numbered : h.Numbered) (orderly : h.Orderly) {t t' : HeapTable}
    (ht : t ∈ h.tables) (id_eq : t'.id = t.id) (name_eq : t'.name = t.name) :
    (h.update t').Numbered where
  ids_eq := by
    rw [orderly.map_update ht id_eq id_eq, length_tables_update]
    exact numbered.ids_eq
  nextId_eq := by
    rw [length_tables_update]
    exact numbered.nextId_eq
  names_nodup := (orderly.update ht id_eq name_eq).names_nodup

theorem call (numbered : h.Numbered) (few : h.tables.length ≤ 2 ^ 32) (c : Call) :
    (h.call c).2.Numbered := by
  have orderly := numbered.orderly few
  rcases h.call_cases c with hsame | ⟨name, schema, -, hname, hnew⟩ | ⟨_, _, t, -, ht, -, hnew⟩
    | ⟨_, _, t, _, -, -, ht, -, hnew⟩
  · rwa [hsame]
  · have hfresh : name ∉ h.tables.map HeapTable.name := by
      intro hmem
      obtain ⟨t, ht, rfl⟩ := List.mem_map.mp hmem
      rw [orderly.table_of_mem ht] at hname
      cases hname
    rw [hnew]
    refine ⟨?_, ?_, ?_⟩
    · rw [List.map_append, numbered.ids_eq, List.length_append, List.length_singleton,
        List.range'_1_concat, List.map_append, Nat.add_comm 1, numbered.nextId_eq]
      rfl
    · rw [List.length_append, List.length_singleton, numbered.nextId_eq]
      exact (UInt32.ofNat_add _ 1).symm
    · rw [List.map_append]
      exact numbered.names_nodup.append (List.nodup_singleton name) (by simpa using hfresh)
  · exact hnew ▸ numbered.update orderly (mem_of_table ht) rfl rfl
  · exact hnew ▸ numbered.update orderly (mem_of_tableById ht) rfl rfl

end Numbered

/-- A heap is orderly if 32 bits are enough for the numbers of its tables. -/
theorem Reachable.orderly {h : Heap} (reachable : h.Reachable) (few : h.tables.length ≤ 2 ^ 32) :
    h.Orderly := by
  obtain ⟨capacity, calls, rfl⟩ := reachable
  suffices numbered : ((ofCapacity capacity).run calls).2.Numbered from numbered.orderly few
  induction calls using List.reverseRecOn with
  | nil => exact ⟨rfl, rfl, List.nodup_nil⟩
  | append_singleton calls c ih =>
    rw [run_concat] at few ⊢
    have few' := Nat.le_trans (length_tables_le_call _ c) few
    exact (ih few').call few' c

end Heap

end QueryEngine
