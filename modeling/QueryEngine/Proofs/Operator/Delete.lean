import QueryEngine.Proofs.Operator.Modify
import QueryEngine.Proofs.Operator.ReadOnly
import QueryEngine.Proofs.Operator.Sweep
import QueryEngine.Proofs.Storage.Quiet
import QueryEngine.Proofs.Storage.Removal

/-!
# Deleting what a scan finds

A deletion over filters over the scan of its own table removes rows while the scan is on its way.
What it comes to is nevertheless decided when it is opened: the rows that satisfy all predicates
are removed, in order, up to the first one whose removal is refused.

## Why the scan is not disturbed

A page is read after the rows of all pages before it have been visited. All that has been removed
until then are rows of those pages, so the page shows the rows that it had from the beginning
(`rows_page_untouched`), and each of them is still there when its turn comes.
-/

namespace QueryEngine

/-! ## The state of the heap during the sweep -/

/-- The given rows have been removed, with one write each. -/
structure ContestedHeap.Removed (c : ContestedHeap) (t : HeapTable) (gone : List Row)
    (s : ContestedHeap) : Prop where
  quiet : s.Quiet
  heap_eq : s.heap = c.heap.update (t.without gone)
  writes_eq : s.writes = c.writes.skip gone.length

theorem Predicate.selectAll_append (ps : List Predicate) (rows rows' : List Row) :
    selectAll ps (rows ++ rows') = selectAll ps rows ++ selectAll ps rows' :=
  List.filter_append ..

theorem Predicate.mem_of_mem_selectAll {ps : List Predicate} {rows : List Row} {r : Row}
    (hr : r ∈ selectAll ps rows) : r ∈ rows :=
  (List.mem_filter.mp hr).1

section

variable {c : ContestedHeap} {name : String} {t : HeapTable} {ps : List Predicate}

/-- The rows that are to be removed among those visited have been removed, and counted. -/
def Sweeps (c : ContestedHeap) (t : HeapTable) (ps : List Predicate) (seen : List Row) (n : Nat)
    (s : ContestedHeap) : Prop :=
  n = (Predicate.selectAll ps seen).length
    ∧ c.writes.Serves (Predicate.selectAll ps seen).length
    ∧ c.Removed t (Predicate.selectAll ps seen) s

/-- The removal of a row has been refused, and those before it stand. -/
def SweepFails (c : ContestedHeap) (t : HeapTable) (ps : List Predicate) (e : QueryError)
    (s : ContestedHeap) : Prop :=
  ∃ j cause, j < (Predicate.selectAll ps t.rows).length ∧ c.writes.FailsAt j cause
    ∧ e = .modificationFailed j cause
    ∧ s.heap = c.heap.update (t.without ((Predicate.selectAll ps t.rows).take j))

theorem removeRow_proceeds (locates : c.heap.Locates name t)
    (suits : ∀ p ∈ ps, p.Suits t.schema) :
    (Predicate.guards ps (removeRow name)).Proceeds t.rows (Sweeps c t ps) (SweepFails c t ps) := by
  rintro seen r rest n s hall ⟨rfl, serves, removed⟩
  have hr : r ∈ t.rows := hall ▸ List.mem_append_right _ List.mem_cons_self
  have hevaluates := fun p hp ↦ (suits p hp).evaluates (locates.conforms r hr)
  rw [Predicate.guards_eq hevaluates]
  split
  · next hholds =>
    have hselect : Predicate.selectAll ps (seen ++ [r]) = Predicate.selectAll ps seen ++ [r] := by
      rw [Predicate.selectAll_append]
      simpa [Predicate.selectAll] using hholds
    have hnext : s.writes.refusal
        = (c.writes.skip (Predicate.selectAll ps seen).length).refusal := by
      rw [removed.writes_eq]
    rw [removeRow]
    rcases hrefused : (c.writes.skip (Predicate.selectAll ps seen).length).refusal with _ | cause
    · have hfresh : r ∉ Predicate.selectAll ps seen := by
        have hnodup := locates.placed.nodup_rows locates.addressable
        rw [← hall, List.nodup_append] at hnodup
        intro hmem
        exact hnodup.2.2 r (Predicate.mem_of_mem_selectAll hmem) r List.mem_cons_self rfl
      have hdelete := locates.delete hr hfresh
      rw [← removed.heap_eq] at hdelete
      rw [ContestedHeap.delete_of_served (hnext.trans hrefused) hdelete]
      refine ⟨?_, ?_, removed.quiet.afterWrite _ _, ?_, ?_⟩
      · rw [hselect, List.length_append, List.length_singleton]
      · rw [hselect, List.length_append, List.length_singleton]
        exact serves.succ hrefused
      · rw [hselect]
      · rw [hselect, List.length_append, removed.writes_eq]
        rfl
    · rw [ContestedHeap.delete_of_refused (hnext.trans hrefused)]
      have hsplit : Predicate.selectAll ps t.rows
          = Predicate.selectAll ps seen ++ r :: Predicate.selectAll ps rest := by
        have hcons : seen ++ r :: rest = seen ++ [r] ++ rest := by simp
        rw [← hall, hcons, Predicate.selectAll_append, hselect, List.append_assoc]
        rfl
      refine ⟨_, cause, ?_, ⟨serves, hrefused⟩, rfl, ?_⟩
      · rw [hsplit, List.length_append, List.length_cons]
        omega
      · rw [hsplit, List.take_left]
        exact removed.heap_eq
  · next hholds =>
    have hselect : Predicate.selectAll ps (seen ++ [r]) = Predicate.selectAll ps seen := by
      rw [Predicate.selectAll_append]
      simpa [Predicate.selectAll] using hholds
    have hsame : Sweeps c t ps (seen ++ [r]) = Sweeps c t ps seen := by
      funext n s
      rw [Sweeps, Sweeps, hselect]
    rw [hsame]
    exact ⟨rfl, serves, removed⟩

theorem rows_page_untouched (locates : c.heap.Locates name t) {p : Nat} {page : Page}
    (hpage : t.pages[p]? = some page) {gone : List Row}
    (hgone : ∀ r ∈ gone, r ∈ ((t.pages.map Page.rows).take p).flatten) :
    (Page.rows page).filter (· ∉ gone) = Page.rows page := by
  have hnodup := locates.placed.nodup_rows locates.addressable
  have hpage' : (t.pages.map Page.rows)[p]? = some (Page.rows page) := by
    rw [List.getElem?_map, hpage]
    rfl
  obtain ⟨hlt, hget⟩ := List.getElem?_eq_some_iff.mp hpage'
  rw [HeapTable.rows_eq, ← List.take_append_drop p (t.pages.map Page.rows), List.flatten_append,
    List.drop_eq_getElem_cons hlt, List.flatten_cons, hget, List.nodup_append] at hnodup
  rw [List.filter_eq_self]
  intro r hr
  rw [decide_eq_true_eq]
  intro hmem
  exact hnodup.2.2 r (hgone r hmem) r (List.mem_append_left _ hr) rfl

/-- The sweep over the table removes all rows that satisfy the predicates, or fails. -/
theorem visitPages_removeRow (locates : c.heap.Locates name t) (quiet : c.Quiet)
    (suits : ∀ p ∈ ps, p.Suits t.schema) :
    Proceeds (Sweeps c t ps t.rows) (SweepFails c t ps)
      (visitPages name (Predicate.guards ps (removeRow name)) t.pages.length 0 0 c).answer
      (visitPages name (Predicate.guards ps (removeRow name)) t.pages.length 0 0 c).store := by
  have hstart : Sweeps c t ps [] 0 c := by
    refine ⟨rfl, Outage.serves_zero _, quiet, ?_, rfl⟩
    change c.heap = c.heap.update (t.without [])
    rw [HeapTable.without_nil, Heap.update_self locates.orderly locates.mem]
  have hstep := removeRow_proceeds locates suits
  rw [HeapTable.rows_eq] at hstep ⊢
  have hsweep := visitPages_proceeds name hstep ?_ 0 hstart
  · rwa [List.length_map] at hsweep
  · rintro p rows n s hrows ⟨hn, serves, removed⟩
    rw [List.getElem?_map] at hrows
    obtain ⟨page, hpage, rfl⟩ := Option.map_eq_some_iff.mp hrows
    refine ⟨{ s with reads := s.reads.next }, ?_, hn, serves, removed.quiet.afterRead,
      removed.heap_eq, removed.writes_eq⟩
    rw [removed.quiet.readPage_eq, removed.heap_eq, locates.readPage _ hpage,
      rows_page_untouched locates hpage fun r hr ↦ Predicate.mem_of_mem_selectAll hr]

end

/-! ## Writing the deletion -/

namespace Operator

variable {c : ContestedHeap} {name : String} {t : HeapTable} {ps : List Predicate}

def sieve (name : String) (schema : Schema) (ps : List Predicate) (pageCount : Nat) :
    Operator String :=
  filters (.ready none) ps (scan (.start name schema pageCount))

/-- The scan of a table under filters that have come to an end. -/
def IsSpent (name : String) (schema : Schema) (ps : List Predicate) (op : Operator String) : Prop :=
  ∃ scanned : Scan String, op = filters .exhausted ps (scan scanned) ∧ scanned.look = .exhausted
    ∧ scanned.table = name ∧ scanned.schema = schema

private theorem writeInput_delete (name : String) (tableSchema schema : Schema)
    (ps : List Predicate) (pageCount : Nat) (c : ContestedHeap) :
    ∃ scanned : Scan String, scanned.table = name ∧ scanned.schema = schema
      ∧ scanned.look = .after
          (visitPages name (Predicate.guards ps (removeRow name)) pageCount 0 0 c).answer
      ∧ writeInput ⟨.delete, name, tableSchema, false, .ready none⟩
            (sieve name schema ps pageCount) c
        = ⟨(visitPages name (Predicate.guards ps (removeRow name)) pageCount 0 0 c).answer.map
              ForInStep.value,
            filters (.after
              (visitPages name (Predicate.guards ps (removeRow name)) pageCount 0 0 c).answer) ps
              (scan scanned),
            (visitPages name (Predicate.guards ps (removeRow name)) pageCount 0 0 c).store⟩ := by
  obtain ⟨scanned, hrows, htable, hschema, hlook⟩ :=
    Scan.forRows_start name schema pageCount (Predicate.guards ps (removeRow name)) 0 c
  refine ⟨scanned, htable, hschema, hlook, ?_⟩
  rw [writeInput]
  dsimp only
  rw [sieve, forRows_filters, forRows, hrows]
  rfl

/-- If all of its writes are served, a deletion removes the rows that satisfy the predicates. -/
theorem writeInput_of_serves (locates : c.heap.Locates name t) (quiet : c.Quiet)
    (suits : ∀ p ∈ ps, p.Suits t.schema) (tableSchema schema : Schema)
    (serves : c.writes.Serves (Predicate.selectAll ps t.rows).length) :
    ∃ input' s, writeInput ⟨.delete, name, tableSchema, false, .ready none⟩
          (sieve name schema ps t.pages.length) c
        = ⟨.ok (Predicate.selectAll ps t.rows).length, input', s⟩
      ∧ input'.IsSpent name schema ps ∧ c.Removed t (Predicate.selectAll ps t.rows) s := by
  obtain ⟨scanned, htable, hschema, hlook, hwrite⟩ :=
    writeInput_delete name tableSchema schema ps t.pages.length c
  have hsweep := visitPages_removeRow locates quiet suits
  generalize visitPages name (Predicate.guards ps (removeRow name)) t.pages.length 0 0 c = reply
    at hlook hwrite hsweep
  obtain ⟨e | ⟨n⟩ | ⟨n⟩, node, s⟩ := reply
  · obtain ⟨j, cause, hlt, fails, -, -⟩ := hsweep
    exact absurd serves (fails.not_serves hlt)
  · exact hsweep.elim
  · obtain ⟨rfl, -, removed⟩ := hsweep
    exact ⟨_, s, hwrite, ⟨scanned, rfl, hlook, htable, hschema⟩, removed⟩

/-- If a write is refused, the rows before it have been removed, and no others. -/
theorem writeInput_of_failsAt (locates : c.heap.Locates name t) (quiet : c.Quiet)
    (suits : ∀ p ∈ ps, p.Suits t.schema) (tableSchema schema : Schema) {j : Nat}
    {cause : StorageError} (hlt : j < (Predicate.selectAll ps t.rows).length)
    (fails : c.writes.FailsAt j cause) :
    ∃ input' s, writeInput ⟨.delete, name, tableSchema, false, .ready none⟩
          (sieve name schema ps t.pages.length) c
        = ⟨.error (.modificationFailed j cause), input', s⟩
      ∧ s.heap = c.heap.update (t.without ((Predicate.selectAll ps t.rows).take j)) := by
  obtain ⟨scanned, -, -, -, hwrite⟩ :=
    writeInput_delete name tableSchema schema ps t.pages.length c
  have hsweep := visitPages_removeRow locates quiet suits
  generalize visitPages name (Predicate.guards ps (removeRow name)) t.pages.length 0 0 c = reply
    at hwrite hsweep
  obtain ⟨e | ⟨n⟩ | ⟨n⟩, node, s⟩ := reply
  · obtain ⟨j', cause', -, fails', rfl, hheap⟩ := hsweep
    obtain ⟨rfl, rfl⟩ := fails.unique fails'
    exact ⟨_, s, hwrite, hheap⟩
  · exact hsweep.elim
  · exact absurd hsweep.2.1 (fails.not_serves hlt)

theorem IsSpent.rewindOn {schema : Schema} {op : Operator String}
    (spent : op.IsSpent name schema ps) (quiet : c.Quiet) (ht : c.heap.table name = .ok t) :
    ∃ s, op.rewindOn c = ⟨.ok (), sieve name schema ps t.pages.length, s⟩ ∧ s.Quiet
      ∧ s.heap = c.heap := by
  obtain ⟨scanned, rfl, hlook, rfl, rfl⟩ := spent
  have hcount := quiet.pageCount_eq scanned.table
  rw [ht] at hcount
  have isOpen : Lookahead.exhausted ≠ .closed := nofun
  refine ⟨_, ?_, quiet.afterCount, rfl⟩
  rw [rewindOn_filters isOpen, Scan.rewindOn_eq (hlook ▸ isOpen) hcount]
  rfl

theorem selectAll_without (t : HeapTable) (ps : List Predicate) :
    Predicate.selectAll ps (t.without (Predicate.selectAll ps t.rows)).rows = [] := by
  rw [Predicate.selectAll, List.filter_eq_nil_iff, HeapTable.rows_without]
  intro r hr hholds
  obtain ⟨hmem, hleft⟩ := List.mem_filter.mp hr
  have hselected : r ∈ Predicate.selectAll ps t.rows := List.mem_filter.mpr ⟨hmem, hholds⟩
  simp [hselected] at hleft

private theorem openOn_deletion {c₀ c₁ : ContestedHeap} {op : Operator String}
    (built : (Plan.modify .delete name (.filters ps (.scan name))).build c₀ = (.ok op, c₁))
    (quiet : c.Quiet) (ht : c.heap.table name = .ok t) :
    ∃ tableSchema schema s, op.openOn c
        = ⟨.ok (), pending .delete name tableSchema (sieve name schema ps t.pages.length), s⟩
      ∧ s.Quiet ∧ s.heap = c.heap ∧ s.writes = c.writes := by
  obtain ⟨input, tableSchema, hinput, -, -, rfl⟩ := build_modify built
  obtain ⟨schema, -, rfl⟩ := build_filters_scan hinput
  have hcount := quiet.pageCount_eq name
  rw [ht] at hcount
  refine ⟨tableSchema, schema, _, ?_, quiet.afterCount, rfl, rfl⟩
  rw [openOn_modify, openOn_filters, Scan.openOn_eq rfl hcount]
  rfl

/-- **A deletion removes what it finds when it is opened.** Whenever and wherever it was built, a
deletion over filters over the scan of its table removes, when it is first asked for a row, the rows
that satisfied the predicates when it was opened. If each of these removals is served, it hands out
one row, their number, and rewinding it makes it hand out zero and remove nothing more, whether it
has handed out the row, holds it or has come to its end. If one of them is refused, the rows before
it have been removed, and the failure tells how many they are and why the storage refused it.
Nothing else changes. The numbers of tables, pages and slots have to fit in 32 bits, or else record
ids would not tell the rows. -/
theorem delete_handsOut {c₀ c₁ c : ContestedHeap} {op : Operator String}
    (built : (Plan.modify .delete name (.filters ps (.scan name))).build c₀ = (.ok op, c₁))
    (reachable : c.heap.Reachable) (quiet : c.Quiet) (ht : c.heap.table name = .ok t)
    (few : c.heap.tables.length ≤ 2 ^ 32) (addressable : t.Addressable)
    (suits : ∀ p ∈ ps, p.Suits t.schema) {rows : List Row}
    (hrows : rows = Predicate.selectAll ps t.rows) :
    ∃ opened s, op.openOn c = ⟨.ok (), opened, s⟩ ∧ s.heap = c.heap
      ∧ (c.writes.Serves rows.length → ∃ op' s',
          opened.HandsOut s (countRow rows.length) op' s' ∧ c.heap.Loses s'.heap name t rows
            ∧ ∀ asked, asked = op' ∨ asked = op'.buffer (countRow rows.length)
                ∨ asked = (op'.hasNext s').node →
                ∃ rewound s'' op'' s''', asked.rewindOn s' = ⟨.ok (), rewound, s''⟩
                  ∧ rewound.HandsOut s'' (countRow 0) op'' s''' ∧ s'''.heap = s'.heap)
      ∧ ∀ j < rows.length, ∀ cause, c.writes.FailsAt j cause → ∃ op' s',
          opened.Fails s (.modificationFailed j cause) op' s'
            ∧ c.heap.Loses s'.heap name t (rows.take j) := by
  subst hrows
  obtain ⟨tableSchema, schema, s, hopened, quiet', hheap, hwrites⟩ := openOn_deletion built quiet ht
  have locates := reachable.locates ht few addressable
  rw [← hheap] at locates
  rw [← hwrites, ← hheap]
  refine ⟨_, s, hopened, rfl, fun serves ↦ ?_, fun j hlt cause fails ↦ ?_⟩
  · obtain ⟨input', s', hwrite, hspent, removed⟩ :=
      writeInput_of_serves locates quiet' suits tableSchema schema serves
    have hloses := locates.loses (Predicate.selectAll ps t.rows)
    have locates' := locates.without (Predicate.selectAll ps t.rows)
    rw [← removed.heap_eq] at hloses locates'
    refine ⟨_, s', handsOut_pending hwrite, hloses, ?_⟩
    -- What is left of the table has no row that satisfies the predicates.
    obtain ⟨s'', hrewind, quiet'', hheap''⟩ := hspent.rewindOn removed.quiet locates'.table_eq
    rw [← hheap''] at locates' ⊢
    have hnone := selectAll_without t ps
    have serves' : s''.writes.Serves
        (Predicate.selectAll ps (t.without (Predicate.selectAll ps t.rows)).rows).length := by
      rw [hnone]
      exact Outage.serves_zero _
    obtain ⟨input'', s''', hwrite', -, removed'⟩ :=
      writeInput_of_serves locates' quiet'' suits tableSchema schema serves'
    rw [hnone] at hwrite'
    have hsame : s'''.heap = s''.heap := by
      rw [removed'.heap_eq, hnone, HeapTable.without_nil]
      exact Heap.update_self locates'.orderly locates'.mem
    intro asked hasked
    refine ⟨_, s'', _, s''', ?_, handsOut_pending hwrite', hsame⟩
    rw [rewindOn_handedOut hasked, hrewind]
    rfl
  · obtain ⟨input', s', hwrite, hheap'⟩ :=
      writeInput_of_failsAt locates quiet' suits tableSchema schema hlt fails
    have hloses := locates.loses ((Predicate.selectAll ps t.rows).take j)
    rw [← hheap'] at hloses
    exact ⟨_, s', fails_pending hwrite, hloses⟩

/-- The deletion of the numbers above six from a table that has a smaller one between them: with all
writes served, and it is rewound when it has come to its end, and with all but the first refused. -/
theorem delete_handsOut_above_six :
    ∃ op t, (Plan.modify .delete "t" (.filters [⟨0, .gt, .integer 6⟩] (.scan "t"))).build
          (ContestedHeap.ofHeap Plan.heapAroundSix) = (.ok op, .ofHeap Plan.heapAroundSix)
      ∧ Plan.heapAroundSix.table "t" = .ok t
      ∧ t.rows.map Row.values = [[.integer 7], [.integer 5], [.integer 9]]
      ∧ (∃ opened s op' s' rewound s'' op'' s''',
        op.openOn (ContestedHeap.ofHeap Plan.heapAroundSix) = ⟨.ok (), opened, s⟩
        ∧ opened.HandsOut s (countRow 2) op' s'
        ∧ Plan.heapAroundSix.Loses s'.heap "t" t
            [⟨[.integer 7], some ⟨1, 0, 0⟩⟩, ⟨[.integer 9], some ⟨1, 1, 1⟩⟩]
        ∧ (op'.hasNext s').node.rewindOn s' = ⟨.ok (), rewound, s''⟩
        ∧ rewound.HandsOut s'' (countRow 0) op'' s''' ∧ s'''.heap = s'.heap)
      ∧ ∃ opened s op' s', op.openOn { ContestedHeap.ofHeap Plan.heapAroundSix with
            writes := .failing Outage.noRoom 1 } = ⟨.ok (), opened, s⟩
        ∧ opened.Fails s (.modificationFailed 1 Outage.noRoom) op' s'
        ∧ Plan.heapAroundSix.Loses s'.heap "t" t [⟨[.integer 7], some ⟨1, 0, 0⟩⟩] := by
  have built : (Plan.modify .delete "t" (.filters [⟨0, .gt, .integer 6⟩] (.scan "t"))).build
      (ContestedHeap.ofHeap Plan.heapAroundSix) = (.ok _, .ofHeap Plan.heapAroundSix) := rfl
  have reachable : Plan.heapAroundSix.Reachable := ⟨2, _, rfl⟩
  have ht : Plan.heapAroundSix.table "t" = .ok _ := rfl
  have suits : ∀ p ∈ [(⟨0, .gt, .integer 6⟩ : Predicate)], p.Suits ⟨[⟨"n", .integer⟩]⟩ := by decide
  have quiet := ContestedHeap.quiet_ofHeap Plan.heapAroundSix
  refine ⟨_, _, built, ht, rfl, ?_, ?_⟩
  · obtain ⟨opened, s, hopened, -, hserves, -⟩ := delete_handsOut built reachable (quiet .none) ht
      (by decide) ⟨by decide, by decide⟩ suits rfl
    obtain ⟨op', s', hhands, hloses, hrewind⟩ := hserves (by decide)
    obtain ⟨rewound, s'', op'', s''', hrewound, hzero, hsame⟩ := hrewind _ (.inr (.inr rfl))
    exact ⟨opened, s, op', s', rewound, s'', op'', s''', hopened, hhands, hloses, hrewound, hzero,
      hsame⟩
  · obtain ⟨opened, s, hopened, -, -, hfails⟩ := delete_handsOut built reachable
      (quiet (.failing Outage.noRoom 1)) ht (by decide) ⟨by decide, by decide⟩ suits rfl
    obtain ⟨op', s', hfail, hloses⟩ := hfails 1 (by decide) _ ⟨by decide, rfl⟩
    exact ⟨opened, s, op', s', hopened, hfail, hloses⟩

end Operator

end QueryEngine
