import QueryEngine.Proofs.Operator.Frame
import QueryEngine.Proofs.Operator.Modify
import QueryEngine.Proofs.Operator.ReadOnly
import QueryEngine.Proofs.Storage.Growth
import QueryEngine.Proofs.Storage.Quiet

/-!
# Inserting the rows of a plan

An insertion collects all rows of its input before it writes the first one. So it does not matter
that the input may read the very table that is written to: the rows are those of the plan on the
heap as it was (`Plan.rows`), and whatever goes wrong while they are collected, nothing has been
written.

The rows conform to the schema of the table, for this is what the schemas were compared for when the
insertion was built. So only a refusal keeps a row from being stored, and it leaves the rows before
it stored.
-/

namespace QueryEngine

namespace ContestedHeap

/-! ## Reading -/

/-- On a quiet heap, tables show their pages, whatever is read. -/
theorem Quiet.shows {h : Heap} (sound : h.Sound) :
    ∀ s : ContestedHeap, s.Quiet ∧ s.heap = h → ∀ table schema,
      Storage.tableSchema s table = .ok schema →
        Displays (fun s : ContestedHeap ↦ s.Quiet ∧ s.heap = h) table (h.shown table)
          ∧ ∀ r ∈ (h.shown table).flatten, r.Conforms schema := by
  rintro s ⟨quiet, rfl⟩ table schema hschema
  rw [quiet.tableSchema_eq] at hschema
  obtain ⟨t, ht, rfl⟩ := Heap.tableSchema_eq_ok hschema
  have displays := s.heap.displays ht
  refine ⟨⟨?_, ?_⟩, fun r hr ↦ sound.conforms_of_mem_shown ht hr⟩
  · rintro s' ⟨quiet', hheap⟩
    obtain ⟨_, hcount, -⟩ := displays.pageCount_eq _ rfl
    refine ⟨_, ?_, quiet'.afterCount, hheap⟩
    rw [quiet'.pageCount_eq, hheap]
    exact congrArg (·, _) (congrArg Prod.fst hcount)
  · rintro s' p rows ⟨quiet', hheap⟩ hrows
    obtain ⟨_, hread, -⟩ := displays.readPage_eq _ p rows rfl hrows
    refine ⟨_, ?_, quiet'.afterRead, hheap⟩
    rw [quiet'.readPage_eq, hheap]
    exact congrArg (·, _) (congrArg Prod.fst hread)

/-- Nobody else writes, and the heap and the count of writes are the given ones. -/
def Alone (h : Heap) (writes : Outage) (s : ContestedHeap) : Prop :=
  (∀ n, s.edits n = []) ∧ s.heap = h ∧ s.writes = writes

/-- Reading changes neither the heap nor the count of writes, unless somebody else writes. -/
theorem closed_alone (h : Heap) (writes : Outage) : Storage.Closed (Alone h writes) where
  pageCount := by
    rintro table s ⟨alone, hheap, hwrites⟩
    change Alone h writes (s.pageCount table).2
    rw [ContestedHeap.pageCount]
    split
    · exact ⟨alone, hheap, hwrites⟩
    · rw [alone]
      exact ⟨alone, hheap, hwrites⟩
  readPage := by
    rintro table page s ⟨alone, hheap, hwrites⟩
    change Alone h writes (s.readPage table page).2
    rw [ContestedHeap.readPage]
    split
    · exact ⟨alone, hheap, hwrites⟩
    · exact ⟨alone, hheap, hwrites⟩

/-! ## Storing -/

structure Added (c : ContestedHeap) (t : HeapTable) (rows : List Row) (s : ContestedHeap) :
    Prop where
  heap_eq : s.heap = c.heap.update (t.appendAll c.heap.capacity rows)
  writes_eq : s.writes = c.writes.skip rows.length

variable {c : ContestedHeap} {name : String} {t : HeapTable}

theorem storeRows_added (orderly : c.heap.Orderly) (ht : c.heap.table name = .ok t)
    {rest done : List Row} (conforms : ∀ r ∈ rest, r.Conforms t.schema) {s : ContestedHeap}
    (added : c.Added t done s) (serves : c.writes.Serves done.length) :
    (∃ s', storeRows name rest done.length s = (.ok (done ++ rest).length, s')
        ∧ c.writes.Serves (done ++ rest).length ∧ c.Added t (done ++ rest) s')
      ∨ ∃ j cause s', storeRows name rest done.length s
          = (.error (.modificationFailed j cause), s')
        ∧ j < (done ++ rest).length ∧ c.writes.FailsAt j cause
        ∧ s'.heap = c.heap.update (t.appendAll c.heap.capacity ((done ++ rest).take j)) := by
  induction rest generalizing done s with
  | nil =>
    rw [List.append_nil]
    exact Or.inl ⟨s, rfl, serves, added⟩
  | cons r rest ih =>
    have hnext : s.writes.refusal = (c.writes.skip done.length).refusal := by
      rw [added.writes_eq]
    rw [storeRows]
    rcases hrefused : (c.writes.skip done.length).refusal with _ | cause
    · obtain ⟨id, hinsert⟩ :=
        Heap.insert_appendAll orderly ht (conforms r List.mem_cons_self) done
      rw [← added.heap_eq] at hinsert
      rw [insert_of_served (hnext.trans hrefused) hinsert]
      have hlength : done.length + 1 = (done ++ [r]).length := by simp
      have happend : done ++ r :: rest = done ++ [r] ++ rest := by simp
      dsimp only
      rw [hlength, happend]
      refine ih (fun r' hr' ↦ conforms r' (List.mem_cons_of_mem _ hr')) ⟨rfl, ?_⟩ ?_
      · rw [added.writes_eq, ← hlength]
        rfl
      · rw [← hlength]
        exact serves.succ hrefused
    · rw [insert_of_refused (hnext.trans hrefused)]
      refine Or.inr ⟨done.length, cause, _, rfl, by simp, ⟨serves, hrefused⟩, ?_⟩
      rw [List.take_left]
      exact added.heap_eq

end ContestedHeap

/-! ## The insertion -/

namespace Operator

theorem WritesNothing.of_sound {σ τ : Type} [Storage σ τ] {states : σ → Prop}
    {pages : τ → List (List Row)} {op : Operator τ} (sound : op.Sound states pages) :
    op.WritesNothing := by
  induction op with
  | values v => trivial
  | scan c => trivial
  | filter p look input ih => exact ih sound.1
  | modify b input ih => exact sound.elim
  | aggregate spec schema groups input ih => exact ih sound.1

variable {c : ContestedHeap} {name : String} {t : HeapTable} {input : Operator String}
  {tableSchema : Schema}

theorem writeInput_of_collect_error {e : QueryError}
    (hcollect : (input.collect c).answer = .error e) :
    writeInput ⟨.insert, name, tableSchema, false, .ready none⟩ input c
      = ⟨.error e, (input.forRows gather [] c).node, (input.forRows gather [] c).store⟩ := by
  rw [writeInput]
  rcases hrows : input.forRows gather [] c with ⟨e' | rows, input', s⟩
  · rw [collect, hrows] at hcollect
    cases hcollect
    rfl
  · rw [collect, hrows] at hcollect
    cases hcollect

/-- The rows of the input, all of which are collected first, are stored up to the first refusal. -/
theorem writeInput_insert (name : String) (tableSchema : Schema) {states : ContestedHeap → Prop}
    {pages : String → List (List Row)} (sound : input.Sound states pages)
    (running : input.Running pages) (hs : states c) :
    ∃ input' s, writeInput ⟨.insert, name, tableSchema, false, .ready none⟩ input c
        = ⟨(storeRows name (input.remaining pages) 0 s).1, input',
          (storeRows name (input.remaining pages) 0 s).2⟩
      ∧ states s ∧ s = (input.forRows gather [] c).store := by
  have hwalk := forRows_walks sound running gatherStep [] hs
  have hanswer := hwalk.answer_eq
  rw [walk_gatherStep, ← gather_eq] at hanswer
  refine ⟨(input.forRows gather [] c).node, _, ?_, hwalk.store, rfl⟩
  rw [writeInput]
  dsimp only
  rw [hanswer]
  dsimp only [ForInStep.value]
  rw [List.append_nil, List.reverse_reverse]
  rfl

/-- If its input fails, when it is opened or when its rows are collected, an insertion fails in the
same way, and nothing has been written. -/
private theorem insertion_fails (writesNothing : input.WritesNothing) (alone : ∀ n, c.edits n = [])
    (name : String) (tableSchema : Schema) :
    (∀ e, (input.openOn c).answer = .error e → ∃ op' s',
        (modify ⟨.insert, name, tableSchema, false, .closed⟩ input).openOn c = ⟨.error e, op', s'⟩
          ∧ s'.heap = c.heap ∧ s'.writes = c.writes)
      ∧ ∀ input' s e, input.openOn c = ⟨.ok (), input', s⟩ → (input'.collect s).answer = .error e →
        ∃ opened op' s',
          (modify ⟨.insert, name, tableSchema, false, .closed⟩ input).openOn c = ⟨.ok (), opened, s⟩
          ∧ opened.Fails s e op' s' ∧ s'.heap = c.heap ∧ s'.writes = c.writes := by
  have closed := ContestedHeap.closed_alone c.heap c.writes
  have hopened := writesNothing.openOn closed ⟨alone, rfl, rfl⟩
  rw [openOn_modify]
  constructor
  · intro e he
    rcases hinput : input.openOn c with ⟨answer, input', s⟩
    rw [hinput] at he hopened
    obtain rfl : answer = .error e := he
    exact ⟨_, s, rfl, hopened.2⟩
  · intro input' s e hinput hcollect
    have hbare := input.bare_openOn c
    rw [hinput] at hopened hbare ⊢
    have hrows := (writesNothing.of_bare_eq hbare).forRows closed gatherStep [] hopened
    exact ⟨_, _, _, rfl, fails_pending (writeInput_of_collect_error hcollect), hrows.2⟩

private theorem insertion_writes {h : Heap}
    (sound : input.Sound (fun s : ContestedHeap ↦ s.Quiet ∧ s.heap = h) h.shown)
    (resting : input.Resting h.shown) (quiet : c.Quiet) (hsame : c.heap = h)
    (reachable : c.heap.Reachable) (few : c.heap.tables.length ≤ 2 ^ 32)
    (ht : c.heap.table name = .ok t)
    (conforms : ∀ r ∈ input.listing h.shown, r.Conforms t.schema) :
    ∃ opened s, (modify ⟨.insert, name, t.schema, false, .closed⟩ input).openOn c
        = ⟨.ok (), opened, s⟩ ∧ s.heap = c.heap
      ∧ (c.writes.Serves (input.listing h.shown).length → ∃ op' s',
          opened.HandsOut s (countRow (input.listing h.shown).length) op' s'
            ∧ c.heap.Gains s'.heap name t (input.listing h.shown))
      ∧ ∀ j < (input.listing h.shown).length, ∀ cause, c.writes.FailsAt j cause → ∃ op' s',
          opened.Fails s (.modificationFailed j cause) op' s'
            ∧ c.heap.Gains s'.heap name t ((input.listing h.shown).take j) := by
  have orderly := reachable.orderly few
  have writesNothing := WritesNothing.of_sound sound
  have closed := ContestedHeap.closed_alone c.heap c.writes
  -- Opening and collecting change neither the heap nor the count of writes.
  have hopened := writesNothing.openOn closed ⟨quiet.edits, rfl, rfl⟩
  have starts := openOn_starts sound resting (s := c) ⟨quiet, hsame⟩
  rw [openOn_modify]
  generalize input.openOn c = reply at hopened starts ⊢
  obtain ⟨answer, input', s⟩ := reply
  obtain ⟨rfl, running, hremaining, hbare, hs⟩ := starts
  dsimp only at hopened running hremaining hbare hs
  have hcollected : ContestedHeap.Alone c.heap c.writes (input'.forRows gather [] s).store :=
    (writesNothing.of_bare_eq hbare).forRows closed gatherStep [] hopened
  obtain ⟨input'', s', hwrite, -, rfl⟩ :=
    writeInput_insert name t.schema (sound.of_bare_eq hbare) running hs
  rw [hremaining] at hwrite
  have added : c.Added t [] (input'.forRows gather [] s).store := by
    refine ⟨?_, hcollected.2.2⟩
    rw [hcollected.2.1]
    exact (Heap.update_self orderly (Heap.mem_of_table ht)).symm
  have hstored := ContestedHeap.storeRows_added orderly ht conforms added c.writes.serves_zero
  rw [List.nil_append, List.length_nil] at hstored
  refine ⟨_, s, rfl, hopened.2.1, fun serves ↦ ?_, fun j hlt cause fails ↦ ?_⟩
  · rcases hstored with ⟨s', hstore, -, added'⟩ | ⟨j, cause, s', -, hlt, fails, -⟩
    · rw [hstore] at hwrite
      refine ⟨_, s', handsOut_pending hwrite, ?_⟩
      rw [added'.heap_eq]
      exact Heap.gains_appendAll reachable few ht conforms
    · exact absurd serves (fails.not_serves hlt)
  · rcases hstored with ⟨s', -, serves, -⟩ | ⟨j', cause', s', hstore, -, fails', hheap⟩
    · exact absurd serves (fails.not_serves hlt)
    · obtain ⟨rfl, rfl⟩ := fails.unique fails'
      rw [hstore] at hwrite
      refine ⟨_, s', fails_pending hwrite, ?_⟩
      rw [hheap]
      exact Heap.gains_appendAll reachable few ht fun r hr ↦ conforms r (List.mem_of_mem_take hr)

/-- **An insertion adds the rows that its plan has before the first write.** Let an insertion into a
table be built over a plan of listed rows, scans, filters and aggregations, and opened while the
heap is the same and nobody else writes. If its input fails, so does the insertion, and nothing has
been written. Otherwise it adds, when it is first asked for a row, the rows of the plan, whose
tables may include the one that is written to. If each of these writes is served, it hands out one
row, their number. If one is refused, the rows before it have been added, and the failure tells how
many they are and why the storage refused it; there is no other failure. Nothing else changes. -/
theorem insert_handsOut {plan : Plan String} (readOnly : plan.ReadOnly) {c₀ c₁ c : ContestedHeap}
    {op : Operator String} (built : (Plan.modify .insert name plan).build c₀ = (.ok op, c₁))
    (typed : op.WellTyped) (reachable : c₀.heap.Reachable) (quiet₀ : c₀.Quiet)
    (few : c₀.heap.tables.length ≤ 2 ^ 32) (ht : c₀.heap.table name = .ok t)
    (same : c.heap = c₁.heap) (alone : ∀ n, c.edits n = []) {rows : List Row}
    (hrows : rows = plan.rows c₀.heap.shown) :
    c.heap = c₀.heap
      ∧ (∃ input, op.children = [input]
        ∧ (∀ e, (input.openOn c).answer = .error e → ∃ op' s',
            op.openOn c = ⟨.error e, op', s'⟩ ∧ s'.heap = c.heap ∧ s'.writes = c.writes)
        ∧ ∀ input' s e, input.openOn c = ⟨.ok (), input', s⟩ →
            (input'.collect s).answer = .error e → ∃ opened op' s',
              op.openOn c = ⟨.ok (), opened, s⟩ ∧ opened.Fails s e op' s'
                ∧ s'.heap = c.heap ∧ s'.writes = c.writes)
      ∧ (c.Quiet → ∃ opened s, op.openOn c = ⟨.ok (), opened, s⟩ ∧ s.heap = c.heap
        ∧ (c.writes.Serves rows.length → ∃ op' s',
            opened.HandsOut s (countRow rows.length) op' s' ∧ c.heap.Gains s'.heap name t rows)
        ∧ ∀ j < rows.length, ∀ cause, c.writes.FailsAt j cause → ∃ op' s',
            opened.Fails s (.modificationFailed j cause) op' s'
              ∧ c.heap.Gains s'.heap name t (rows.take j)) := by
  obtain ⟨input, tableSchema, hinput, hschema, fits, rfl⟩ := build_modify built
  have typed' : input.WellTyped := typed
  have shows := ContestedHeap.Quiet.shows reachable.sound
  obtain ⟨⟨quiet₁, hheap₁⟩, sound, resting, hlisting⟩ :=
    Plan.build_sound shows readOnly ⟨quiet₀, rfl⟩ hinput typed'
  have hsame : c.heap = c₀.heap := same.trans hheap₁
  have writesNothing := WritesNothing.of_sound sound
  rw [quiet₁.tableSchema_eq, hheap₁, ht] at hschema
  obtain rfl : t.schema = tableSchema := Except.ok.inj hschema
  rw [← hlisting] at hrows
  subst hrows
  have conforms : ∀ r ∈ input.listing c₀.heap.shown, r.Conforms t.schema :=
    fun r hr ↦ (sound.conforms hr).of_fits fits
  refine ⟨hsame, ⟨input, rfl, insertion_fails writesNothing alone name t.schema⟩, fun quiet ↦ ?_⟩
  exact insertion_writes sound resting quiet hsame (hsame ▸ reachable) (hsame ▸ few) (hsame ▸ ht)
    conforms

/-- A table with a gap that is inserted into itself: with all writes served, with all but the first
one refused, and with all page reads but the first one refused. -/
theorem insert_handsOut_into_itself :
    ∃ op t, (Plan.modify .insert "t" (.scan "t")).build (ContestedHeap.ofHeap Plan.heapWithGap)
          = (.ok op, .ofHeap Plan.heapWithGap)
      ∧ Plan.heapWithGap.table "t" = .ok t
      ∧ (∃ opened s op' s', op.openOn (ContestedHeap.ofHeap Plan.heapWithGap) = ⟨.ok (), opened, s⟩
        ∧ opened.HandsOut s (countRow 2) op' s' ∧ Plan.heapWithGap.Gains s'.heap "t" t t.rows)
      ∧ (∃ opened s op' s', op.openOn { ContestedHeap.ofHeap Plan.heapWithGap with
            writes := .failing Outage.noRoom 1 } = ⟨.ok (), opened, s⟩
        ∧ opened.Fails s (.modificationFailed 1 Outage.noRoom) op' s'
        ∧ Plan.heapWithGap.Gains s'.heap "t" t (t.rows.take 1))
      ∧ ∃ opened s op' s', op.openOn { ContestedHeap.ofHeap Plan.heapWithGap with
            reads := .failing Outage.badPage 1 } = ⟨.ok (), opened, s⟩
        ∧ opened.Fails s (.storage Outage.badPage) op' s' ∧ s'.heap = Plan.heapWithGap := by
  have built : (Plan.modify .insert "t" (.scan "t")).build
      (ContestedHeap.ofHeap Plan.heapWithGap) = (.ok _, .ofHeap Plan.heapWithGap) := rfl
  have readOnly : (Plan.scan "t").ReadOnly := trivial
  have reachable : Plan.heapWithGap.Reachable := ⟨2, _, rfl⟩
  have ht : Plan.heapWithGap.table "t" = .ok _ := rfl
  have quiet := ContestedHeap.quiet_ofHeap Plan.heapWithGap
  refine ⟨_, _, built, ht, ?_, ?_, ?_⟩
  · obtain ⟨-, -, hquiet⟩ := insert_handsOut (c := .ofHeap Plan.heapWithGap) readOnly built trivial
      reachable (quiet .none) (by decide) ht rfl (fun _ ↦ rfl) rfl
    obtain ⟨opened, s, hopened, -, hserves, -⟩ := hquiet (quiet .none)
    obtain ⟨op', s', hhands, hgains⟩ := hserves (by decide)
    exact ⟨opened, s, op', s', hopened, hhands, hgains⟩
  · obtain ⟨-, -, hquiet⟩ := insert_handsOut
      (c := { ContestedHeap.ofHeap Plan.heapWithGap with writes := .failing Outage.noRoom 1 })
      readOnly built trivial reachable (quiet .none) (by decide) ht rfl (fun _ ↦ rfl) rfl
    obtain ⟨opened, s, hopened, -, -, hfails⟩ := hquiet (quiet (.failing Outage.noRoom 1))
    obtain ⟨op', s', hfail, hgains⟩ := hfails 1 (by decide) _ ⟨by decide, rfl⟩
    exact ⟨opened, s, op', s', hopened, hfail, hgains⟩
  · obtain ⟨-, ⟨input, hinput, -, hfails⟩, -⟩ := insert_handsOut
      (c := { ContestedHeap.ofHeap Plan.heapWithGap with reads := .failing Outage.badPage 1 })
      readOnly built trivial reachable (quiet .none) (by decide) ht rfl (fun _ ↦ rfl) rfl
    obtain rfl := List.singleton_inj.mp hinput
    obtain ⟨opened, op', s', hopened, hfail, hheap, -⟩ :=
      hfails _ _ (.storage Outage.badPage) rfl rfl
    exact ⟨opened, _, op', s', hopened, hfail, hheap⟩

end Operator

end QueryEngine
