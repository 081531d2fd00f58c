import QueryEngine.Proofs.Operator.History
import QueryEngine.Proofs.Operator.ReadOnly
import QueryEngine.Proofs.Operator.Retry
import QueryEngine.Proofs.Operator.Sweep

/-!
# Page reads that fail

A page that cannot be read makes a request for a row fail. The rows before it may have been looked
at already, by filters that did not let them through, but none that a filter lets through is lost:
the operator stands in its list of rows where it stood before (`Operator.pull_of_breaks`). So
whoever goes on after failures gets the rows of the list one after the other, as from a cursor
(`Operator.serveAll_hands`), and from a storage that has recovered gets the rest of them.

The failures are those that a contested heap injects into page reads. Which reads fail is arbitrary,
and the heap is the same before and after.
-/

namespace QueryEngine

variable {σ τ : Type}

/-! ## What answers hand out -/

def Response.row? : Except QueryError Response → Option Row
  | .ok (.row r) => some r
  | _ => none

def handedOut (answers : List (Except QueryError Response)) : List Row :=
  answers.filterMap Response.row?

theorem handedOut_cons (answer : Except QueryError Response)
    (answers : List (Except QueryError Response)) :
    handedOut (answer :: answers) = (Response.row? answer).toList ++ handedOut answers := by
  rw [handedOut, List.filterMap_cons]
  cases Response.row? answer <;> rfl

/-! ## Requests for a row -/

theorem Cursor.serve_of_isPull (rows : List Row) (k : Nat) {q : Request} (hq : q.isPull = true) :
    ∃ k', (Cursor.serve rows (some k) q).2 = some k' := by
  cases q with
  | hasNext => exact ⟨k, rfl⟩
  | next =>
    rw [Cursor.serve]
    split
    · exact ⟨k + 1, rfl⟩
    · exact ⟨k, rfl⟩
  | opening | rewinding | closing => cases hq

namespace Operator

variable [Storage σ τ] {refused : StorageError → Prop} {states : σ → Prop}
  {pages : τ → List (List Row)} {op : Operator τ} {s : σ} {k : Nat}

theorem readsPages_bare (op : Operator τ) :
    op.bare.ReadsPages refused states pages ↔ op.ReadsPages refused states pages := by
  induction op with
  | values v => rfl
  | scan c => rfl
  | filter p look input ih => exact ih
  | modify b input => rfl
  | aggregate spec schema groups input => rfl

theorem ReadsPages.of_bare_eq {op' : Operator τ} (reads : op.ReadsPages refused states pages)
    (h : op'.bare = op.bare) : op'.ReadsPages refused states pages := by
  rwa [← readsPages_bare, h, readsPages_bare]

/-- The call failed in the given way, and the operator stands where it stood. -/
structure Retains (op : Operator τ) (refused : StorageError → Prop) (states : σ → Prop)
    (pages : τ → List (List Row)) (k : Nat) {α : Type} (reply : Reply (Operator τ) σ α) : Prop where
  answer : ∃ e, refused e ∧ reply.answer = .error (.storage e)
  stands : reply.node.Stands pages (some k)
  bare_eq : reply.node.bare = op.bare
  store : states reply.store

theorem pull_of_breaks (stands : op.Stands pages (some k))
    (breaks : (op.forRows firstStep.visitor none s).Breaks refused states (Running pages)
      (remaining pages) firstStep (op.remaining pages) none) :
    op.Retains refused states pages k (op.pull s) := by
  have hbare : (op.forRows takeFirst none s).node.bare = op.bare := op.bare_forRows takeFirst none s
  obtain ⟨⟨e, he, hanswer⟩, ⟨seen, a, hrows, hseen⟩, hstore, hrunning⟩ := breaks
  -- The first row that is let through ends a pull.
  have hnone : seen = [] := by
    cases seen with
    | nil => rfl
    | cons r seen => cases hseen
  rw [hnone, List.nil_append] at hrows
  rw [← takeFirst_eq] at hrows hanswer hstore hrunning
  refine ⟨⟨e, he, ?_⟩, ⟨hrunning, ?_⟩, hbare, hstore⟩
  · rw [pull, Reply.map, hanswer]
    rfl
  · change (op.forRows takeFirst none s).node.remaining pages
      = ((op.forRows takeFirst none s).node.listing pages).drop k
    rw [listing_eq_of_bare_eq hbare, ← stands.2, ← hrows]

/-- A request for a row is answered as a cursor answers it, or it fails in the given way and the
operator stands where it stood. -/
theorem serve_attempts {σ' : Type} [Storage σ' τ] {served : σ' → Prop}
    (sound : op.Sound served pages) (reads : op.ReadsPages refused states pages)
    (stands : op.Stands pages (some k)) (hs : states s) {q : Request} (hq : q.isPull = true) :
    op.Matches states pages (op.serve s q) (Cursor.serve (op.listing pages) (some k) q)
      ∨ op.Retains refused states pages k (op.serve s q) := by
  rcases forRows_attempts sound reads stands.1 firstStep none hs with hwalk | hbreaks
  · have takes := takes_of_walks hwalk
    cases q with
    | hasNext => exact .inl (takes.serve_hasNext_matches stands)
    | next => exact .inl (takes.serve_next_matches stands)
    | opening | rewinding | closing => cases hq
  · have retains := pull_of_breaks stands hbreaks
    obtain ⟨e, he, hanswer⟩ := retains.answer
    obtain ⟨hanswer', hnode⟩ := op.serve_of_pull_error s hq hanswer
    refine .inr ⟨⟨e, he, hanswer'⟩, hnode ▸ retains.stands, hnode ▸ retains.bare_eq, ?_⟩
    rw [op.store_of_isPull s hq]
    exact retains.store

/-- After a request for a row, the operator stands behind the row that it handed out, if it did. -/
theorem serve_hands {σ' : Type} [Storage σ' τ] {served : σ' → Prop} (sound : op.Sound served pages)
    (reads : op.ReadsPages refused states pages) (stands : op.Stands pages (some k))
    (hs : states s) {q : Request} (hq : q.isPull = true) :
    ∃ k', (op.serve s q).node.Stands pages (some k') ∧ (op.serve s q).node.bare = op.bare
      ∧ states (op.serve s q).store
      ∧ (op.listing pages).drop k
        = (Response.row? (op.serve s q).answer).toList ++ (op.listing pages).drop k' := by
  rcases serve_attempts sound reads stands hs hq with hmatches | hretains
  · have hanswer := hmatches.answer_eq
    have hstands := hmatches.stands
    cases q with
    | hasNext =>
      refine ⟨k, hstands, hmatches.bare_eq, hmatches.store, ?_⟩
      rcases hserved : (op.serve s .hasNext).answer with e | response
      · rfl
      · rw [hserved] at hanswer
        cases hanswer
        rfl
    | next =>
      rw [Cursor.serve] at hanswer hstands
      rcases hk : (op.listing pages)[k]? with _ | r
      · rw [hk] at hanswer hstands
        refine ⟨k, hstands, hmatches.bare_eq, hmatches.store, ?_⟩
        rcases hserved : (op.serve s .next).answer with e | response
        · rfl
        · rw [hserved] at hanswer
          cases hanswer
      · rw [hk] at hanswer hstands
        refine ⟨k + 1, hstands, hmatches.bare_eq, hmatches.store, ?_⟩
        obtain ⟨hlt, rfl⟩ := List.getElem?_eq_some_iff.mp hk
        rcases hserved : (op.serve s .next).answer with e | response
        · rw [hserved] at hanswer
          cases hanswer
        · rw [hserved] at hanswer
          cases hanswer
          exact List.drop_eq_getElem_cons hlt
    | opening | rewinding | closing => cases hq
  · obtain ⟨e, -, hanswer⟩ := hretains.answer
    refine ⟨k, hretains.stands, hretains.bare_eq, hretains.store, ?_⟩
    rw [hanswer]
    rfl

/-- After requests for rows, the operator stands behind the rows that it handed out, which are those
that it stood before. -/
theorem serveAll_hands {σ' : Type} [Storage σ' τ] {served : σ' → Prop}
    (sound : op.Sound served pages) (reads : op.ReadsPages refused states pages)
    (stands : op.Stands pages (some k)) (hs : states s) {requests : List Request}
    (pulls : ∀ q ∈ requests, q.isPull = true) :
    ∃ k', (op.serveAll s requests).2.1.Stands pages (some k')
      ∧ (op.serveAll s requests).2.1.bare = op.bare ∧ states (op.serveAll s requests).2.2
      ∧ (op.listing pages).drop k
        = handedOut (op.serveAll s requests).1 ++ (op.listing pages).drop k' := by
  induction requests generalizing op k s with
  | nil => exact ⟨k, stands, rfl, hs, rfl⟩
  | cons q rest ih =>
    obtain ⟨k', hstands, hbare, hstore, hrow⟩ :=
      serve_hands sound reads stands hs (pulls q List.mem_cons_self)
    obtain ⟨k'', hstands', hbare', hstore', hrows⟩ :=
      ih (sound.of_bare_eq hbare) (reads.of_bare_eq hbare) hstands hstore
        fun q hq ↦ pulls q (List.mem_cons_of_mem _ hq)
    rw [listing_eq_of_bare_eq hbare] at hrows
    refine ⟨k'', hstands', hbare'.trans hbare, hstore', ?_⟩
    rw [hrow, hrows, ← List.append_assoc, ← handedOut_cons]
    rfl

/-! ## Storages that have recovered -/

section

variable {σ' : Type} [Storage σ' τ] {served : σ' → Prop}

theorem collect_eq (sound : op.Sound served pages)
    (reads : op.ReadsPages (fun _ ↦ False) states pages) (running : op.Running pages)
    (hs : states s) : (op.collect s).answer = .ok (op.remaining pages) := by
  have hwalk := (forRows_attempts sound reads running gatherStep [] hs).walks
  rw [collect, Reply.map, gather_eq, hwalk.answer_eq, walk_gatherStep]
  simp [Except.map, ForInStep.value]

/-- An operator that rests collects its listing when it is executed. -/
theorem execute_eq (sound : op.Sound states pages) (resting : op.Resting pages) (hs : states s) :
    (op.execute s).answer = .ok (op.listing pages) := by
  have hstarts := openOn_starts sound resting hs
  rw [execute]
  generalize op.openOn s = reply at hstarts
  obtain ⟨answer, op', s'⟩ := reply
  obtain ⟨rfl, hrunning, hremaining, hbare, hs'⟩ := hstarts
  have hsound := sound.of_bare_eq hbare
  exact (collect_eq hsound hsound.readsPages hrunning hs').trans (congrArg Except.ok hremaining)

theorem serveAll_pulls_eq (sound : op.Sound served pages)
    (reads : op.ReadsPages (fun _ ↦ False) states pages) (stands : op.Stands pages (some k))
    (hs : states s) {requests : List Request} (pulls : ∀ q ∈ requests, q.isPull = true) :
    (op.serveAll s requests).1.map (·.mapError QueryError.kind)
      = Cursor.serveAll (op.listing pages) (some k) requests := by
  induction requests generalizing op k s with
  | nil => rfl
  | cons q rest ih =>
    have hq := pulls q List.mem_cons_self
    rcases serve_attempts sound reads stands hs hq with hmatches | hretains
    · obtain ⟨k', hk'⟩ := Cursor.serve_of_isPull (op.listing pages) k hq
      have hstands := hmatches.stands
      rw [hk'] at hstands
      have hrest := ih (sound.of_bare_eq hmatches.bare_eq) (reads.of_bare_eq hmatches.bare_eq)
        hstands hmatches.store fun q hq ↦ pulls q (List.mem_cons_of_mem _ hq)
      rw [serveAll, Cursor.serveAll, List.map_cons, hmatches.answer_eq, hk', hrest,
        listing_eq_of_bare_eq hmatches.bare_eq]
    · obtain ⟨e, he, -⟩ := hretains.answer
      exact he.elim

end

end Operator

/-! ## Contested heaps -/

namespace Outage

def Past (o : Outage) : Prop :=
  ∀ n, o.calls ≤ n → o.refuses n = .none

theorem Past.not_refused {o : Outage} (past : o.Past) {cause : StorageError} :
    o.refusal ≠ some cause := by
  rw [refusal, past o.calls le_rfl]
  nofun

theorem Past.next {o : Outage} (past : o.Past) : o.next.Past :=
  fun n hn ↦ past n (Nat.le_of_succ_le hn)

/-- One of the calls to come is refused with this answer. -/
def Threatens (o : Outage) (cause : StorageError) : Prop :=
  ∃ n, o.calls ≤ n ∧ o.refuses n = some cause

/-- The outage after any number of calls. -/
def Later (o o' : Outage) : Prop :=
  o'.refuses = o.refuses ∧ o.calls ≤ o'.calls

theorem Later.refl (o : Outage) : o.Later o :=
  ⟨rfl, le_rfl⟩

theorem Later.next {o o' : Outage} (later : o.Later o') : o.Later o'.next :=
  ⟨later.1, Nat.le_succ_of_le later.2⟩

theorem Later.threatens {o o' : Outage} (later : o.Later o') {cause : StorageError}
    (refused : o'.refusal = some cause) : o.Threatens cause := by
  refine ⟨o'.calls, later.2, ?_⟩
  rw [← later.1]
  exact refused

end Outage

namespace ContestedHeap

/-- Pages are read as the heap shows them, or the read is refused. What holds of the reads to come
may keep them from being refused. -/
theorem readsAs (during : Outage → Prop) (refused : StorageError → Prop)
    (next : ∀ o, during o → during o.next)
    (refuses : ∀ o cause, during o → o.refusal = some cause → refused cause) (h : Heap)
    (name : String) :
    ReadsAs refused (fun c : ContestedHeap ↦ c.heap = h ∧ during c.reads) name (h.shown name) := by
  rintro c p rows ⟨rfl, hduring⟩ hrows
  refine ⟨{ c with reads := c.reads.next }, ⟨rfl, next _ hduring⟩, ?_⟩
  change c.readPage name (UInt32.ofNat p) = _ ∨ ∃ e, _ ∧ c.readPage name (UInt32.ofNat p) = _
  rw [readPage]
  cases hrefused : c.reads.refusal with
  | some cause => exact .inr ⟨cause, refuses _ cause hduring hrefused, rfl⟩
  | none =>
    refine .inl ?_
    rcases ht : c.heap.table name with e | t
    · rw [Heap.shown, ht] at hrows
      cases hrows
    · obtain ⟨_, hread, -⟩ := (c.heap.displays ht).readPage_eq _ p rows rfl hrows
      exact congrArg (·, { c with reads := c.reads.next }) (congrArg Prod.fst hread)

theorem table_of_pageCount {c s : ContestedHeap} {name : String} {n : Nat}
    (hcount : Storage.pageCount name c = (.ok n, s)) :
    ∃ t, s.heap.table name = .ok t ∧ n = t.pages.length := by
  change c.pageCount name = _ at hcount
  rw [pageCount] at hcount
  split at hcount
  · cases hcount
  · generalize c.heap.editAll (c.edits c.counted) = edited at hcount
    obtain ⟨e | ⟨⟩, heap⟩ := edited
    · cases hcount
    · obtain ⟨htable, rfl⟩ := Prod.mk.inj hcount
      rcases ht : heap.table name with e | t
      · rw [ht] at htable
        cases htable
      · rw [ht] at htable
        exact ⟨t, rfl, (Except.ok.inj htable).symm⟩

end ContestedHeap

namespace Operator

theorem readsPages_of_readsAs [Storage σ τ] {refused : StorageError → Prop} {states : σ → Prop}
    {pages : τ → List (List Row)} (read : ∀ table, ReadsAs refused states table (pages table))
    (op : Operator τ) : op.ReadsPages refused states pages := by
  induction op with
  | values v => trivial
  | scan c => exact read c.table
  | filter p look input ih => exact ih
  | modify b input ih => trivial
  | aggregate spec schema groups input ih => trivial

/-! ## Stacks of filters -/

theorem readOnly_filters (ps : List Predicate) (table : τ) :
    (Plan.filters ps (.scan table)).ReadOnly := by
  induction ps with
  | nil => trivial
  | cons p ps ih => exact ih

theorem eq_filters_of_closed {ps : List Predicate} {name : String} {schema : Schema}
    {op : Operator String} (hbare : op.bare = filters .closed ps (scan (.ofTable name schema)))
    (closed : op.AllClosed) :
    ∃ c, op = filters .closed ps (scan c) ∧ c.table = name ∧ c.schema = schema
      ∧ c.look = .closed := by
  induction ps generalizing op with
  | nil =>
    cases op with
    | scan c =>
      cases hbare
      exact ⟨c, rfl, rfl, rfl, closed⟩
    | values v | filter p look input | modify b input | aggregate spec schema groups input =>
      cases hbare
  | cons p ps ih =>
    cases op with
    | filter p' look input =>
      change filter p' .closed input.bare
        = filter p .closed (filters .closed ps (scan (.ofTable name schema))) at hbare
      rw [filter.injEq] at hbare
      obtain ⟨rfl, -, hinput⟩ := hbare
      obtain ⟨rfl, hclosed⟩ := closed
      obtain ⟨c, rfl, hc⟩ := ih hinput hclosed
      exact ⟨c, rfl, hc⟩
    | values v | scan c | modify b input | aggregate spec schema groups input => cases hbare

/-- On an unchanged heap the operator reads its pages, unless a read is refused. -/
theorem readsPages_later (reads : Outage) (h : Heap) (op : Operator String) :
    op.ReadsPages reads.Threatens (fun c : ContestedHeap ↦ c.heap = h ∧ reads.Later c.reads)
      h.shown :=
  op.readsPages_of_readsAs (ContestedHeap.readsAs reads.Later reads.Threatens
    (fun _ ↦ Outage.Later.next) (fun _ _ later ↦ later.threatens) h)

theorem resting_filters (pages : String → List (List Row)) (ps : List Predicate) {c : Scan String}
    (closed : c.look = .closed) : (filters .closed ps (scan c)).Resting pages := by
  induction ps with
  | nil => exact closed
  | cons p ps ih => exact ⟨rfl, ih⟩

theorem stands_of_openOn {ps : List Predicate} {c s : ContestedHeap} {scanned : Scan String}
    {opened : Operator String} (closed : scanned.look = .closed)
    (opens : (filters .closed ps (scan scanned)).openOn c = ⟨.ok (), opened, s⟩)
    (sound : (filters .closed ps (scan scanned)).Sound (fun h : Heap ↦ h = s.heap) s.heap.shown) :
    (filters .closed ps (scan scanned)).Starts (fun h : Heap ↦ h = s.heap) s.heap.shown
      ⟨.ok (), opened, s.heap⟩ := by
  have hstarts := openOn_starts sound (resting_filters s.heap.shown ps closed) (s := s.heap) rfl
  rw [openOn_filters] at opens hstarts
  rcases hcount : Storage.pageCount scanned.table c with ⟨e | n, s'⟩
  · rw [openOn, closed, Lookahead.isClosed, if_pos rfl, Scan.reset, hcount] at opens
    cases opens
  · rw [Scan.openOn_eq closed hcount] at opens
    cases opens
    obtain ⟨t, ht, rfl⟩ := ContestedHeap.table_of_pageCount hcount
    have hcount' : Storage.pageCount scanned.table s'.heap = (.ok t.pages.length, s'.heap) := by
      change ((s'.heap.table scanned.table).map fun t ↦ t.pages.length, s'.heap) = _
      rw [ht]
      rfl
    rw [Scan.openOn_eq closed hcount'] at hstarts
    exact hstarts

/-! ## Going on after failures -/

/-- What an operator does behind the first `k` of its rows, on a heap that may refuse to read
pages. -/
structure Awaits (op : Operator String) (c : ContestedHeap) (rows : List Row) (k : Nat) :
    Prop where
  /-- It says that no row is left only if all have been handed out. -/
  hasNext_eq_false : (op.hasNext c).answer = .ok false → rows.take k = rows
  /-- A request for a row fails because a page cannot be read, for the reason that the storage
  gives, or because all rows have been handed out. -/
  error_eq : ∀ q e, q.isPull = true → (op.serve c q).answer = .error e →
    (∃ cause, c.reads.Threatens cause ∧ e = .storage cause) ∨ rows.take k = rows
  /-- Once no read is refused any more, the rows collected are the others. -/
  collect_eq : c.reads.Past → (op.collect c).answer = .ok (rows.drop k)
  /-- Once no read is refused any more, requests for rows are answered by a cursor behind the first
  `k` rows. -/
  serveAll_eq : c.reads.Past → ∀ requests : List Request, (∀ q ∈ requests, q.isPull = true) →
    (op.serveAll c requests).1.map (·.mapError QueryError.kind)
      = Cursor.serveAll rows (some k) requests

theorem Stands.awaits {op : Operator String} {h : Heap} {k : Nat} (sound : op.Sound (· = h) h.shown)
    (stands : op.Stands h.shown (some k)) {c : ContestedHeap} (same : c.heap = h) :
    op.Awaits c (op.listing h.shown) k := by
  subst same
  have attempts := readsPages_later c.reads c.heap op
  have served : op.ReadsPages (fun _ ↦ False)
      (fun s : ContestedHeap ↦ s.heap = c.heap ∧ s.reads.Past) c.heap.shown :=
    op.readsPages_of_readsAs (ContestedHeap.readsAs Outage.Past _ (fun _ ↦ Outage.Past.next)
      (fun _ _ past refused ↦ past.not_refused refused) c.heap)
  have attempt : ∀ q : Request, q.isPull = true → _ :=
    fun q hq ↦ serve_attempts sound attempts stands (s := c) ⟨rfl, .refl _⟩ hq
  refine ⟨fun hasNext ↦ ?_, fun q e hq failed ↦ ?_, fun past ↦ ?_, fun past requests pulls ↦ ?_⟩
  · have hserve : (op.serve c .hasNext).answer = .ok (.more false) := by
      rw [serve, Reply.map, hasNext]
      rfl
    rcases attempt .hasNext rfl with hmatches | ⟨⟨e, -, hanswer⟩, -, -, -⟩
    · have hanswer := hmatches.answer_eq
      rw [hserve] at hanswer
      refine List.take_of_length_le (Nat.le_of_not_lt ?_)
      simpa [Except.mapError, Cursor.serve] using hanswer
    · rw [hserve] at hanswer
      cases hanswer
  · rcases attempt q hq with hmatches | ⟨⟨cause, threatens, hanswer⟩, -, -, -⟩
    · refine .inr ?_
      have hanswer := hmatches.answer_eq
      rw [failed] at hanswer
      cases q with
      | hasNext => cases hanswer
      | next =>
        rw [Cursor.serve] at hanswer
        split at hanswer
        · cases hanswer
        · next hk => exact List.take_of_length_le (List.getElem?_eq_none_iff.mp hk)
      | opening | rewinding | closing => cases hq
    · rw [failed] at hanswer
      exact .inl ⟨cause, threatens, Except.error.inj hanswer⟩
  · rw [Operator.collect_eq sound served stands.1 ⟨rfl, past⟩, stands.2]
  · exact serveAll_pulls_eq sound served stands ⟨rfl, past⟩ pulls

/-- **Failed page reads lose nothing.** Let a stack of filters over the scan of a table be built, be
used in any way until all of its nodes are closed, and then be opened. Whichever page reads are
refused from there on, and whichever requests for rows are made, also after failures: the rows
handed out are the first ones of the rows that the plan has on the heap when nothing is refused. The
stack says that there is no row left only if all of them have been handed out, and fails otherwise
only because a page cannot be read, with the answer of the storage. Once no read is refused any
more, it hands out the others. -/
theorem faltering_reads_lose_nothing {ps : List Predicate} {name : String}
    {c₀ c₁ c s : ContestedHeap} {op opened : Operator String}
    {history : List (Request × ContestedHeap)}
    (built : (Plan.filters ps (.scan name)).build c₀ = (.ok op, c₁)) (typed : op.WellTyped)
    (closed : (op.after history).AllClosed)
    (opens : (op.after history).openOn c = ⟨.ok (), opened, s⟩) (reachable : s.heap.Reachable)
    (schema_eq : Storage.tableSchema c₀ name = Storage.tableSchema s.heap name) :
    (Plan.filters ps (.scan name)).build s.heap = (.ok op, s.heap)
      ∧ ∃ rows, (op.execute s.heap).answer = .ok rows
        ∧ ∀ requests : List Request, (∀ q ∈ requests, q.isPull = true) →
          ∃ k, handedOut (opened.serveAll s requests).1 = rows.take k
            ∧ (opened.serveAll s requests).2.1.Awaits (opened.serveAll s requests).2.2 rows k := by
  obtain ⟨schema, hschema, rfl⟩ := build_filters_scan built
  -- The operator is the one that would be built on the heap.
  have built' : (Plan.filters ps (.scan name)).build s.heap
      = (.ok (filters .closed ps (scan (.ofTable name schema))), s.heap) := by
    rw [build_filters, Plan.build, ← schema_eq, hschema]
    rfl
  refine ⟨built', ?_⟩
  obtain ⟨-, sound, resting, -⟩ :=
    Plan.build_readOnly reachable.sound (readOnly_filters ps name) built' typed
  have hbare := bare_after (filters .closed ps (scan (.ofTable name schema))) history
  obtain ⟨scanned, hused, htable, hscanned, hlook⟩ :=
    eq_filters_of_closed (hbare.trans (bare_filters ..)) closed
  rw [hused] at opens hbare
  have starts := stands_of_openOn hlook opens (sound.of_bare_eq hbare)
  refine ⟨_, execute_eq sound resting rfl, fun requests pulls ↦ ?_⟩
  have hopened := starts.bare_eq.trans hbare
  have sound' := sound.of_bare_eq hopened
  rw [← listing_eq_of_bare_eq hopened]
  have stands : opened.Stands s.heap.shown (some 0) :=
    ⟨starts.running, starts.remaining_eq.trans (listing_eq_of_bare_eq starts.bare_eq).symm⟩
  obtain ⟨k, hstands, hbare', ⟨hheap, -⟩, hrows⟩ := serveAll_hands sound'
    (readsPages_later s.reads s.heap opened) stands (s := s) ⟨rfl, .refl _⟩ pulls
  refine ⟨k, ?_, ?_⟩
  · rw [List.drop_zero] at hrows
    exact List.append_cancel_right (hrows.symm.trans (List.take_append_drop k _).symm)
  · rw [← listing_eq_of_bare_eq hbare']
    exact hstands.awaits (sound'.of_bare_eq hbare') hheap

def twoRefusedReads : ContestedHeap :=
  { ContestedHeap.ofHeap Plan.heapAroundSix with
    reads := .ofList [(0, Outage.badPage), (2, Outage.outOfService)] }

def aboveSix : Operator String :=
  filters .closed [⟨0, .gt, .integer 6⟩] (scan (.ofTable "t" ⟨[⟨"n", .integer⟩]⟩))

/-- Both numbers above six of a table, each of which is asked for in vain first. -/
theorem faltering_reads_lose_nothing_gap :
    (Plan.filters [⟨0, .gt, .integer 6⟩] (.scan "t")).build twoRefusedReads
          = (.ok aboveSix, twoRefusedReads)
      ∧ ∃ opened s, aboveSix.openOn twoRefusedReads = ⟨.ok (), opened, s⟩
        ∧ (opened.serveAll s [.next, .next, .hasNext]).1 = [.error (.storage Outage.badPage),
          .ok (.row ⟨[.integer 7], some ⟨1, 0, 0⟩⟩), .error (.storage Outage.outOfService)]
        ∧ ((opened.serveAll s [.next, .next, .hasNext]).2.1.collect
            (opened.serveAll s [.next, .next, .hasNext]).2.2).answer
          = .ok [⟨[.integer 9], some ⟨1, 1, 1⟩⟩] := by
  have built : (Plan.filters [⟨0, .gt, .integer 6⟩] (.scan "t")).build twoRefusedReads
      = (.ok aboveSix, twoRefusedReads) := rfl
  have opens : (aboveSix.after ([] : List (Request × ContestedHeap))).openOn twoRefusedReads
      = ⟨.ok (), _, _⟩ := rfl
  have closed : (aboveSix.after ([] : List (Request × ContestedHeap))).AllClosed := ⟨rfl, rfl⟩
  obtain ⟨-, rows, hexecute, hrun⟩ :=
    faltering_reads_lose_nothing built ⟨rfl, trivial⟩ closed opens ⟨2, _, rfl⟩ rfl
  obtain ⟨k, hrows, hawaits⟩ := hrun [.next, .next, .hasNext] (by decide)
  refine ⟨built, _, _, opens, rfl, ?_⟩
  have past : ∀ n, 3 ≤ n → twoRefusedReads.reads.refuses n = none := by
    intro n hn
    have hzero : (n == 0) = false := by simp; omega
    have htwo : (n == 2) = false := by simp; omega
    simp [twoRefusedReads, Outage.ofList, List.lookup_cons, hzero, htwo]
  have hrest := hawaits.collect_eq past
  cases hexecute
  -- One row has been handed out.
  obtain rfl : k = 1 := by
    have hone := congrArg List.length hrows
    rw [List.length_take] at hone
    change 1 = min k 2 at hone
    omega
  exact hrest

end Operator

end QueryEngine
