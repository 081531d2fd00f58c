import QueryEngine.Proofs.Operator.Frame
import QueryEngine.Proofs.Operator.ReadOnly
import QueryEngine.Proofs.Operator.Sweep
import QueryEngine.Proofs.Storage.Lifetime
import QueryEngine.Proofs.Storage.Removal

/-!
# Scans of a changing table

Between two rows that a scan hands out, anything may happen to its table. Rows are inserted, also on
pages that the scan has still to read, and rows are deleted, also such as it has fetched already.
`Drift` is a scan over a heap that changes in this way, and `Drift.Tracks` says what may be relied
on at every moment.

## What carries the argument

A page is read once, as it is at that moment. What counts is therefore the rows of all pages read so
far, whether they have been handed out or not (`Covers`). They stand in the order of their places;
each was in the table when its page was read; and a row that stays in the table all the time was
there, too, when its page was read. Later changes of the heap take nothing away from this, and
handing out a row does not change what has been read.

The number of pages is fixed when the scan is set up, and pages do not disappear, so every page that
the scan asks for is there.
-/

namespace QueryEngine

/-! ## What has been read -/

def Heap.Live (h : Heap) (name : String) (r : Row) : Prop :=
  ∃ t, h.table name = .ok t ∧ r ∈ t.rows

/-- The rows that were read from the pages before a given one, while there were the given heaps. -/
structure Covers (heaps : List Heap) (name : String) (next : Nat) (rows : List Row) : Prop where
  sorted : rows.Pairwise Row.Before
  onPage : ∀ r ∈ rows, ∃ p < next, r.OnPage p
  live : ∀ r ∈ rows, ∃ h ∈ heaps, h.Live name r
  complete : ∀ r, (∀ h ∈ heaps, h.Live name r) → ∀ p < next, r.OnPage p → r ∈ rows

section

variable {heaps : List Heap} {name : String} {next : Nat} {rows : List Row} {h : Heap}
  {t : HeapTable}

theorem Covers.start (heaps : List Heap) (name : String) : Covers heaps name 0 [] where
  sorted := .nil
  onPage := fun _ hr ↦ absurd hr List.not_mem_nil
  live := fun _ hr ↦ absurd hr List.not_mem_nil
  complete := fun _ _ _ hp ↦ absurd hp (Nat.not_lt_zero _)

theorem Covers.later (covers : Covers heaps name next rows) (h : Heap) :
    Covers (h :: heaps) name next rows where
  sorted := covers.sorted
  onPage := covers.onPage
  live := by
    intro r hr
    obtain ⟨h', hmem, hlive⟩ := covers.live r hr
    exact ⟨h', List.mem_cons_of_mem _ hmem, hlive⟩
  complete := fun r hlive ↦
    covers.complete r fun h' hmem ↦ hlive h' (List.mem_cons_of_mem _ hmem)

theorem Covers.read (covers : Covers heaps name next rows) (locates : h.Locates name t)
    (now : h ∈ heaps) {page : Page} (hpage : t.pages[next]? = some page) :
    Covers heaps name (next + 1) (rows ++ Page.rows page) where
  sorted := by
    rw [List.pairwise_append]
    refine ⟨covers.sorted, ?_, fun r hr r' hr' ↦ ?_⟩
    · exact locates.placed.pairwise_page hpage
        (locates.addressable.slots page (List.mem_of_getElem? hpage))
    · obtain ⟨p, hp, hr⟩ := covers.onPage r hr
      exact hr.before (locates.placed.onPage locates.addressable.pages hpage hr') hp
  onPage := by
    intro r hr
    rcases List.mem_append.mp hr with hold | hnew
    · obtain ⟨p, hp, hr⟩ := covers.onPage r hold
      exact ⟨p, Nat.lt_succ_of_lt hp, hr⟩
    · exact ⟨next, Nat.lt_succ_self _,
        locates.placed.onPage locates.addressable.pages hpage hnew⟩
  live := by
    intro r hr
    rcases List.mem_append.mp hr with hold | hnew
    · exact covers.live r hold
    · obtain ⟨s, hs⟩ := HeapTable.mem_rows_iff.mp hnew
      exact ⟨h, now, t, locates.table_eq, HeapTable.mem_rows_of_slot hpage hs⟩
  complete := by
    intro r hlive p hp hr
    rcases Nat.lt_succ_iff_lt_or_eq.mp hp with hlt | rfl
    · exact List.mem_append_left _ (covers.complete r hlive p hlt hr)
    · obtain ⟨t', ht', hmem⟩ := hlive h now
      obtain rfl := Except.ok.inj (locates.table_eq.symm.trans ht')
      obtain ⟨p', s, page', hpage', hslot⟩ := HeapTable.exists_slot hmem
      have hin : r ∈ Page.rows page' := HeapTable.mem_rows_iff.mpr ⟨s, hslot⟩
      obtain rfl := hr.unique (locates.placed.onPage locates.addressable.pages hpage' hin)
      obtain rfl := Option.some.inj (hpage.symm.trans hpage')
      exact List.mem_append_right _ hin

/-- Looking for the next row reads pages until there is one, or to the last page. -/
theorem visitPages_takeFirst (locates : h.Locates name t) (now : h ∈ heaps) {pages : Nat}
    (hpages : pages ≤ t.pages.length) (covers : Covers heaps name next rows)
    (hnext : next ≤ pages) :
    (∃ r rest next', visitPages name takeFirst (pages - next) next none h
          = ⟨.ok (.done (some r)), (next', rest), h⟩
        ∧ next' ≤ pages ∧ Covers heaps name next' (rows ++ r :: rest))
      ∨ visitPages name takeFirst (pages - next) next none h = ⟨.ok (.yield none), (pages, []), h⟩
        ∧ Covers heaps name pages rows := by
  induction hleft : pages - next generalizing next rows with
  | zero =>
    obtain rfl : next = pages := by omega
    exact Or.inr ⟨rfl, covers⟩
  | succ left ih =>
    have hlt : next < t.pages.length := by omega
    obtain ⟨page, hpage, hread⟩ := Heap.readPage_eq locates.table_eq hlt
    rw [Nat.mod_eq_of_lt (Nat.lt_of_lt_of_le hlt locates.addressable.pages)] at hpage
    have hread' : Storage.readPage name (UInt32.ofNat next) h = (.ok (Page.rows page), h) :=
      congrArg (·, h) hread
    have covers' := covers.read locates now hpage
    rw [visitPages, hread']
    rcases hrows : Page.rows page with _ | ⟨r, rest⟩
    · rw [hrows, List.append_nil] at covers'
      exact ih covers' (by omega) (by omega)
    · rw [hrows] at covers'
      exact Or.inl ⟨r, rest, next + 1, rfl, by omega, covers'⟩

end

/-! ## The scan -/

/-- The scan has read the pages before its next one, and has handed out the given rows of them. -/
structure Scan.KeepsUp (c : Scan String) (heaps : List Heap) (name : String) (pages : Nat)
    (yielded : List Row) : Prop where
  table_eq : c.table = name
  isOpen : c.look ≠ .closed
  pageCount_eq : c.pageCount = pages
  nextPage_le : c.nextPage ≤ pages
  covers : Covers heaps name c.nextPage (yielded ++ c.look.rest c.pending)
  spent : c.look = .exhausted → c.nextPage = pages

namespace Scan.KeepsUp

variable {c : Scan String} {heaps : List Heap} {name : String} {pages : Nat} {yielded : List Row}
  {h : Heap} {t : HeapTable}

theorem start (heaps : List Heap) (name : String) (schema : Schema) (pages : Nat) :
    (Scan.start name schema pages).KeepsUp heaps name pages [] where
  table_eq := rfl
  isOpen := nofun
  pageCount_eq := rfl
  nextPage_le := Nat.zero_le _
  covers := .start heaps name
  spent := nofun

theorem later (keepsUp : c.KeepsUp heaps name pages yielded) (h : Heap) :
    c.KeepsUp (h :: heaps) name pages yielded :=
  { keepsUp with covers := keepsUp.covers.later h }

private theorem taken {schema : Schema} {next : Nat} {r : Row} {rest : List Row}
    (hnext : next ≤ pages) (covers : Covers heaps name next (yielded ++ r :: rest)) :
    (Scan.mk name schema pages next rest (.ready none)).KeepsUp heaps name pages
      (yielded ++ [r]) where
  table_eq := rfl
  isOpen := nofun
  pageCount_eq := rfl
  nextPage_le := hnext
  covers := by simpa [Lookahead.rest] using covers
  spent := nofun

theorem pull (keepsUp : c.KeepsUp heaps name pages yielded) (locates : h.Locates name t)
    (now : h ∈ heaps) (hpages : pages ≤ t.pages.length) :
    (∃ r c', (Operator.scan c).pull h = ⟨.ok (some r), .scan c', h⟩ ∧ c'.look = .ready none
        ∧ c'.KeepsUp heaps name pages (yielded ++ [r]))
      ∨ ∃ c', (Operator.scan c).pull h = ⟨.ok none, .scan c', h⟩ ∧ c'.look = .exhausted
        ∧ c'.KeepsUp heaps name pages yielded := by
  obtain ⟨table, schema, pageCount, nextPage, pending, look⟩ := c
  obtain ⟨rfl, isOpen, rfl, hnext, covers, spent⟩ := keepsUp
  rcases look with _ | (_ | r) | _
  · exact absurd rfl isOpen
  · rcases pending with _ | ⟨r, rest⟩
    · rw [Lookahead.rest, Option.toList_none, List.append_nil, List.append_nil] at covers
      have hpull : (Operator.scan ⟨table, schema, pageCount, nextPage, [], .ready none⟩).pull h
          = (((visitPages table takeFirst (pageCount - nextPage) nextPage none h).mapNode fun node ↦
              Operator.scan ⟨table, schema, pageCount, node.1, node.2, .after
                (visitPages table takeFirst (pageCount - nextPage) nextPage none h).answer⟩).map
              ForInStep.value) := rfl
      rw [hpull]
      rcases visitPages_takeFirst locates now hpages covers hnext
        with ⟨r, rest, next', hvisit, hle, covers'⟩ | ⟨hvisit, covers'⟩
      · rw [hvisit]
        exact Or.inl ⟨r, _, rfl, rfl, taken hle covers'⟩
      · rw [hvisit]
        refine Or.inr ⟨_, rfl, rfl, rfl, Lookahead.exhausted_ne_closed, rfl, Nat.le_refl _, ?_,
          fun _ ↦ rfl⟩
        exact (List.append_nil yielded).symm ▸ covers'
    · exact Or.inl ⟨r, _, rfl, rfl, taken hnext covers⟩
  · exact Or.inl ⟨r, _, rfl, rfl, taken hnext covers⟩
  · exact Or.inr ⟨_, rfl, rfl, rfl, isOpen, rfl, hnext, covers, spent⟩

theorem hasNext (keepsUp : c.KeepsUp heaps name pages yielded) (locates : h.Locates name t)
    (now : h ∈ heaps) (hpages : pages ≤ t.pages.length) :
    ∃ c' more, (Operator.scan c).hasNext h = ⟨.ok more, .scan c', h⟩
      ∧ c'.KeepsUp heaps name pages yielded ∧ (more = false → c'.look = .exhausted) := by
  rw [Operator.hasNext]
  rcases keepsUp.pull locates now hpages with ⟨r, c', hpull, hlook, keepsUp'⟩
    | ⟨c', hpull, hlook, keepsUp'⟩
  · rw [hpull]
    refine ⟨{ c' with look := .ready (some r) }, true, rfl, ?_, fun h ↦ by cases h⟩
    refine ⟨keepsUp'.table_eq, Lookahead.ready_ne_closed _, keepsUp'.pageCount_eq,
      keepsUp'.nextPage_le, ?_, fun h ↦ by cases h⟩
    simpa [hlook, Lookahead.rest] using keepsUp'.covers
  · rw [hpull]
    exact ⟨c', false, rfl, keepsUp', fun _ ↦ hlook⟩

theorem next (keepsUp : c.KeepsUp heaps name pages yielded) (locates : h.Locates name t)
    (now : h ∈ heaps) (hpages : pages ≤ t.pages.length) :
    (∃ c' r, (Operator.scan c).next h = ⟨.ok r, .scan c', h⟩
        ∧ c'.KeepsUp heaps name pages (yielded ++ [r]))
      ∨ ∃ c', (Operator.scan c).next h = ⟨.error (.noMoreRows Scan.label), .scan c', h⟩
        ∧ c'.KeepsUp heaps name pages yielded ∧ c'.look = .exhausted := by
  rw [Operator.next]
  rcases keepsUp.pull locates now hpages with ⟨r, c', hpull, -, keepsUp'⟩
    | ⟨c', hpull, hlook, keepsUp'⟩
  · rw [hpull]
    exact Or.inl ⟨c', r, rfl, keepsUp'⟩
  · rw [hpull]
    refine Or.inr ⟨c', ?_, keepsUp', hlook⟩
    rfl

/-- At its end, the scan has handed out all rows that have been there the whole time. -/
theorem mem_of_exhausted (keepsUp : c.KeepsUp heaps name pages yielded)
    (exhausted : c.look = .exhausted) {r : Row} (hlive : ∀ h ∈ heaps, h.Live name r) {p : Nat}
    (hp : p < pages) (hr : r.OnPage p) : r ∈ yielded := by
  have covers := keepsUp.covers
  rw [keepsUp.spent exhausted, exhausted, Lookahead.rest, List.append_nil] at covers
  exact covers.complete r hlive p hp hr

end Scan.KeepsUp

/-! ## The passing of time -/

/-- What happens to an operator or to the heap that it reads. -/
inductive Event where
  | hasNext
  | next
  | change (c : Heap.Call)

/-- An operator and the heap that it reads, with what has been so far. -/
structure Drift where
  op : Operator String
  heap : Heap
  /-- The heaps that there have been before, the last one foremost. -/
  past : List Heap
  /-- The rows that have been handed out, in order. -/
  yielded : List Row

namespace Drift

def start (op : Operator String) (heap : Heap) : Drift :=
  ⟨op, heap, [], []⟩

/-- The heaps that there have been, the present one foremost. -/
def moments (d : Drift) : List Heap :=
  d.heap :: d.past

def step (d : Drift) : Event → Drift
  | .hasNext =>
    let reply := d.op.hasNext d.heap
    ⟨reply.node, reply.store, d.moments, d.yielded⟩
  | .next =>
    let reply := d.op.next d.heap
    ⟨reply.node, reply.store, d.moments, d.yielded ++ reply.answer.toOption.toList⟩
  | .change c => ⟨d.op, (d.heap.call c).2, d.moments, d.yielded⟩

def run (d : Drift) (events : List Event) : Drift :=
  events.foldl step d

theorem run_concat (d : Drift) (events : List Event) (e : Event) :
    d.run (events ++ [e]) = (d.run events).step e :=
  List.foldl_concat ..

/-- The operator reports that there is no row left. -/
def Ended (d : Drift) : Prop :=
  (d.op.hasNext d.heap).answer = .ok false
    ∨ (d.op.next d.heap).answer = .error (.noMoreRows d.op.rowLabel)

/-! ## What every event keeps -/

private theorem node_pull_scan (c : Scan String) (s : Heap) :
    ((Operator.scan c).pull s).node = .scan (c.forRows takeFirst none s).node :=
  rfl

theorem scan_step {d : Drift} (hop : ∃ c, d.op = .scan c) (e : Event) :
    ∃ c, (d.step e).op = .scan c := by
  obtain ⟨c, hop⟩ := hop
  have hnode := node_pull_scan c d.heap
  rcases hpull : (Operator.scan c).pull d.heap with ⟨answer, op, s⟩
  rw [hpull] at hnode
  obtain rfl : op = _ := hnode
  rcases e with _ | _ | change
  · rw [step, hop, Operator.hasNext, hpull]
    rcases answer with e | _ | r <;> exact ⟨_, rfl⟩
  · rw [step, hop, Operator.next, hpull]
    rcases answer with e | _ | r <;> exact ⟨_, rfl⟩
  · exact ⟨c, hop⟩

theorem scan_run {d : Drift} (hop : ∃ c, d.op = .scan c) (events : List Event) :
    ∃ c, (d.run events).op = .scan c := by
  induction events using List.reverseRecOn with
  | nil => exact hop
  | append_singleton events e ih =>
    rw [run_concat]
    exact scan_step ih e

theorem heap_step {d : Drift} (hop : ∃ c, d.op = .scan c) (e : Event) :
    (d.step e).heap = d.heap ∨ ∃ c, e = .change c := by
  obtain ⟨c, hop⟩ := hop
  have writesNothing : d.op.WritesNothing := hop ▸ trivial
  have closed := d.heap.closed
  have hpull := writesNothing.pull closed rfl
  rcases e with _ | _ | c
  · exact Or.inl ((d.op.store_hasNext d.heap).trans hpull)
  · exact Or.inl ((d.op.store_next d.heap).trans hpull)
  · exact Or.inr ⟨c, rfl⟩

theorem length_tables_le_step {d : Drift} (hop : ∃ c, d.op = .scan c) (e : Event) :
    d.heap.tables.length ≤ (d.step e).heap.tables.length := by
  rcases heap_step hop e with hsame | ⟨c, rfl⟩
  · rw [hsame]
  · exact d.heap.length_tables_le_call c

/-- What is kept while the table of a scan, which was `t` in the heap `h` when the scan was set up,
becomes `t'`. -/
structure Intact (d : Drift) (h : Heap) (name : String) (t t' : HeapTable) : Prop where
  reachable : d.heap.Reachable
  table_eq : d.heap.table name = .ok t'
  becomes : t.Becomes t'
  origin : h ∈ d.moments
  scan : ∃ c, d.op = .scan c
  keepsUp : t'.Addressable → ∀ c, d.op = .scan c →
    c.KeepsUp d.moments name t.pages.length d.yielded
  since : t'.Addressable → ∀ h' ∈ d.moments, ∀ r, h'.Live name r →
    r ∈ t.rows ∨ ∃ id, r.id? = some id ∧ ¬t.Used id

variable {d : Drift} {h : Heap} {name : String} {t t' : HeapTable}

theorem intact_start {schema : Schema} (reachable : h.Reachable) (ht : h.table name = .ok t) :
    (start (.scan (.start name schema t.pages.length)) h).Intact h name t t where
  reachable := reachable
  table_eq := ht
  becomes := .refl t
  origin := List.mem_cons_self
  scan := ⟨_, rfl⟩
  keepsUp := by
    rintro - c hop
    cases hop
    exact .start _ name schema t.pages.length
  since := by
    rintro - h' hh' r ⟨t₁, ht₁, hr⟩
    obtain rfl := List.mem_singleton.mp hh'
    obtain rfl := Except.ok.inj (ht.symm.trans ht₁)
    exact Or.inl hr

namespace Intact

theorem locates (intact : d.Intact h name t t') (few : d.heap.tables.length ≤ 2 ^ 32)
    (addressable : t'.Addressable) : d.heap.Locates name t' :=
  intact.reachable.locates intact.table_eq few addressable

private theorem of_request (intact : d.Intact h name t t') {e : Event}
    (hsame : (d.step e).heap = d.heap) (hpast : (d.step e).past = d.moments)
    (keepsUp : t'.Addressable → ∀ c, (d.step e).op = .scan c →
      c.KeepsUp d.moments name t.pages.length (d.step e).yielded) :
    (d.step e).Intact h name t t' := by
  have hmoments : (d.step e).moments = d.heap :: d.moments := by rw [moments, hsame, hpast]
  refine ⟨hsame ▸ intact.reachable, hsame ▸ intact.table_eq, intact.becomes, ?_,
    scan_step intact.scan e, fun addressable c hop ↦ ?_, fun addressable ↦ ?_⟩
  · rw [hmoments]
    exact List.mem_cons_of_mem _ intact.origin
  · rw [hmoments]
    exact (keepsUp addressable c hop).later d.heap
  · rw [hmoments]
    rintro h' hh'
    rcases List.mem_cons.mp hh' with rfl | hh'
    · exact intact.since addressable d.heap List.mem_cons_self
    · exact intact.since addressable h' hh'

/-- A call that changes the heap takes nothing away from what the scan has read. -/
private theorem step_change (intact : d.Intact h name t t')
    (few : d.heap.tables.length ≤ 2 ^ 32) (c : Heap.Call) :
    ∃ t'', (d.step (.change c)).Intact h name t t'' := by
  have orderly := intact.reachable.orderly few
  obtain ⟨t'', ht'', becomes⟩ := orderly.becomes_call intact.table_eq c
  refine ⟨t'', intact.reachable.call c, ht'', intact.becomes.trans becomes,
    List.mem_cons_of_mem _ intact.origin, intact.scan, fun addressable scanned hop ↦ ?_, ?_⟩
  · exact (intact.keepsUp (becomes.addressable addressable) scanned hop).later _
  · intro addressable h' hh' r hlive
    rcases List.mem_cons.mp hh' with rfl | hh'
    · obtain ⟨t₁, ht₁, hr⟩ := hlive
      obtain rfl := Except.ok.inj (ht''.symm.trans ht₁)
      exact (intact.becomes.trans becomes).rows addressable r hr
    · exact intact.since (becomes.addressable addressable) h' hh' r hlive

theorem step (intact : d.Intact h name t t') (few : d.heap.tables.length ≤ 2 ^ 32)
    (e : Event) : ∃ t'', (d.step e).Intact h name t t'' := by
  obtain ⟨c, hop⟩ := intact.scan
  have hsame := heap_step intact.scan e
  rcases e with _ | _ | change
  · refine ⟨t', intact.of_request (hsame.resolve_right nofun) rfl fun addressable c' hop' ↦ ?_⟩
    obtain ⟨c'', more, hreply, keepsUp, -⟩ := (intact.keepsUp addressable c hop).hasNext
      (intact.locates few addressable) List.mem_cons_self intact.becomes.length_le
    rw [Drift.step, hop, hreply] at hop'
    cases hop'
    exact keepsUp
  · refine ⟨t', intact.of_request (hsame.resolve_right nofun) rfl fun addressable c' hop' ↦ ?_⟩
    rcases (intact.keepsUp addressable c hop).next (intact.locates few addressable)
        List.mem_cons_self intact.becomes.length_le
      with ⟨c'', r, hreply, keepsUp⟩ | ⟨c'', hreply, keepsUp, -⟩
    · rw [Drift.step, hop, hreply] at hop' ⊢
      cases hop'
      exact keepsUp
    · rw [Drift.step, hop, hreply] at hop' ⊢
      cases hop'
      simpa [Except.toOption] using keepsUp
  · exact intact.step_change few change

theorem run (intact : d.Intact h name t t') (events : List Event)
    (few : (d.run events).heap.tables.length ≤ 2 ^ 32) :
    ∃ t'', (d.run events).Intact h name t t'' := by
  induction events using List.reverseRecOn with
  | nil => exact ⟨t', intact⟩
  | append_singleton events e ih =>
    rw [run_concat] at few ⊢
    have few' := Nat.le_trans (length_tables_le_step (scan_run intact.scan events) e) few
    obtain ⟨t₁, intact₁⟩ := ih few'
    exact intact₁.step few' e

end Intact

/-! ## What may be relied on -/

/-- What may be relied on when a scan was set up while its table was `t`. -/
structure Tracks (d : Drift) (name : String) (t : HeapTable) : Prop where
  /-- Record ids rise from row to row, so that no row comes twice. -/
  sorted : d.yielded.Pairwise Row.Before
  /-- The rows are from pages that there were. -/
  pages : ∀ r ∈ d.yielded, ∃ p < t.pages.length, r.OnPage p
  /-- A row that had been deleted does not come. -/
  since : ∀ r ∈ d.yielded, r ∈ t.rows ∨ ∃ id, r.id? = some id ∧ ¬t.Used id
  /-- The scan does not fail when it is asked whether there is a row. -/
  hasNext : ∃ more, (d.op.hasNext d.heap).answer = .ok more
  /-- The next row has been in the table at some time since. -/
  next : (∃ r, (d.op.next d.heap).answer = .ok r ∧ ∃ h ∈ d.moments, h.Live name r)
    ∨ (d.op.next d.heap).answer = .error (.noMoreRows Scan.label)
  /-- In the end, every row that has been in the table all the time has come exactly once. -/
  complete : d.Ended → ∀ r, (∀ h ∈ d.moments, h.Live name r) → d.yielded.count r = 1

theorem Intact.tracks (intact : d.Intact h name t t') (few : d.heap.tables.length ≤ 2 ^ 32)
    (addressable : t'.Addressable) (reachable : h.Reachable) (ht : h.table name = .ok t) :
    d.Tracks name t := by
  obtain ⟨c, hop⟩ := intact.scan
  have keepsUp := intact.keepsUp addressable c hop
  have locates := intact.locates few addressable
  have hpages := intact.becomes.length_le
  have hsorted := (List.pairwise_append.mp keepsUp.covers.sorted).1
  refine ⟨hsorted, fun r hr ↦ ?_, fun r hr ↦ ?_, ?_, ?_, fun ended r hlive ↦ ?_⟩
  · obtain ⟨p, hp, hpage⟩ := keepsUp.covers.onPage r (List.mem_append_left _ hr)
    exact ⟨p, Nat.lt_of_lt_of_le hp keepsUp.nextPage_le, hpage⟩
  · obtain ⟨h', hh', hlive⟩ := keepsUp.covers.live r (List.mem_append_left _ hr)
    exact intact.since addressable h' hh' r hlive
  · obtain ⟨c', more, hreply, -, -⟩ := keepsUp.hasNext locates List.mem_cons_self hpages
    exact ⟨more, by rw [hop, hreply]⟩
  · rcases keepsUp.next locates List.mem_cons_self hpages with ⟨c', r, hreply, keepsUp'⟩
      | ⟨c', hreply, -, -⟩
    · refine Or.inl ⟨r, by rw [hop, hreply], keepsUp'.covers.live r ?_⟩
      simp
    · exact Or.inr (by rw [hop, hreply])
  · -- A row that has been there all the time is on one of the pages that there were.
    obtain ⟨t₀, ht₀, hr⟩ := hlive h intact.origin
    obtain rfl := Except.ok.inj (ht.symm.trans ht₀)
    obtain ⟨p, s, page, hpage, hslot⟩ := HeapTable.exists_slot hr
    have hp := (List.getElem?_eq_some_iff.mp hpage).1
    have hon : r.OnPage p := (reachable.sound.placed (Heap.mem_of_table ht)).onPage
      (intact.becomes.addressable addressable).pages hpage (HeapTable.mem_rows_iff.mpr ⟨s, hslot⟩)
    refine List.count_eq_one_of_mem (Row.nodup_of_pairwise_before hsorted) ?_
    rw [Ended, hop] at ended
    rcases ended with hfalse | hnone
    · obtain ⟨c', more, hreply, keepsUp', hspent⟩ :=
        keepsUp.hasNext locates List.mem_cons_self hpages
      rw [hreply] at hfalse
      obtain rfl : more = false := Except.ok.inj hfalse
      exact keepsUp'.mem_of_exhausted (hspent rfl) hlive hp hon
    · rcases keepsUp.next locates List.mem_cons_self hpages with ⟨c', r', hreply, -⟩
        | ⟨c', -, keepsUp', hspent⟩
      · rw [hreply] at hnone
        cases hnone
      · exact keepsUp'.mem_of_exhausted hspent hlive hp hon

/-- **A scan keeps up with its table.** Whatever a scan did before, once it has been opened or
rewound, it hands out rows that it can be relied on for (`Drift.Tracks`), however requests to it and
changes of the heap follow each other. The numbers of tables, pages and slots have to fit in 32 bits
to the end. -/
theorem run_tracks {c : Scan String} {op : Operator String} {h' : Heap} (reachable : h.Reachable)
    (ht : h.table c.table = .ok t)
    (setUp : c.look = .closed ∧ (Operator.scan c).openOn h = ⟨.ok (), op, h'⟩
      ∨ (Operator.scan c).rewindOn h = ⟨.ok (), op, h'⟩)
    (events : List Event) (hd : d = (start op h').run events)
    (few : d.heap.tables.length ≤ 2 ^ 32) (ht' : d.heap.table c.table = .ok t')
    (addressable : t'.Addressable) : d.Tracks c.table t := by
  have hcount : Storage.pageCount c.table h = (.ok t.pages.length, h) := by
    change ((h.table c.table).map fun t ↦ t.pages.length, h) = _
    rw [ht]
    rfl
  have hstart : op = .scan (.start c.table c.schema t.pages.length) ∧ h' = h := by
    rcases setUp with ⟨closed, hopen⟩ | hrewind
    · rw [Scan.openOn_eq closed hcount] at hopen
      cases hopen
      exact ⟨rfl, rfl⟩
    · have isOpen : c.look ≠ .closed := by
        intro closed
        rw [Operator.rewindOn, closed] at hrewind
        cases hrewind
      rw [Scan.rewindOn_eq isOpen hcount] at hrewind
      cases hrewind
      exact ⟨rfl, rfl⟩
  obtain ⟨rfl, rfl⟩ := hstart
  subst hd
  obtain ⟨t₁, intact⟩ := (intact_start reachable ht).run events few
  obtain rfl := Except.ok.inj (intact.table_eq.symm.trans ht')
  exact intact.tracks few addressable reachable ht

/-- A scan of two pages, with a gap on the first one: the row that it has fetched is deleted, one
row goes to the second page and another one to a third page. -/
theorem run_tracks_gap :
    ∃ op t d, (Operator.scan (.ofTable "t" ⟨[⟨"n", .integer⟩]⟩)).openOn Plan.heapWithGap
          = ⟨.ok (), op, Plan.heapWithGap⟩
      ∧ Plan.heapWithGap.table "t" = .ok t
      ∧ d = (start op Plan.heapWithGap).run
          [.hasNext, .change (.delete ⟨[], some ⟨1, 0, 0⟩⟩), .next,
            .change (.insert "t" (.ofValues [.integer 10])),
            .change (.insert "t" (.ofValues [.integer 11])), .next, .next]
      ∧ d.Tracks "t" t
      ∧ d.yielded = [⟨[.integer 7], some ⟨1, 0, 0⟩⟩, ⟨[.integer 9], some ⟨1, 1, 0⟩⟩,
          ⟨[.integer 10], some ⟨1, 1, 1⟩⟩] := by
  have hopen : (Operator.scan (.ofTable "t" ⟨[⟨"n", .integer⟩]⟩)).openOn Plan.heapWithGap
      = ⟨.ok (), _, Plan.heapWithGap⟩ := rfl
  have ht : Plan.heapWithGap.table "t" = .ok _ := rfl
  refine ⟨_, _, _, hopen, ht, rfl, ?_, rfl⟩
  exact run_tracks (c := .ofTable "t" ⟨[⟨"n", .integer⟩]⟩) ⟨2, _, rfl⟩ ht (Or.inl ⟨rfl, hopen⟩) _
    rfl (by decide) rfl ⟨by decide, by decide⟩

end Drift

end QueryEngine
