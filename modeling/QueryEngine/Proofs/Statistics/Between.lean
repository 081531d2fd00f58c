import QueryEngine.Proofs.Operator.Sweep
import QueryEngine.Proofs.Statistics.Compute
import QueryEngine.Proofs.Storage.Population

/-!
# Statistics of a table that is written to

Others may write to a table while its statistics are computed. If they do so between the two passes,
the ranges of the histograms are those of the rows that the first pass saw, and the rows counted are
those that the second pass finds, up to the number of the first pass. A value that is new to the
table may lie outside the range of its column, and is counted at the nearest end. So whatever has
been deleted and inserted, the second pass cannot fail, and the totals of the histograms agree with
the number of rows.

The page count that the rewound scan takes is what tells it of the pages added. So writing just
before that count is writing between the passes (`ContestedHeap.Interrupted`).
-/

namespace QueryEngine

/-! ## The storage -/

namespace ContestedHeap

/-- Nothing is refused, and others write only when the third page count from now is taken, which
leaves the given heap. -/
structure Interrupted (c : ContestedHeap) (h' : Heap) : Prop where
  reads : ∀ n, c.reads.refuses n = none
  counts : ∀ n, c.counts.refuses n = none
  announced : c.announced = []
  first : c.edits c.counted = []
  second : c.edits (c.counted + 1) = []
  third : c.heap.editAll (c.edits (c.counted + 2)) = (.ok (), h')

/-- A contested heap that holds the given heap, serves all reads, and has taken so many page
counts. -/
structure Serving (edits : Nat → List Edit) (h : Heap) (counted : Nat) (s : ContestedHeap) :
    Prop where
  heap_eq : s.heap = h
  reads : ∀ n, s.reads.refuses n = none
  counts : ∀ n, s.counts.refuses n = none
  announced : s.announced = []
  edits_eq : s.edits = edits
  counted_eq : s.counted = counted

variable {c s : ContestedHeap} {h h' : Heap} {edits : Nat → List Edit} {counted : Nat}
  {name : String} {t : HeapTable}

theorem Interrupted.serving (interrupted : c.Interrupted h') :
    c.Serving c.edits c.heap c.counted :=
  ⟨rfl, interrupted.reads, interrupted.counts, interrupted.announced, rfl, rfl⟩

namespace Serving

theorem tableSchema_eq (serving : s.Serving edits h counted) (ht : h.table name = .ok t) :
    Storage.tableSchema s name = .ok t.schema := by
  change s.tableSchema name = _
  rw [tableSchema, serving.announced, serving.heap_eq]
  change (h.table name).map HeapTable.schema = _
  rw [ht]
  rfl

theorem pageCount_eq (serving : s.Serving edits h counted)
    (edited : h.editAll (edits counted) = (.ok (), h')) (ht : h'.table name = .ok t) :
    ∃ s' : ContestedHeap, Storage.pageCount name s = (.ok t.pages.length, s')
      ∧ s'.Serving edits h' (counted + 1) := by
  change ∃ s' : ContestedHeap, s.pageCount name = _ ∧ _
  rw [pageCount, Outage.refusal, serving.counts, serving.heap_eq, serving.edits_eq,
    serving.counted_eq, edited]
  dsimp only
  rw [ht]
  exact ⟨_, rfl, rfl, serving.reads, serving.counts, serving.announced, rfl, rfl⟩

theorem readPage_eq (serving : s.Serving edits h counted) (ht : h.table name = .ok t) {p : Nat}
    {rows : List Row} (hrows : (h.shown name)[p]? = some rows) :
    ∃ s' : ContestedHeap, Storage.readPage name (UInt32.ofNat p) s = (.ok rows, s')
      ∧ s'.Serving edits h counted := by
  obtain ⟨_, hread, -⟩ := (h.displays ht).readPage_eq h p rows rfl hrows
  have hread' : h.readPage name (UInt32.ofNat p) = .ok rows := congrArg Prod.fst hread
  change ∃ s' : ContestedHeap, s.readPage name (UInt32.ofNat p) = _ ∧ _
  rw [readPage, Outage.refusal, serving.reads, serving.heap_eq, hread']
  exact ⟨_, rfl, rfl, serving.reads, serving.counts, serving.announced, serving.edits_eq,
    serving.counted_eq⟩

/-- A pass of a scan that is set up is the walk over the rows that the heap shows. -/
theorem forRows_eq {α : Type} (serving : s.Serving edits h counted) (ht : h.table name = .ok t)
    (schema : Schema) (step : Step α) (a : α) :
    ∃ (scan : Scan String) (s' : ContestedHeap),
      (Operator.scan (.start name schema t.pages.length)).forRows step.visitor a s
        = ⟨(walk step (h.shown name).flatten a).1, .scan scan, s'⟩
      ∧ scan.table = name ∧ scan.schema = schema ∧ scan.look ≠ .closed
      ∧ s'.Serving edits h counted := by
  obtain ⟨scan, hscan, htable, hschema, hlook⟩ :=
    Scan.forRows_start name schema t.pages.length step.visitor a s
  have hlength : (h.shown name).length = t.pages.length := by
    rw [Heap.shown, ht]
    simp
  have hpages := visitPages_walks (fun _ p rows served hrows ↦ served.readPage_eq ht hrows) step 0 a
    serving
  rw [Nat.sub_zero, hlength, List.drop_zero] at hpages
  refine ⟨scan, _, ?_, htable, hschema, hlook ▸ Lookahead.after_ne_closed _, hpages.store⟩
  rw [Operator.forRows, hscan, hpages.answer_eq]
  rfl

end Serving

end ContestedHeap

/-! ## The statistics -/

namespace TableStatistics

/-- The statistics have the ranges of the rows of a first pass, and count those of a second one up
to the number of the first. -/
structure Straddles (stats : TableStatistics) (config : StatisticsConfig) (t : HeapTable)
    (rows rows' : List Row) : Prop where
  table_eq : stats.table = t.name
  schema_eq : stats.schema = t.schema
  pages_eq : stats.pages = t.pages.length
  rows_eq : stats.rows = Nat.min rows.length rows'.length
  cost_eq : stats.ioCostPerPage = config.ioCostPerPage
  empty : rows = [] → stats.histograms = []
  /-- One histogram a column. -/
  length_eq : rows ≠ [] → stats.histograms.length = t.schema.width
  histogram : rows ≠ [] → ∀ (i : Nat) column h, t.schema.columns[i]? = some column →
    stats.histograms[i]? = some h → h.type = column.type
      ∧ h.Records config.histogramBuckets (fieldValues rows i)
          (fieldValues (rows'.take rows.length) i)
      ∧ h.total = stats.rows

variable {c s : ContestedHeap} {h h' : Heap} {edits : Nat → List Edit} {counted buckets : Nat}
  {name : String} {t t' : HeapTable} {rows rows' : List Row}

private theorem schema_start (name : String) (schema : Schema) (pages : Nat) :
    (Operator.scan (.start name schema pages)).schema = schema := rfl

/-- If the first pass sees no rows, there is no second one. -/
theorem buildHistograms_of_no_rows (buckets : Nat) (serving : s.Serving edits h counted)
    (ht : h.table name = .ok t) (hshown : (h.shown name).flatten = []) :
    ∃ s', buildHistograms buckets (.scan (.start name t.schema t.pages.length)) s
      = (.ok (0, []), s') := by
  obtain ⟨scan, s', hpass, -⟩ :=
    serving.forRows_eq ht t.schema Survey.noteStep (.start t.schema.width)
  rw [hshown] at hpass
  refine ⟨s', ?_⟩
  rw [buildHistograms, Survey.note_eq, schema_start, hpass]
  rfl

/-- The second pass counts what others leave in histograms that the first pass has laid out. -/
theorem buildHistograms_between (serving : s.Serving edits h counted)
    (ht : h.table name = .ok t) (hshown : (h.shown name).flatten = rows) (hrows : rows ≠ [])
    (conforms : ∀ r ∈ rows, r.Conforms t.schema) (pos : 0 < buckets)
    (edited : h.editAll (edits counted) = (.ok (), h')) (ht' : h'.table name = .ok t')
    (hshown' : (h'.shown name).flatten = rows') (conforms' : ∀ r ∈ rows', r.Conforms t.schema) :
    ∃ hs s', buildHistograms buckets (.scan (.start name t.schema t.pages.length)) s
        = (.ok (Nat.min rows.length rows'.length, hs), s') ∧ s'.heap = h'
      ∧ hs.length = t.schema.width
      ∧ ∀ (i : Nat) column hist, t.schema.columns[i]? = some column → hs[i]? = some hist →
          hist.type = column.type
            ∧ hist.Records buckets (fieldValues rows i) (fieldValues (rows'.take rows.length) i)
            ∧ hist.total = Nat.min rows.length rows'.length := by
  obtain ⟨scan, s₁, hfirst, htable, hschema, hlook, serving₁⟩ :=
    serving.forRows_eq ht t.schema Survey.noteStep (.start t.schema.width)
  rw [hshown] at hfirst
  obtain ⟨s₂, hpages, serving₂⟩ := serving₁.pageCount_eq edited ht'
  have hrewind := Scan.rewindOn_eq hlook (htable ▸ hpages)
  rw [htable, hschema] at hrewind
  have hsecond : ∀ limit counted, ∃ (scan₃ : Operator String) (s₃ : ContestedHeap),
      (Operator.scan (.start name t.schema t'.pages.length)).forRows (fillStep limit).visitor
          counted s₂
        = ⟨(walk (fillStep limit) rows' counted).1, scan₃, s₃⟩ ∧ s₃.heap = h' := by
    intro limit counted
    obtain ⟨scan₃, s₃, hpass, -, -, -, serving₃⟩ :=
      serving₂.forRows_eq ht' t.schema (fillStep limit) counted
    exact ⟨.scan scan₃, s₃, hshown' ▸ hpass, serving₃.heap_eq⟩
  exact buildHistograms_of_walks conforms hrows conforms' (fun _ ↦ pos) hfirst hrewind hsecond

/-- Until the first pass, two page counts are taken and nothing is written. -/
private theorem compute_of_interrupted (interrupted : c.Interrupted h')
    (ht : c.heap.table name = .ok t) (config : StatisticsConfig) :
    ∃ s : ContestedHeap, s.Serving c.edits c.heap (c.counted + 2)
      ∧ compute config name c
        = ((buildHistograms config.histogramBuckets
            (.scan (.start name t.schema t.pages.length)) s).1.map fun (rows, histograms) ↦
              ⟨name, t.schema, t.pages.length, rows, config.ioCostPerPage, histograms⟩,
          (buildHistograms config.histogramBuckets
            (.scan (.start name t.schema t.pages.length)) s).2) := by
  obtain ⟨s₁, hpages, serving₁⟩ :=
    interrupted.serving.pageCount_eq (congrArg c.heap.editAll interrupted.first) ht
  obtain ⟨s₂, hcount, serving₂⟩ :=
    serving₁.pageCount_eq (congrArg c.heap.editAll interrupted.second) ht
  have hopen : (Operator.scan (.ofTable name t.schema)).openOn s₁
      = ⟨.ok (), .scan (.start name t.schema t.pages.length), s₂⟩ :=
    Scan.openOn_eq (c := .ofTable name t.schema) rfl hcount
  refine ⟨s₂, serving₂, ?_⟩
  rw [compute, hpages]
  simp only [serving₁.tableSchema_eq ht, hopen]
  rfl

/-- **Statistics of a table that is written to.** Whatever others delete and insert between the two
passes, the statistics can be computed. The ranges of the histograms are those of the rows that the
table had before, and the first rows that it has after are counted, as many as it had before or all
if there are fewer; the heap stays as the others have left it. Without rows in the first pass there
are no histograms. -/
theorem compute_straddles {c : ContestedHeap} {h' : Heap} (interrupted : c.Interrupted h')
    (reachable : c.heap.Reachable) (few : c.heap.tables.length ≤ 2 ^ 32) {name : String}
    {t : HeapTable} (ht : c.heap.table name = .ok t) {config : StatisticsConfig}
    (pos : 1 ≤ config.histogramBuckets) :
    ∃ stats c' t', compute config name c = (.ok stats, c')
      ∧ ((c.heap.shown name).flatten ≠ [] → c'.heap = h')
      ∧ h'.table name = .ok t' ∧ t'.schema = t.schema
      ∧ stats.Straddles config t (c.heap.shown name).flatten (h'.shown name).flatten
      ∧ (t.pages.length ≤ 2 ^ 32 → (c.heap.shown name).flatten = t.rows)
      ∧ (t'.pages.length ≤ 2 ^ 32 → (h'.shown name).flatten = t'.rows) := by
  have keeps : c.heap.Keeps name t.schema := ⟨reachable, few, t, ht, rfl⟩
  have keeps' : h'.Keeps name t.schema := keeps.editAll interrupted.third
  obtain ⟨t', ht', hschema⟩ := keeps'.found
  obtain ⟨s, serving, hcompute⟩ := compute_of_interrupted interrupted ht config
  have hname := (Heap.name_of_table ht).symm
  have hflatten := Heap.flatten_shown (h := c.heap) ht
  have hflatten' := Heap.flatten_shown (h := h') ht'
  have conforms : ∀ r ∈ (c.heap.shown name).flatten, r.Conforms t.schema :=
    fun r hr ↦ reachable.sound.conforms_of_mem_shown ht hr
  have conforms' : ∀ r ∈ (h'.shown name).flatten, r.Conforms t.schema :=
    fun r hr ↦ hschema ▸ keeps'.reachable.sound.conforms_of_mem_shown ht' hr
  generalize hrows' : (h'.shown name).flatten = rows' at conforms' hflatten' ⊢
  generalize hrows : (c.heap.shown name).flatten = rows at conforms hflatten ⊢
  by_cases hempty : rows = []
  · subst hempty
    obtain ⟨s', hbuilt⟩ := buildHistograms_of_no_rows config.histogramBuckets serving ht hrows
    rw [hbuilt] at hcompute
    refine ⟨_, s', t', hcompute, fun hne ↦ absurd rfl hne, ht', hschema,
      ⟨hname, rfl, rfl, ?_, rfl, fun _ ↦ rfl, ?_, ?_⟩, hflatten, hflatten'⟩
    · exact (Nat.zero_min _).symm
    · exact fun hne ↦ absurd rfl hne
    · exact fun hne ↦ absurd rfl hne
  · obtain ⟨hs, s', hbuilt, hheap, hwidth, hrecords⟩ := buildHistograms_between serving ht hrows
      hempty conforms pos interrupted.third ht' hrows' conforms'
    rw [hbuilt] at hcompute
    refine ⟨_, s', t', hcompute, fun _ ↦ hheap, ht', hschema,
      ⟨hname, rfl, rfl, rfl, rfl, ?_, fun _ ↦ hwidth, fun _ ↦ hrecords⟩, hflatten, hflatten'⟩
    exact fun h ↦ absurd h hempty

/-- A heap with the rows 3 and 9, where others delete 3 and insert 20 and −5 between the passes. -/
def writtenBetween : ContestedHeap :=
  { ContestedHeap.ofHeap ((Heap.ofCapacity 2).run
      [.create "t" ⟨[⟨"n", .integer⟩]⟩, .insert "t" (.ofValues [.integer 3]),
        .insert "t" (.ofValues [.integer 9])]).2 with
    edits n := if n = 2 then [.delete ⟨[], some ⟨1, 0, 0⟩⟩,
      .insert "t" (.ofValues [.integer 20]), .insert "t" (.ofValues [.integer (-5)])] else [] }

/-- The three rows 9, 20 and −5 are found, of which two are counted, in the range from 3 to 9. -/
theorem compute_straddles_three :
    ∃ stats c' t h', writtenBetween.Interrupted h' ∧ writtenBetween.heap.Reachable
      ∧ writtenBetween.heap.tables.length ≤ 2 ^ 32
      ∧ writtenBetween.heap.table "t" = .ok t
      ∧ compute .standard "t" writtenBetween = (.ok stats, c') ∧ c'.heap = h'
      ∧ stats.rows = 2 ∧ stats.histograms.length = 1
      ∧ ∃ hist, stats.histograms[0]? = some hist ∧ hist.total = 2
        ∧ hist.Records 100 [.integer 3, .integer 9] [.integer 9, .integer 20] := by
  have reachable : writtenBetween.heap.Reachable := ⟨2, _, rfl⟩
  have few : writtenBetween.heap.tables.length ≤ 2 ^ 32 := by decide
  have ht : writtenBetween.heap.table "t" = .ok _ := rfl
  have interrupted : writtenBetween.Interrupted _ :=
    ⟨fun _ ↦ rfl, fun _ ↦ rfl, rfl, rfl, rfl, rfl⟩
  have pos : 1 ≤ StatisticsConfig.standard.histogramBuckets := by decide
  obtain ⟨stats, c', t', hstats, hheap, -, -, straddles, -⟩ :=
    compute_straddles interrupted reachable few ht pos
  have hrows := straddles.rows_eq
  have hlength := straddles.length_eq (by decide)
  obtain ⟨hist, hhist⟩ : ∃ hist, stats.histograms[0]? = some hist :=
    ⟨_, List.getElem?_eq_getElem (by rw [hlength]; decide)⟩
  obtain ⟨-, records, htotal⟩ := straddles.histogram (by decide) 0 _ hist rfl hhist
  exact ⟨stats, c', _, _, interrupted, reachable, few, ht, hstats, hheap (by decide), hrows,
    hlength, hist, hhist, htotal.trans hrows, records⟩

end TableStatistics

end QueryEngine
