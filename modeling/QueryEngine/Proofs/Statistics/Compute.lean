import QueryEngine.Proofs.Operator.ReadOnly
import QueryEngine.Proofs.Statistics.Passes

/-!
# Statistics of a heap

While nobody writes to a table, both passes of its statistics see the same rows. What is computed is
then a description of these rows (`TableStatistics.Describes`): their number, the number of pages,
and for each column the histogram of its values. Computing it fails in one case only, when a
histogram is asked for without buckets.

A description does not tell how the rows are ordered or how they are laid out on the pages
(`TableStatistics.Describes.ext_of_perm`). So the statistics depend on the rows as a multiset and on
the page count.
-/

namespace QueryEngine

variable {α : Type}

namespace TableStatistics

/-- The statistics are those of the table as it is. -/
structure Describes (stats : TableStatistics) (config : StatisticsConfig) (t : HeapTable) :
    Prop where
  table_eq : stats.table = t.name
  schema_eq : stats.schema = t.schema
  pages_eq : stats.pages = t.pages.length
  rows_eq : stats.rows = t.rows.length
  cost_eq : stats.ioCostPerPage = config.ioCostPerPage
  empty : t.rows = [] → stats.histograms = []
  /-- One histogram a column. -/
  length_eq : t.rows ≠ [] → stats.histograms.length = t.schema.width
  histogram : t.rows ≠ [] → ∀ (i : Nat) column h, t.schema.columns[i]? = some column →
    stats.histograms[i]? = some h → h.type = column.type
      ∧ h.Describes config.histogramBuckets (fieldValues t.rows i) ∧ h.total = t.rows.length

/-- Rows in any order, on as many pages, have the same statistics. -/
theorem Describes.ext_of_perm {stats stats' : TableStatistics} {config : StatisticsConfig}
    {t t' : HeapTable} (describes : stats.Describes config t)
    (describes' : stats'.Describes config t') (name : t.name = t'.name)
    (schema : t.schema = t'.schema) (pages : t.pages.length = t'.pages.length)
    (perm : (t.rows.map Row.values).Perm (t'.rows.map Row.values)) : stats = stats' := by
  have hlength : t.rows.length = t'.rows.length := by simpa using perm.length_eq
  have hempty : t.rows = [] ↔ t'.rows = [] := by
    rw [← List.length_eq_zero_iff, hlength, List.length_eq_zero_iff]
  have hvalues : ∀ i, (fieldValues t.rows i).Perm (fieldValues t'.rows i) := by
    intro i
    have hfilter := perm.filterMap (·[i]?)
    rwa [List.filterMap_map, List.filterMap_map] at hfilter
  have hhistograms : stats.histograms = stats'.histograms := by
    by_cases hrows : t.rows = []
    · rw [describes.empty hrows, describes'.empty (hempty.mp hrows)]
    · have hrows' := hrows ∘ hempty.mpr
      have hwidth := describes.length_eq hrows
      have hwidth' := describes'.length_eq hrows'
      apply List.ext_getElem
      · rw [hwidth, hwidth', schema]
      · intro i hi hi'
        obtain ⟨column, hcolumn⟩ : ∃ column, t.schema.columns[i]? = some column :=
          ⟨_, List.getElem?_eq_getElem (Nat.lt_of_lt_of_eq hi hwidth)⟩
        obtain ⟨-, hdescribes, -⟩ :=
          describes.histogram hrows i column _ hcolumn (List.getElem?_eq_getElem hi)
        obtain ⟨-, hdescribes', -⟩ :=
          describes'.histogram hrows' i column _ (schema ▸ hcolumn) (List.getElem?_eq_getElem hi')
        exact hdescribes.eq_of_perm hdescribes' (hvalues i)
  obtain ⟨table, schema₁, pages₁, rows, cost, histograms⟩ := stats
  obtain ⟨table', schema₂, pages₂, rows', cost', histograms'⟩ := stats'
  rw [mk.injEq]
  refine ⟨?_, ?_, ?_, ?_, ?_, hhistograms⟩
  · exact describes.table_eq.trans (name.trans describes'.table_eq.symm)
  · exact describes.schema_eq.trans (schema.trans describes'.schema_eq.symm)
  · exact describes.pages_eq.trans (pages.trans describes'.pages_eq.symm)
  · exact describes.rows_eq.trans (hlength.trans describes'.rows_eq.symm)
  · exact describes.cost_eq.trans describes'.cost_eq.symm

/-! ## The passes over an unchanged heap -/

variable {h : Heap} {op : Operator String} {rows : List Row} {buckets : Nat}

private theorem pass_eq (sound : op.Sound (· = h) h.shown) (running : op.Running h.shown)
    (step : Step α) (a : α) :
    ∃ op', op.forRows step.visitor a h = ⟨(walk step (op.remaining h.shown) a).1, op', h⟩
      ∧ op'.Running h.shown ∧ op'.bare = op.bare := by
  obtain ⟨hanswer, -, hstore, hrunning⟩ := Operator.forRows_walks sound running step a (s := h) rfl
  have hbare := op.bare_forRows (step.visitor : Visitor Heap α) a h
  generalize op.forRows step.visitor a h = reply at hanswer hstore hrunning hbare
  obtain ⟨answer, op', s⟩ := reply
  obtain rfl : s = h := hstore
  exact ⟨op', congrArg (Reply.mk · op' s) hanswer, hrunning, hbare⟩

private theorem rewindOn_eq (sound : op.Sound (· = h) h.shown) (running : op.Running h.shown) :
    ∃ op', op.rewindOn h = ⟨.ok (), op', h⟩ ∧ op'.Running h.shown ∧ op'.bare = op.bare
      ∧ op'.remaining h.shown = op.listing h.shown := by
  obtain ⟨hanswer, hrunning, hremaining, hbare, hstore⟩ :=
    Operator.rewindOn_starts sound running (s := h) rfl
  generalize op.rewindOn h = reply at hanswer hrunning hremaining hbare hstore
  obtain ⟨answer, op', s⟩ := reply
  obtain rfl : answer = .ok () := hanswer
  obtain rfl : s = h := hstore
  exact ⟨op', rfl, hrunning, hbare, hremaining⟩

theorem buildHistograms_of_empty (buckets : Nat) (sound : op.Sound (· = h) h.shown)
    (running : op.Running h.shown) (hremaining : op.remaining h.shown = []) :
    buildHistograms buckets op h = (.ok (0, []), h) := by
  obtain ⟨op', hpass, -, -⟩ := pass_eq sound running Survey.noteStep (.start op.schema.width)
  rw [hremaining] at hpass
  rw [buildHistograms, Survey.note_eq, hpass]
  rfl

theorem buildHistograms_of_no_buckets (sound : op.Sound (· = h) h.shown)
    (running : op.Running h.shown) (hremaining : op.remaining h.shown = rows)
    (conforms : ∀ r ∈ rows, r.Conforms op.schema) (hrows : rows ≠ [])
    (hcolumns : op.schema.columns ≠ []) :
    buildHistograms 0 op h = (.error .noBuckets, h) := by
  obtain ⟨op', hpass, -, -⟩ := pass_eq sound running Survey.noteStep (.start op.schema.width)
  obtain ⟨survey, hwalk, hcount, hlength, hranges⟩ := survey_ranges op.schema rows
  rw [hremaining, hwalk] at hpass
  have hsome : survey.rows ≠ 0 := by rwa [hcount, Ne, List.length_eq_zero_iff]
  have hempty := histograms_eq_error conforms hrows hcolumns hlength hranges
  rw [buildHistograms, Survey.note_eq, hpass]
  simp only [ForInStep.value, hsome, if_false, hempty]

theorem buildHistograms_eq_ok (sound : op.Sound (· = h) h.shown) (running : op.Running h.shown)
    (hremaining : op.remaining h.shown = rows) (hlisting : op.listing h.shown = rows)
    (conforms : ∀ r ∈ rows, r.Conforms op.schema) (hrows : rows ≠ [])
    (pos : op.schema.columns ≠ [] → 0 < buckets) :
    ∃ hs : List ColumnHistogram, buildHistograms buckets op h = (.ok (rows.length, hs), h)
      ∧ hs.length = op.schema.width
      ∧ ∀ (i : Nat) column hist, op.schema.columns[i]? = some column → hs[i]? = some hist →
          hist.type = column.type ∧ hist.Describes buckets (fieldValues rows i)
            ∧ hist.total = rows.length := by
  obtain ⟨op₁, hfirst, hrunning₁, hbare₁⟩ :=
    pass_eq sound running Survey.noteStep (.start op.schema.width)
  rw [hremaining] at hfirst
  have sound₁ := sound.of_bare_eq hbare₁
  obtain ⟨op₂, hrewind, hrunning₂, hbare₂, hremaining₂⟩ := rewindOn_eq sound₁ hrunning₁
  rw [Operator.listing_eq_of_bare_eq hbare₁, hlisting] at hremaining₂
  have hsecond : ∀ limit counted, ∃ op₃ s₃, op₂.forRows (fillStep limit).visitor counted h
      = ⟨(walk (fillStep limit) rows counted).1, op₃, s₃⟩ ∧ s₃ = h := by
    intro limit counted
    obtain ⟨op₃, hpass, -, -⟩ :=
      pass_eq (sound₁.of_bare_eq hbare₂) hrunning₂ (fillStep limit) counted
    exact ⟨op₃, h, hremaining₂ ▸ hpass, rfl⟩
  obtain ⟨hs, _, hbuilt, rfl, hwidth, hrecords⟩ :=
    buildHistograms_of_walks conforms hrows conforms pos hfirst hrewind hsecond
  have hmin : Nat.min rows.length rows.length = rows.length := Nat.min_self _
  rw [hmin] at hbuilt hrecords
  rw [List.take_length] at hrecords
  refine ⟨hs, hbuilt, hwidth, fun i column hist hcolumn hhist ↦ ?_⟩
  obtain ⟨htype, records, htotal⟩ := hrecords i column hist hcolumn hhist
  exact ⟨htype, records.describes rfl, htotal⟩

/-! ## Computing statistics -/

/-- Statistics of an unchanged heap begin with an open scan of the table, before its first row. -/
private theorem compute_eq {h : Heap} (sound : h.Sound) {name : String} {t : HeapTable}
    (ht : h.table name = .ok t) (few : t.pages.length ≤ 2 ^ 32) (config : StatisticsConfig) :
    ∃ op : Operator String, op.Sound (· = h) h.shown ∧ op.Running h.shown
      ∧ op.remaining h.shown = t.rows ∧ op.listing h.shown = t.rows ∧ op.schema = t.schema
      ∧ compute config name h
        = ((buildHistograms config.histogramBuckets op h).1.map fun (rows, histograms) ↦
            ⟨name, t.schema, t.pages.length, rows, config.ioCostPerPage, histograms⟩,
          (buildHistograms config.histogramBuckets op h).2) := by
  have hcount : Storage.pageCount name h = (.ok t.pages.length, h) := by
    change ((h.table name).map fun t ↦ t.pages.length, h) = _
    rw [ht]
    rfl
  have hschema : Storage.tableSchema h name = .ok t.schema := by
    change (h.table name).map HeapTable.schema = _
    rw [ht]
    rfl
  have hsound : (Operator.scan (.ofTable name t.schema)).Sound (· = h) h.shown :=
    ⟨h.displays ht, fun r hr ↦ sound.conforms_of_mem_shown ht hr⟩
  have hlisting : (Operator.scan (.ofTable name t.schema)).listing h.shown = t.rows :=
    Heap.flatten_shown ht few
  obtain ⟨hanswer, hrunning, hremaining, hbare, hstore⟩ :=
    Operator.openOn_starts hsound rfl (s := h) rfl
  generalize hopened : (Operator.scan (.ofTable name t.schema)).openOn h = opened
    at hanswer hrunning hremaining hbare hstore
  obtain ⟨answer, op, s⟩ := opened
  obtain rfl : answer = .ok () := hanswer
  obtain rfl : s = h := hstore
  refine ⟨op, hsound.of_bare_eq hbare, hrunning, hremaining.trans hlisting,
    (Operator.listing_eq_of_bare_eq hbare).trans hlisting,
    Operator.schema_eq_of_bare_eq hbare, ?_⟩
  rw [compute, hcount]
  simp only [hschema, hopened]
  rfl

/-- Whether histograms would have to be filled and there are no buckets for them. -/
def LacksBuckets (config : StatisticsConfig) (t : HeapTable) : Prop :=
  config.histogramBuckets = 0 ∧ t.rows ≠ [] ∧ t.schema.columns ≠ []

private theorem compute_of_lacksBuckets {h : Heap} (sound : h.Sound) {name : String}
    {t : HeapTable} (ht : h.table name = .ok t) (few : t.pages.length ≤ 2 ^ 32)
    {config : StatisticsConfig} (lacks : LacksBuckets config t) :
    compute config name h = (.error .noBuckets, h) := by
  obtain ⟨hbuckets, hrows, hcolumns⟩ := lacks
  obtain ⟨op, hsound, hrunning, hremaining, hlisting, hschema, hcompute⟩ :=
    compute_eq sound ht few config
  have conforms : ∀ r ∈ t.rows, r.Conforms op.schema :=
    fun r hr ↦ hsound.conforms (hlisting ▸ hr)
  rw [hcompute, hbuckets,
    buildHistograms_of_no_buckets hsound hrunning hremaining conforms hrows (hschema ▸ hcolumns)]
  rfl

theorem compute_eq_ok {h : Heap} (sound : h.Sound) {name : String} {t : HeapTable}
    (ht : h.table name = .ok t) (few : t.pages.length ≤ 2 ^ 32) {config : StatisticsConfig}
    (lacks : ¬LacksBuckets config t) :
    ∃ stats : TableStatistics,
      compute config name h = (.ok stats, h) ∧ stats.Describes config t := by
  obtain ⟨op, hsound, hrunning, hremaining, hlisting, hschema, hcompute⟩ :=
    compute_eq sound ht few config
  have hname := (Heap.name_of_table ht).symm
  by_cases hrows : t.rows = []
  · have hbuilt := buildHistograms_of_empty config.histogramBuckets hsound hrunning
      (hremaining.trans hrows)
    rw [hbuilt] at hcompute
    refine ⟨_, hcompute, hname, rfl, rfl, ?_, rfl, fun _ ↦ rfl, ?_, ?_⟩
    · exact (List.length_eq_zero_iff.mpr hrows).symm
    · exact fun hne ↦ absurd hrows hne
    · exact fun hne ↦ absurd hrows hne
  · have conforms : ∀ r ∈ t.rows, r.Conforms op.schema :=
      fun r hr ↦ hsound.conforms (hlisting ▸ hr)
    have pos : op.schema.columns ≠ [] → 0 < config.histogramBuckets := by
      intro hcolumns
      apply Nat.pos_of_ne_zero
      exact fun hbuckets ↦ lacks ⟨hbuckets, hrows, hschema ▸ hcolumns⟩
    obtain ⟨hs, hbuilt, hwidth, hdescribes⟩ :=
      buildHistograms_eq_ok hsound hrunning hremaining hlisting conforms hrows pos
    rw [hbuilt] at hcompute
    rw [hschema] at hwidth hdescribes
    exact ⟨_, hcompute, hname, rfl, rfl, rfl, rfl, fun hempty ↦ absurd hempty hrows,
      fun _ ↦ hwidth, fun _ ↦ hdescribes⟩

/-- **Statistics describe the table.** In a heap that nobody writes to, the statistics of a table
can be computed and describe it, unless it has a row and a column and there are to be no buckets.
They depend on the schema, the page count and the multiset of the rows, however these are ordered
and laid out. The heap stays as it is. -/
theorem compute_describes {h : Heap} (reachable : h.Reachable) {name : String} {t : HeapTable}
    (ht : h.table name = .ok t) (few : t.pages.length ≤ 2 ^ 32) (config : StatisticsConfig) :
    (LacksBuckets config t → compute config name h = (.error .noBuckets, h)
        ∧ QueryError.kind .noBuckets = .invalidArgument)
      ∧ (¬LacksBuckets config t → ∃ stats : TableStatistics,
        compute config name h = (.ok stats, h) ∧ stats.Describes config t)
      ∧ ∀ (h' : Heap) (t' : HeapTable), h'.Reachable → h'.table name = .ok t' →
          t'.schema = t.schema → t'.pages.length = t.pages.length →
            (t'.rows.map Row.values).Perm (t.rows.map Row.values) →
              (compute config name h').1 = (compute config name h).1 := by
  refine ⟨fun lacks ↦ ⟨compute_of_lacksBuckets reachable.sound ht few lacks, rfl⟩,
    compute_eq_ok reachable.sound ht few, ?_⟩
  intro h' t' reachable' ht' schema pages perm
  have few' : t'.pages.length ≤ 2 ^ 32 := pages ▸ few
  have hempty : t'.rows = [] ↔ t.rows = [] := by
    rw [← List.length_eq_zero_iff, ← List.length_map Row.values, perm.length_eq, List.length_map,
      List.length_eq_zero_iff]
  have hlacks : LacksBuckets config t' ↔ LacksBuckets config t := by
    rw [LacksBuckets, LacksBuckets, Ne, hempty, schema]
  by_cases lacks : LacksBuckets config t
  · rw [compute_of_lacksBuckets reachable.sound ht few lacks,
      compute_of_lacksBuckets reachable'.sound ht' few' (hlacks.mpr lacks)]
  · obtain ⟨stats, hstats, describes⟩ := compute_eq_ok reachable.sound ht few lacks
    obtain ⟨stats', hstats', describes'⟩ :=
      compute_eq_ok reachable'.sound ht' few' (lacks ∘ hlacks.mp)
    have hname := (Heap.name_of_table ht').trans (Heap.name_of_table ht).symm
    rw [hstats, hstats', describes'.ext_of_perm describes hname schema pages perm]

/-- The rows of `Plan.heapWithGap` in another order, with the gap elsewhere. -/
def heapReordered : Heap :=
  ((Heap.ofCapacity 2).run
    [.create "t" ⟨[⟨"n", .integer⟩]⟩, .insert "t" (.ofValues [.integer 3]),
      .insert "t" (.ofValues [.integer 9]), .insert "t" (.ofValues [.integer 7]),
      .delete ⟨[], some ⟨1, 0, 0⟩⟩]).2

/-- The same rows twice, and what comes of them without buckets. -/
theorem compute_describes_gap :
    ∃ stats t, Plan.heapWithGap.Reachable ∧ Plan.heapWithGap.table "t" = .ok t
      ∧ t.pages.length ≤ 2 ^ 32
      ∧ compute .standard "t" Plan.heapWithGap = (.ok stats, Plan.heapWithGap)
      ∧ stats.pages = 2 ∧ stats.rows = 2 ∧ stats.histograms.length = 1
      ∧ (compute .standard "t" heapReordered).1 = .ok stats
      ∧ compute ⟨1, 0⟩ "t" Plan.heapWithGap = (.error .noBuckets, Plan.heapWithGap) := by
  have reachable : Plan.heapWithGap.Reachable := ⟨2, _, rfl⟩
  have reachable' : heapReordered.Reachable := ⟨2, _, rfl⟩
  have ht : Plan.heapWithGap.table "t" = .ok _ := rfl
  have few : 2 ≤ 2 ^ 32 := by decide
  obtain ⟨-, hok, hperm⟩ := compute_describes reachable ht few .standard
  obtain ⟨hlacks, -, -⟩ := compute_describes reachable ht few ⟨1, 0⟩
  obtain ⟨stats, hstats, describes⟩ := hok fun lacks ↦ absurd lacks.1 (by decide)
  have hsame := hperm heapReordered _ reachable' rfl rfl rfl (by decide)
  rw [hstats] at hsame
  exact ⟨stats, _, reachable, ht, few, hstats, describes.pages_eq, describes.rows_eq,
    describes.length_eq (by decide), hsame, (hlacks ⟨rfl, by decide, by decide⟩).1⟩

/-- A heap whose table has one text. -/
def heapWithText : Heap :=
  ((Heap.ofCapacity 2).run
    [.create "t" ⟨[⟨"s", .text⟩]⟩, .insert "t" (.ofValues [.text "m"])]).2

/-- The range of a histogram of texts is that of all keys, and does not end with the least and the
greatest key of the texts that are there. -/
theorem text_range_exceeds_keys :
    ∃ (stats : TableStatistics) (t : HeapTable) (keys : IntHistogram),
      heapWithText.Reachable ∧ heapWithText.table "t" = .ok t
        ∧ t.rows.map Row.values = [[.text "m"]]
        ∧ compute ⟨1, 2⟩ "t" heapWithText = (.ok stats, heapWithText)
        ∧ stats.rows = 1 ∧ stats.histograms = [.text ⟨keys⟩] ∧ keys.counts = [0, 1]
        ∧ keys.min = 0 ∧ clampedKey "m" = 1828716544 ∧ keys.max = 2054847098 :=
  ⟨_, _, _, ⟨2, _, rfl⟩, rfl, rfl, rfl, rfl, rfl, rfl, rfl, rfl, rfl⟩

end TableStatistics

end QueryEngine
