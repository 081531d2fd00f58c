import QueryEngine.Proofs.Operator.Upholds
import QueryEngine.Proofs.Statistics.Passes
import QueryEngine.Proofs.Storage.Reachable
import QueryEngine.Storage.Contested

/-!
# Which estimates fail

An estimate is asked for a field and a constant. It fails if the table has no such column or if the
constant is not of its type, and never otherwise: the types are compared before a histogram is
looked at, and each histogram has the type of its column. Statistics that have counted no row
estimate zero.

Statistics count no row in two ways. If the first pass sees none, there are no histograms. If the
rows vanish before the second pass, there are histograms with nothing in them. Both are described
by one invariant of the schema, the count and the histograms (`TableStatistics.LaidOut`), which the
two passes keep whatever the storage shows them.
-/

namespace QueryEngine

variable {σ τ α : Type}

/-! ## One histogram -/

theorem IntHistogram.estimate_of_empty (F : Type) [Fractional F] {h : IntHistogram}
    (empty : h.total = 0) (op : Comparison) (v : Int64) :
    h.estimate F op v = Fractional.ofInt 0 :=
  if_pos empty

theorem TextHistogram.estimate_of_empty (F : Type) [Fractional F] {h : TextHistogram}
    (empty : h.total = 0) (op : Comparison) (s : String) :
    h.estimate F op s = Fractional.ofInt 0 := by
  rw [estimate]
  by_cases hlike : op = .like
  · rw [if_pos hlike, if_pos empty]
  · rw [if_neg hlike]
    exact IntHistogram.estimate_of_empty F empty op (clampedKey s)

namespace ColumnHistogram

/-- A histogram has an estimate for every value of its type, which is zero if nothing has been
counted. -/
theorem estimate_eq_ok (F : Type) [Fractional F] {h : ColumnHistogram} {v : Value}
    (htype : v.type = h.type) (op : Comparison) :
    ∃ x, h.estimate F op v = .ok x ∧ (h.total = 0 → x = Fractional.ofInt 0) := by
  rcases h with h | h <;> rcases v with n | s
  · exact ⟨_, rfl, fun empty ↦ h.estimate_of_empty F empty op n⟩
  · cases htype
  · cases htype
  · exact ⟨_, rfl, fun empty ↦ h.estimate_of_empty F empty op s⟩

theorem type_add {h h' : ColumnHistogram} {v : Value} (hadd : h.add v = .ok h') :
    h'.type = h.type := by
  rcases h with h | h <;> rcases v with n | s
  · obtain ⟨_, -, rfl⟩ := exists_of_map_eq_ok hadd
    rfl
  · cases hadd
  · cases hadd
  · obtain ⟨_, -, rfl⟩ := exists_of_map_eq_ok hadd
    rfl

end ColumnHistogram

/-! ## The histograms of a row -/

namespace Survey

theorem length_widenAll (ranges : List (Option (Int64 × Int64))) (values : List Value) :
    (widenAll ranges values).length = ranges.length := by
  fun_induction widenAll ranges values with
  | case1 range ranges v values ih => exact congrArg (· + 1) ih
  | case2 ranges values => rfl

theorem new_histogram {buckets : Nat} {column : Column} {range : Option (Int64 × Int64)}
    {h : ColumnHistogram} (hnew : histogram buckets column range = .ok h) :
    h.type = column.type ∧ h.total = 0 := by
  have htotal : ∀ {low high : Int64} {h : IntHistogram},
      IntHistogram.ofRange buckets low high = .ok h → h.total = 0 := by
    intro low high h hrange
    rw [IntHistogram.ofRange] at hrange
    split at hrange
    · cases hrange
    · split at hrange <;> cases hrange
      rfl
  obtain ⟨name, type⟩ := column
  cases type with
  | integer =>
    rcases range with _ | ⟨low, high⟩
    · cases hnew
    · obtain ⟨h, hrange, rfl⟩ := exists_of_map_eq_ok hnew
      exact ⟨rfl, htotal hrange⟩
  | text =>
    obtain ⟨h, hkeys, rfl⟩ := exists_of_map_eq_ok hnew
    obtain ⟨keys, hrange, rfl⟩ := exists_of_map_eq_ok hkeys
    exact ⟨rfl, htotal hrange⟩

theorem new_histograms {buckets : Nat} {columns : List Column}
    {ranges : List (Option (Int64 × Int64))} (hlength : ranges.length = columns.length)
    {hs : List ColumnHistogram} (hnew : histograms buckets columns ranges = .ok hs) :
    hs.map ColumnHistogram.type = columns.map Column.type ∧ ∀ h ∈ hs, h.total = 0 := by
  induction columns generalizing ranges hs with
  | nil =>
    rw [histograms] at hnew
    · cases hnew
      exact ⟨rfl, List.forall_mem_nil _⟩
    · intro _ _ _ _ h
      cases h
  | cons column columns ih =>
    rcases ranges with _ | ⟨range, ranges⟩
    · cases hlength
    · rw [histograms] at hnew
      split at hnew
      · cases hnew
      · next h hfirst =>
        obtain ⟨rest, hrest, rfl⟩ := exists_of_map_eq_ok hnew
        obtain ⟨htype, htotal⟩ := new_histogram hfirst
        obtain ⟨htypes, htotals⟩ := ih (Nat.succ.inj hlength) hrest
        exact ⟨congrArg₂ List.cons htype htypes, List.forall_mem_cons.mpr ⟨htotal, htotals⟩⟩

end Survey

theorem types_fillAll {hs hs' : List ColumnHistogram} {values : List Value}
    (hfill : fillAll hs values = .ok hs') :
    hs'.map ColumnHistogram.type = hs.map ColumnHistogram.type := by
  induction hs generalizing values hs' with
  | nil =>
    rw [fillAll] at hfill
    · cases hfill
      rfl
    · intro _ _ _ _ h
      cases h
  | cons h hs ih =>
    rcases values with _ | ⟨v, values⟩
    · cases hfill
      rfl
    · rw [fillAll] at hfill
      split at hfill
      · cases hfill
      · next h' hadd =>
        obtain ⟨rest, hrest, rfl⟩ := exists_of_map_eq_ok hfill
        exact congrArg₂ List.cons (ColumnHistogram.type_add hadd) (ih hrest)

/-! ## The passes -/

/-- A scan keeps an invariant of the running value that its visitor keeps, whatever the storage
shows. -/
theorem Scan.forRows_keeps [Storage σ τ] {visit : Visitor σ α} {inv : α → Prop}
    (upholds : visit.Upholds (fun _ ↦ True) (fun a _ ↦ inv a) fun _ _ ↦ True) (c : Scan τ) {a : α}
    (hinv : inv a) (s : σ) :
    Ends (fun a _ ↦ inv a) (fun _ _ ↦ True) (c.forRows visit a s).answer
      (c.forRows visit a s).store := by
  have reads : Reads c.table (fun _ ↦ True) (fun a (_ : σ) ↦ inv a) fun _ _ ↦ True :=
    ⟨fun _ _ _ _ _ hinv _ ↦ ⟨hinv, fun _ _ ↦ trivial⟩, fun _ _ _ _ _ _ _ ↦ trivial⟩
  have hpass : (c.forRows visit a s).Upholds (fun _ ↦ True) (fun a _ ↦ inv a)
      fun _ _ ↦ True := by
    refine Lookahead.resume_upholds (fun _ ↦ ⟨trivial, trivial⟩) trivial trivial
      (fun _ _ ↦ trivial) upholds hinv fun a s hinv ↦ ⟨trivial, ?_⟩
    have kinds : ∀ r ∈ c.pending, True := fun _ _ ↦ trivial
    have hrows := (visitRows_upholds upholds kinds hinv (s := s)).ends
    rcases hvisited : visitRows visit c.pending a s with ⟨e | ⟨a'⟩ | ⟨a'⟩, rest, s'⟩
    · trivial
    · rw [hvisited] at hrows
      exact hrows
    · rw [hvisited] at hrows
      exact (visitPages_upholds reads upholds (c.pageCount - c.nextPage) c.nextPage hrows).ends
  exact hpass.ends

theorem Scan.exists_of_rewindOn [Storage σ τ] (c : Scan τ) (s : σ) :
    ∃ c', ((Operator.scan c).rewindOn s).node = .scan c' := by
  rw [Operator.rewindOn]
  split <;> exact ⟨_, rfl⟩

theorem Scan.exists_of_openOn [Storage σ τ] (c : Scan τ) (s : σ) :
    ∃ c', ((Operator.scan c).openOn s).node = .scan c' := by
  rw [Operator.openOn]
  split <;> exact ⟨_, rfl⟩

namespace TableStatistics

/-- The statistics of a table of the given schema: one histogram a column and of its type, or none
at all, and with nothing in it if no row has been counted. -/
structure LaidOut (schema : Schema) (rows : Nat) (hs : List ColumnHistogram) : Prop where
  types : hs = [] ∨ hs.map ColumnHistogram.type = schema.types
  empty : rows = 0 → ∀ h ∈ hs, h.total = 0

theorem note_upholds (width : Nat) :
    (Survey.note : Visitor σ Survey).Upholds (fun _ ↦ True)
      (fun survey _ ↦ survey.ranges.length = width) fun _ _ ↦ True := by
  intro r survey s _ hlength
  exact (Survey.length_widenAll survey.ranges r.values).trans hlength

theorem fillRow_upholds (limit : Nat) (types : List ColumnType) :
    (fillRow limit : Visitor σ (Nat × List ColumnHistogram)).Upholds (fun _ ↦ True)
      (fun counted _ ↦ counted.2.map ColumnHistogram.type = types
        ∧ (counted.1 = 0 → ∀ h ∈ counted.2, h.total = 0)) fun _ _ ↦ True := by
  rintro r ⟨n, hs⟩ s - ⟨htypes, -⟩
  rw [fillRow]
  cases hfill : fillAll hs r.values with
  | error e => trivial
  | ok filled =>
    have hfilled := (types_fillAll hfill).trans htypes
    by_cases hlimit : n + 1 < limit
    · simp only [hlimit, if_true]
      exact ⟨hfilled, fun h ↦ absurd h (Nat.succ_ne_zero n)⟩
    · simp only [hlimit, if_false]
      exact ⟨hfilled, fun h ↦ absurd h (Nat.succ_ne_zero n)⟩

theorem laidOut_of_buildHistograms [Storage σ τ] {buckets : Nat} {c : Scan τ} {s s' : σ}
    {rows : Nat} {hs : List ColumnHistogram}
    (hbuilt : buildHistograms buckets (.scan c) s = (.ok (rows, hs), s')) :
    LaidOut c.schema rows hs := by
  have hsurvey := c.forRows_keeps (note_upholds c.schema.width) (a := .start c.schema.width)
    List.length_replicate s
  rcases hfirst : c.forRows Survey.note (.start c.schema.width) s with ⟨e | step, c₁, s₁⟩
  · have hpass : (Operator.scan c).forRows Survey.note (.start (Operator.scan c).schema.width) s
        = ⟨.error e, .scan c₁, s₁⟩ := congrArg (Reply.mapNode Operator.scan) hfirst
    rw [buildHistograms, hpass] at hbuilt
    cases hbuilt
  · have hpass : (Operator.scan c).forRows Survey.note (.start (Operator.scan c).schema.width) s
        = ⟨.ok step, .scan c₁, s₁⟩ := congrArg (Reply.mapNode Operator.scan) hfirst
    rw [hfirst] at hsurvey
    rw [buildHistograms, hpass] at hbuilt
    dsimp only at hbuilt
    split at hbuilt
    · cases hbuilt
      exact ⟨.inl rfl, fun _ ↦ List.forall_mem_nil _⟩
    · split at hbuilt
      · cases hbuilt
      · next empty hnew =>
        obtain ⟨htypes, htotals⟩ := Survey.new_histograms hsurvey hnew
        obtain ⟨c₂, hc₂⟩ := c₁.exists_of_rewindOn s₁
        rcases hrewind : (Operator.scan c₁).rewindOn s₁ with ⟨e | _, scan₂, s₂⟩
        · rw [hrewind] at hbuilt
          cases hbuilt
        · rw [hrewind] at hbuilt hc₂
          obtain rfl : scan₂ = .scan c₂ := hc₂
          have hcounted := c₂.forRows_keeps
            (fillRow_upholds step.value.rows c.schema.types) (a := (0, empty))
            ⟨htypes, fun _ ↦ htotals⟩ s₂
          have hpair := Prod.mk.inj hbuilt
          obtain ⟨last, hlast, hvalue⟩ := exists_of_map_eq_ok hpair.1
          have hanswer : (c₂.forRows (fillRow step.value.rows) (0, empty) s₂).answer = .ok last :=
            hlast
          rw [hanswer] at hcounted
          rw [Ends, hvalue] at hcounted
          exact ⟨.inr hcounted.1, hcounted.2⟩

theorem laidOut_of_compute [Storage σ τ] {config : StatisticsConfig} {table : τ} {s s' : σ}
    {stats : TableStatistics} (h : compute config table s = (.ok stats, s')) :
    Storage.tableSchema (Storage.pageCount table s).2 table = .ok stats.schema
      ∧ LaidOut stats.schema stats.rows stats.histograms := by
  rw [compute] at h
  rcases hcount : Storage.pageCount table s with ⟨e | pages, s₁⟩
  · rw [hcount] at h
    cases h
  · rw [hcount] at h
    dsimp only at h
    split at h
    · cases h
    · next schema hschema =>
      obtain ⟨c, hc⟩ := (Scan.ofTable table schema).exists_of_openOn s₁
      have hbare := Operator.bare_openOn (.scan (.ofTable table schema)) s₁
      rcases hopen : (Operator.scan (.ofTable table schema)).openOn s₁ with ⟨e | _, scan, s₂⟩
      · rw [hopen] at h
        cases h
      · rw [hopen] at h hc hbare
        obtain rfl : scan = .scan c := hc
        have hwidth : c.schema = schema := Operator.schema_eq_of_bare_eq hbare
        obtain ⟨hanswer, -⟩ := Prod.mk.inj h
        obtain ⟨⟨rows, hs⟩, hbuilt, rfl⟩ := exists_of_map_eq_ok hanswer
        have laidOut := laidOut_of_buildHistograms (Prod.ext hbuilt rfl)
        exact ⟨hschema, hwidth ▸ laidOut⟩

/-! ## Estimates -/

section

variable (F : Type) [Fractional F] {stats : TableStatistics} {field : Nat} {column : Column}
  {v : Value}

theorem selectivity_of_width_le (hfield : stats.schema.width ≤ field) (op : Comparison) :
    stats.selectivity F field op v = .error (.columnOutOfRange field stats.schema.width) := by
  have hnone : stats.schema.columns[field]? = none := List.getElem?_eq_none hfield
  rw [selectivity, Schema.columnType, Schema.column, hnone]
  rfl

theorem selectivity_of_type_ne (hcolumn : stats.schema.columns[field]? = some column)
    (hne : v.type ≠ column.type) (op : Comparison) :
    stats.selectivity F field op v = .error (.typeMismatch column.type v.type) := by
  have hexpect : v.expect column.type = .error (.typeMismatch column.type v.type) := if_neg hne
  rw [selectivity, Schema.columnType, Schema.column, hcolumn]
  simp only [Except.map, hexpect]

theorem LaidOut.column_of_histogram
    (laidOut : LaidOut stats.schema stats.rows stats.histograms) {hist : ColumnHistogram}
    (hhist : stats.histogram? field = some hist) :
    ∃ column, stats.schema.columns[field]? = some column ∧ hist.type = column.type := by
  rw [histogram?] at hhist
  rcases laidOut.types with hnone | htypes
  · rw [hnone] at hhist
    cases hhist
  · have hfield : (stats.histograms.map ColumnHistogram.type)[field]? = some hist.type := by
      rw [List.getElem?_map, hhist, Option.map_some]
    rw [htypes, Schema.types, List.getElem?_map] at hfield
    obtain ⟨column, hcolumn, htype⟩ := Option.map_eq_some_iff.mp hfield
    exact ⟨column, hcolumn, htype.symm⟩

theorem LaidOut.selectivity_of_type_eq
    (laidOut : LaidOut stats.schema stats.rows stats.histograms)
    (hcolumn : stats.schema.columns[field]? = some column) (htype : v.type = column.type)
    (op : Comparison) :
    ∃ x, stats.selectivity F field op v = .ok x
      ∧ (stats.rows = 0 → x = Fractional.ofInt 0) := by
  have hexpect : v.expect column.type = .ok () := Value.expect_eq_ok_iff.mpr htype
  rw [selectivity, Schema.columnType, Schema.column, hcolumn]
  simp only [Except.map, hexpect]
  cases hhist : stats.histogram? field with
  | none => exact ⟨_, rfl, fun _ ↦ rfl⟩
  | some hist =>
    obtain ⟨column', hcolumn', htype'⟩ := laidOut.column_of_histogram hhist
    obtain rfl := Option.some.inj (hcolumn.symm.trans hcolumn')
    obtain ⟨x, hx, hzero⟩ := ColumnHistogram.estimate_eq_ok F (htype.trans htype'.symm) op
    refine ⟨x, hx, fun hrows ↦ hzero ?_⟩
    exact laidOut.empty hrows hist (List.mem_of_getElem? hhist)

end

/-- Nothing is written before the first page count, so the schema read after it is that of the
table. -/
private theorem tableSchema_of_first {c : ContestedHeap} (announced : c.announced = [])
    (first : c.edits c.counted = []) {name : String} {t : HeapTable}
    (ht : c.heap.table name = .ok t) :
    Storage.tableSchema (Storage.pageCount name c).2 name = .ok t.schema := by
  have hcount : (c.pageCount name).2.announced = [] ∧ (c.pageCount name).2.heap = c.heap := by
    rw [ContestedHeap.pageCount]
    split
    · exact ⟨announced, rfl⟩
    · rw [first]
      exact ⟨announced, rfl⟩
  change (c.pageCount name).2.tableSchema name = _
  rw [ContestedHeap.tableSchema, hcount.1, hcount.2]
  exact congrArg (Except.map HeapTable.schema) ht

/-- **Which estimates fail.** However a table has been written to while its statistics were
computed, once its schema had been read, an estimate fails for a column that there is not and for a
constant of another type than the column's, and never otherwise. If no row has been counted, because
there was none in the first pass or none any more in the second, every estimate is zero, that for
LIKE included. A histogram has the type of its column, so that it has an estimate for every constant
that is let through to it. -/
theorem selectivity_of_compute {c c' : ContestedHeap} (announced : c.announced = [])
    (first : c.edits c.counted = []) {name : String} {t : HeapTable}
    (ht : c.heap.table name = .ok t) {config : StatisticsConfig} {stats : TableStatistics}
    (h : compute config name c = (.ok stats, c')) (F : Type) [Fractional F] (field : Nat)
    (op : Comparison) (v : Value) :
    (stats.selectivity F field op v = .error (.columnOutOfRange field t.schema.width)
        ↔ t.schema.width ≤ field)
      ∧ (∀ column, t.schema.columns[field]? = some column →
          (stats.selectivity F field op v = .error (.typeMismatch column.type v.type)
              ↔ v.type ≠ column.type)
            ∧ ((∃ x, stats.selectivity F field op v = .ok x) ↔ v.type = column.type))
      ∧ (stats.rows = 0 → ∀ x, stats.selectivity F field op v = .ok x → x = Fractional.ofInt 0)
      ∧ ∀ hist, stats.histogram? field = some hist →
          ∃ column, t.schema.columns[field]? = some column ∧ hist.type = column.type
            ∧ (v.type = column.type → ∃ x, hist.estimate F op v = .ok x) := by
  obtain ⟨hschema, laidOut⟩ := laidOut_of_compute h
  have hstats : stats.schema = t.schema :=
    Except.ok.inj (hschema.symm.trans (tableSchema_of_first announced first ht))
  rw [← hstats]
  have hhistogram : ∀ hist, stats.histogram? field = some hist →
      ∃ column, stats.schema.columns[field]? = some column ∧ hist.type = column.type
        ∧ (v.type = column.type → ∃ x, hist.estimate F op v = .ok x) := by
    intro hist hhist
    obtain ⟨column, hcolumn, htype⟩ := laidOut.column_of_histogram hhist
    refine ⟨column, hcolumn, htype, fun hv ↦ ?_⟩
    obtain ⟨x, hx, -⟩ := ColumnHistogram.estimate_eq_ok F (hv.trans htype.symm) op
    exact ⟨x, hx⟩
  rcases Nat.lt_or_ge field stats.schema.width with hlt | hle
  · have hcolumn := List.getElem?_eq_getElem (l := stats.schema.columns) hlt
    by_cases htype : v.type = stats.schema.columns[field].type
    · obtain ⟨x, hx, hzero⟩ := laidOut.selectivity_of_type_eq F hcolumn htype op
      refine ⟨by simp [hx, hlt], fun column hcolumn' ↦ ?_, ?_, hhistogram⟩
      · obtain rfl := Option.some.inj (hcolumn.symm.trans hcolumn')
        simp [hx, htype]
      · intro hrows y hy
        rw [hx] at hy
        cases hy
        exact hzero hrows
    · have herror := selectivity_of_type_ne F hcolumn htype op
      refine ⟨by simp [herror, hlt], fun column hcolumn' ↦ ?_, ?_, hhistogram⟩
      · obtain rfl := Option.some.inj (hcolumn.symm.trans hcolumn')
        simp [herror, htype]
      · simp [herror]
  · have herror := selectivity_of_width_le F hle op (v := v)
    have hcolumn : stats.schema.columns[field]? = none := List.getElem?_eq_none hle
    refine ⟨by simp [herror, hle], by simp [hcolumn], by simp [herror], hhistogram⟩

/-- A heap with one row, which others delete between the passes. -/
def vanishedBetween : ContestedHeap :=
  { ContestedHeap.ofHeap ((Heap.ofCapacity 2).run
      [.create "t" ⟨[⟨"n", .integer⟩, ⟨"s", .text⟩]⟩,
        .insert "t" (.ofValues [.integer 3, .text "ab"])]).2 with
    edits n := if n = 2 then [.delete ⟨[], some ⟨1, 0, 0⟩⟩] else [] }

/-- There are histograms and nothing in them, and LIKE is estimated to hold for none. -/
theorem selectivity_of_compute_vanished :
    ∃ stats c' t, vanishedBetween.announced = []
      ∧ vanishedBetween.edits vanishedBetween.counted = []
      ∧ vanishedBetween.heap.table "t" = .ok t
      ∧ compute .standard "t" vanishedBetween = (.ok stats, c')
      ∧ stats.rows = 0 ∧ stats.histograms.length = 2
      ∧ stats.selectivity Rat 1 .like (.text "b") = .ok 0
      ∧ stats.selectivity Rat 1 .like (.integer 3) = .error (.typeMismatch .text .integer)
      ∧ stats.selectivity Rat 2 .like (.text "b") = .error (.columnOutOfRange 2 2) := by
  have ht : vanishedBetween.heap.table "t" = .ok _ := rfl
  obtain ⟨stats, c', hstats, hrows, hlength⟩ : ∃ stats c',
      compute .standard "t" vanishedBetween = (.ok stats, c') ∧ stats.rows = 0
        ∧ stats.histograms.length = 2 := ⟨_, _, rfl, rfl, rfl⟩
  have hselectivity := selectivity_of_compute rfl rfl ht hstats Rat
  obtain ⟨-, hcolumn, hzero, -⟩ := hselectivity 1 .like (.text "b")
  obtain ⟨x, hx⟩ := (hcolumn _ rfl).2.mpr rfl
  rw [hzero hrows x hx] at hx
  exact ⟨stats, c', _, rfl, rfl, ht, hstats, hrows, hlength, hx,
    (((hselectivity 1 .like (.integer 3)).2.1 _ rfl).1).mpr (by decide),
    (hselectivity 2 .like (.text "b")).1.mpr (by decide)⟩

end TableStatistics

end QueryEngine
