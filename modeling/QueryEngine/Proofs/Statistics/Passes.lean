import Mathlib.Data.List.Induction
import QueryEngine.Proofs.Histogram.Counts
import QueryEngine.Proofs.Operator.Walk
import QueryEngine.Statistics.Table

/-!
# The two passes of statistics

Each pass walks over the rows of a table, and within a row over its values together with what is
kept for the columns. Read a column at a time, the passes are simple: the first one folds the values
of a column into a range (`walk_noteStep`), and the second one counts them in the histogram of that
range (`walk_fillStep`). The values of a column are `fieldValues`.

The second pass is told how many rows to count. It may find more of them or fewer.
-/

namespace QueryEngine

/-- The values that rows have at a position, in order. -/
def fieldValues (rows : List Row) (i : Nat) : List Value :=
  rows.filterMap fun r ↦ r.values[i]?

theorem fieldValues_cons_of_some {r : Row} {i : Nat} {v : Value} (h : r.values[i]? = some v)
    (rows : List Row) : fieldValues (r :: rows) i = v :: fieldValues rows i :=
  List.filterMap_cons_some h

theorem fieldValues_cons_of_none {r : Row} {i : Nat} (h : r.values[i]? = none)
    (rows : List Row) : fieldValues (r :: rows) i = fieldValues rows i :=
  List.filterMap_cons_none h

theorem fieldValues_append (rows rows' : List Row) (i : Nat) :
    fieldValues (rows ++ rows') i = fieldValues rows i ++ fieldValues rows' i :=
  List.filterMap_append

theorem fieldValues_of_conforms {schema : Schema} {rows : List Row}
    (conforms : ∀ r ∈ rows, r.Conforms schema) {i : Nat} {column : Column}
    (hi : schema.columns[i]? = some column) :
    (fieldValues rows i).length = rows.length ∧ ∀ v ∈ fieldValues rows i, v.type = column.type := by
  have htype : ∀ r ∈ rows, ∃ v, r.values[i]? = some v ∧ v.type = column.type := by
    intro r hr
    have htypes : r.types[i]? = some column.type := by
      rw [conforms r hr, Schema.types, List.getElem?_map, hi]
      rfl
    rwa [Row.types, List.getElem?_map, Option.map_eq_some_iff] at htypes
  constructor
  · rw [fieldValues, List.length_filterMap_eq_countP, List.countP_eq_length]
    intro r hr
    obtain ⟨v, hv, -⟩ := htype r hr
    rw [hv]
    rfl
  · intro v hv
    obtain ⟨r, hr, hrv⟩ := List.mem_filterMap.mp hv
    obtain ⟨w, hw, hwtype⟩ := htype r hr
    rwa [Option.some.inj (hrv.symm.trans hw)]

/-! ## The first pass -/

namespace Survey

def noteStep : Step Survey :=
  fun r survey ↦ .ok (.yield ⟨survey.rows + 1, widenAll survey.ranges r.values⟩)

theorem note_eq {σ : Type} : (note : Visitor σ Survey) = noteStep.visitor := rfl

theorem getElem?_widenAll (ranges : List (Option (Int64 × Int64))) (values : List Value) (i : Nat) :
    (widenAll ranges values)[i]?
      = ranges[i]?.map fun range ↦ values[i]?.elim range (widen range) := by
  induction ranges generalizing values i with
  | nil => cases values <;> rfl
  | cons range ranges ih =>
    rcases values with _ | ⟨v, values⟩
    · rw [widenAll]
      · simp
      · simp
    · rcases i with _ | i
      · rfl
      · simpa [widenAll] using ih values i

/-- The first pass counts the rows and folds the values of each column into its range. -/
theorem walk_noteStep (rows : List Row) (survey : Survey) :
    (walk noteStep rows survey).1
      = .ok (.yield ⟨survey.rows + rows.length,
          survey.ranges.mapIdx fun i range ↦ (fieldValues rows i).foldl widen range⟩) := by
  induction rows generalizing survey with
  | nil =>
    have hranges : survey.ranges.mapIdx (fun i range ↦ (fieldValues [] i).foldl widen range)
        = survey.ranges := by
      apply List.ext_getElem?
      intro i
      simp [List.getElem?_mapIdx, fieldValues]
    rw [hranges]
    rfl
  | cons r rest ih =>
    have hranges : (widenAll survey.ranges r.values).mapIdx
          (fun i range ↦ (fieldValues rest i).foldl widen range)
        = survey.ranges.mapIdx fun i range ↦ (fieldValues (r :: rest) i).foldl widen range := by
      apply List.ext_getElem?
      intro i
      rw [List.getElem?_mapIdx, List.getElem?_mapIdx, getElem?_widenAll, Option.map_map]
      cases hv : r.values[i]? with
      | none => rw [fieldValues_cons_of_none hv]; rfl
      | some v => rw [fieldValues_cons_of_some hv]; rfl
    have hlength : survey.rows + (r :: rest).length = survey.rows + 1 + rest.length := by
      rw [List.length_cons]
      omega
    rw [hlength, ← hranges]
    exact ih ⟨survey.rows + 1, widenAll survey.ranges r.values⟩

/-- The range ends with the least and the greatest of the numbers, and is missing if there are
none. -/
def Bounds : Option (Int64 × Int64) → List Int64 → Prop
  | none, numbers => numbers = []
  | some (low, high), numbers =>
    (low ∈ numbers ∧ ∀ n ∈ numbers, low ≤ n) ∧ (high ∈ numbers ∧ ∀ n ∈ numbers, n ≤ high)

theorem bounds_widen {range : Option (Int64 × Int64)} {numbers : List Int64}
    (bounds : Bounds range numbers) (v : Int64) :
    Bounds (widen range (.integer v)) (numbers ++ [v]) := by
  rcases range with _ | ⟨low, high⟩
  · obtain rfl : numbers = [] := bounds
    simp [widen, Bounds]
  · obtain ⟨⟨hlow, hleast⟩, hhigh, hgreatest⟩ := bounds
    have hlower : Min.min low v ≤ low ∧ Min.min low v ≤ v := by
      change (if low ≤ v then low else v) ≤ low ∧ (if low ≤ v then low else v) ≤ v
      split
      · next hle => exact ⟨Int64.le_refl _, hle⟩
      · next hlt => exact ⟨Int64.le_of_lt (Int64.not_le.mp hlt), Int64.le_refl _⟩
    have hupper : high ≤ Max.max high v ∧ v ≤ Max.max high v := by
      change high ≤ (if high ≤ v then v else high) ∧ v ≤ (if high ≤ v then v else high)
      split
      · next hle => exact ⟨hle, Int64.le_refl _⟩
      · next hlt => exact ⟨Int64.le_refl _, Int64.le_of_lt (Int64.not_le.mp hlt)⟩
    refine ⟨⟨?_, ?_⟩, ?_, ?_⟩
    · change (if low ≤ v then low else v) ∈ numbers ++ [v]
      split <;> simp [hlow]
    · intro n hn
      rcases List.mem_append.mp hn with hold | hnew
      · exact Int64.le_trans hlower.1 (hleast n hold)
      · rw [List.mem_singleton.mp hnew]
        exact hlower.2
    · change (if high ≤ v then v else high) ∈ numbers ++ [v]
      split <;> simp [hhigh]
    · intro n hn
      rcases List.mem_append.mp hn with hold | hnew
      · exact Int64.le_trans (hgreatest n hold) hupper.1
      · rw [List.mem_singleton.mp hnew]
        exact hupper.2

/-- The range of a column of numbers. -/
theorem bounds_foldl_widen (numbers : List Int64) :
    Bounds ((numbers.map Value.integer).foldl widen none) numbers := by
  induction numbers using List.reverseRecOn with
  | nil => rfl
  | append_singleton numbers n ih =>
    rw [List.map_append, List.foldl_append]
    exact bounds_widen ih n

/-! ## The empty histograms -/

/-- The range of the histogram of a column, in which that of its numbers shows only if it has
numbers. -/
def keyRange (type : ColumnType) (range : Option (Int64 × Int64)) : Option (Int64 × Int64) :=
  match type with
  | .integer => range
  | .text => some (Int64.ofNat (textKey ""), Int64.ofNat lastKey)

private theorem exists_integers {values : List Value} (types : ∀ v ∈ values, v.type = .integer) :
    ∃ numbers : List Int64, values = numbers.map .integer := by
  refine ⟨values.filterMap Value.integer?, Eq.symm ?_⟩
  rw [List.map_filterMap]
  refine (List.filterMap_congr fun v hv ↦ ?_).trans List.filterMap_some
  rcases v with n | s
  · rfl
  · cases types _ hv

private theorem exists_texts {values : List Value} (types : ∀ v ∈ values, v.type = .text) :
    ∃ texts : List String, values = texts.map .text := by
  refine ⟨values.filterMap Value.text?, Eq.symm ?_⟩
  rw [List.map_filterMap]
  refine (List.filterMap_congr fun v hv ↦ ?_).trans List.filterMap_some
  rcases v with n | s
  · cases types _ hv
  · rfl

/-- A column that has values has a range of keys, and it is the one that a histogram for the values
is over, whichever values it counts. -/
theorem keyRange_foldl_widen {type : ColumnType} {values : List Value}
    (types : ∀ v ∈ values, v.type = type) (nonempty : values ≠ []) :
    ∃ low high, keyRange type (values.foldl widen none) = some (low, high) ∧ low ≤ high
      ∧ ∀ buckets (h : ColumnHistogram) (counted : List Value), h.type = type →
          h.Counts counted → h.keys.Spans buckets low high → h.Records buckets values counted := by
  rcases type with _ | _
  · obtain ⟨numbers, rfl⟩ := exists_integers types
    have bounds := bounds_foldl_widen numbers
    rcases hrange : (numbers.map Value.integer).foldl widen none with _ | ⟨low, high⟩
    · rw [hrange] at bounds
      obtain rfl : numbers = [] := bounds
      exact absurd rfl nonempty
    · rw [hrange] at bounds
      obtain ⟨least, greatest⟩ := bounds
      refine ⟨low, high, rfl, greatest.2 low least.1, ?_⟩
      rintro buckets (h | h) counted htype counts spans
      · obtain ⟨counted, rfl⟩ := exists_integers counts.types
        exact counts.records_integer least greatest spans
      · cases htype
  · obtain ⟨texts, rfl⟩ := exists_texts types
    obtain ⟨hfirst, hlast⟩ := clampedKey_bounds ""
    refine ⟨_, _, rfl, Int64.le_trans hfirst hlast, ?_⟩
    rintro buckets (h | h) counted htype counts spans
    · cases htype
    · obtain ⟨counted, rfl⟩ := exists_texts counts.types
      exact counts.records_text spans texts

structure Ready (buckets : Nat) (column : Column) (range : Option (Int64 × Int64))
    (h : ColumnHistogram) : Prop where
  type_eq : h.type = column.type
  counts : h.Counts []
  spans : ∃ low high, keyRange column.type range = some (low, high) ∧ h.keys.Spans buckets low high

theorem histogram_eq_ok {buckets : Nat} (pos : 0 < buckets) {column : Column}
    {range : Option (Int64 × Int64)} {low high : Int64}
    (hrange : keyRange column.type range = some (low, high)) (hle : low ≤ high) :
    ∃ h, histogram buckets column range = .ok h ∧ Ready buckets column range h := by
  obtain ⟨h, hnew, spans, counts⟩ := IntHistogram.ofRange_eq_ok pos hle
  obtain ⟨name, type⟩ := column
  rcases type with _ | _
  · obtain rfl : range = some (low, high) := hrange
    have hends : h.min ≤ h.max := by rwa [spans.min_eq, spans.max_eq]
    exact ⟨.integer h, congrArg (Except.map _) hnew, rfl,
      ColumnHistogram.counts_nil_integer counts hends, low, high, rfl, spans⟩
  · have hkeys : Int64.ofNat (textKey "") = low ∧ Int64.ofNat lastKey = high :=
      Prod.mk.inj (Option.some.inj hrange)
    obtain ⟨rfl, rfl⟩ := hkeys
    exact ⟨.text ⟨h⟩, congrArg (Except.map _ ∘ Except.map TextHistogram.mk) hnew, rfl,
      ColumnHistogram.counts_nil_text (h := ⟨h⟩) counts spans, _, _, rfl, spans⟩

theorem histogram_eq_error {column : Column} {range : Option (Int64 × Int64)} {low high : Int64}
    (hrange : keyRange column.type range = some (low, high)) :
    histogram 0 column range = .error .noBuckets := by
  obtain ⟨name, type⟩ := column
  rcases type with _ | _
  · obtain rfl : range = some (low, high) := hrange
    rfl
  · rfl

theorem histograms_eq_ok {buckets : Nat} {columns : List Column} (pos : columns ≠ [] → 0 < buckets)
    {ranges : List (Option (Int64 × Int64))} (hlength : ranges.length = columns.length)
    (hranges : ∀ (i : Nat) (column : Column) range, columns[i]? = some column →
      ranges[i]? = some range →
        ∃ low high, keyRange column.type range = some (low, high) ∧ low ≤ high) :
    ∃ hs : List ColumnHistogram, histograms buckets columns ranges = .ok hs
      ∧ hs.length = columns.length
      ∧ ∀ (i : Nat) (column : Column) range (h : ColumnHistogram), columns[i]? = some column →
          ranges[i]? = some range → hs[i]? = some h → Ready buckets column range h := by
  induction columns generalizing ranges with
  | nil => exact ⟨[], by simp [histograms], rfl, by simp⟩
  | cons column columns ih =>
    rcases ranges with _ | ⟨range, ranges⟩
    · cases hlength
    · obtain ⟨low, high, hrange, hle⟩ := hranges 0 column range rfl rfl
      have pos' := pos (List.cons_ne_nil column columns)
      obtain ⟨h, hnew, hready⟩ := histogram_eq_ok pos' hrange hle
      obtain ⟨hs, hrest, hlen, hreadies⟩ :=
        ih (fun _ ↦ pos') (Nat.succ.inj hlength) fun i ↦ hranges (i + 1)
      refine ⟨h :: hs, by rw [histograms, hnew, hrest]; rfl, congrArg (· + 1) hlen, ?_⟩
      rintro (_ | i) column' range' h' hcolumn hrange' hh
      · cases hcolumn
        cases hrange'
        cases hh
        exact hready
      · exact hreadies i column' range' h' hcolumn hrange' hh

end Survey

/-! ## The second pass -/

/-- Counts a row in the histograms and stops after the last row that is to be counted. -/
def fillStep (limit : Nat) : Step (Nat × List ColumnHistogram) :=
  fun r counted ↦
    match fillAll counted.2 r.values with
    | .error e => .error e
    | .ok filled =>
      .ok (if counted.1 + 1 < limit then .yield (counted.1 + 1, filled)
        else .done (counted.1 + 1, filled))

theorem fillRow_eq {σ : Type} (limit : Nat) :
    (fillRow limit : Visitor σ (Nat × List ColumnHistogram)) = (fillStep limit).visitor := by
  funext r counted s
  obtain ⟨n, histograms⟩ := counted
  rw [fillRow, Step.visitor, fillStep]
  rcases fillAll histograms r.values with e | filled <;> rfl

theorem fillAll_eq_ok {P Q : Nat → ColumnHistogram → Prop} {hs : List ColumnHistogram}
    {values : List Value} (hlength : values.length = hs.length)
    (hadd : ∀ i h v, P i h → values[i]? = some v → ∃ h', h.add v = .ok h' ∧ Q i h')
    (hall : ∀ i h, hs[i]? = some h → P i h) :
    ∃ hs' : List ColumnHistogram, fillAll hs values = .ok hs' ∧ hs'.length = hs.length
      ∧ ∀ (i : Nat) h, hs'[i]? = some h → Q i h := by
  induction hs generalizing values P Q with
  | nil => exact ⟨[], by simp [fillAll], rfl, by simp⟩
  | cons h hs ih =>
    rcases values with _ | ⟨v, values⟩
    · cases hlength
    · obtain ⟨h', hnew, hQ⟩ := hadd 0 h v (hall 0 h rfl) rfl
      obtain ⟨hs', hrest, hlen, hQs⟩ := ih (P := fun i ↦ P (i + 1)) (Q := fun i ↦ Q (i + 1))
        (Nat.succ.inj hlength) (fun i ↦ hadd (i + 1)) fun i ↦ hall (i + 1)
      refine ⟨h' :: hs', by rw [fillAll, hnew, hrest]; rfl, congrArg (· + 1) hlen, ?_⟩
      rintro (_ | i) h'' hh
      · cases hh
        exact hQ
      · exact hQs i h'' hh

/-- The histograms of the columns of a schema, with the values of the given rows counted in them.
The buckets are those of the histograms that the pass began with. -/
structure Filled (schema : Schema) (empty : List ColumnHistogram) (rows : List Row)
    (hs : List ColumnHistogram) : Prop where
  length_eq : hs.length = schema.width
  filled : ∀ (i : Nat) (column : Column) (h : ColumnHistogram), schema.columns[i]? = some column →
    hs[i]? = some h → h.type = column.type ∧ h.Counts (fieldValues rows i)
      ∧ ∀ e : ColumnHistogram, empty[i]? = some e → e.keys.SameBuckets h.keys

private theorem Filled.add_value {schema : Schema} {empty hs : List ColumnHistogram}
    {rows : List Row} (filled : Filled schema empty rows hs) {r : Row}
    (conforms : r.Conforms schema) {i : Nat} {h : ColumnHistogram} {v : Value}
    (hh : hs[i]? = some h) (hv : r.values[i]? = some v) :
    ∃ h', h.add v = .ok h' ∧ ∀ column, schema.columns[i]? = some column →
      h'.type = column.type ∧ h'.Counts (fieldValues (rows ++ [r]) i)
        ∧ ∀ e : ColumnHistogram, empty[i]? = some e → e.keys.SameBuckets h'.keys := by
  have hlt : i < schema.columns.length := by
    obtain ⟨hi, -⟩ := List.getElem?_eq_some_iff.mp hh
    rwa [filled.length_eq] at hi
  have hcolumn := List.getElem?_eq_getElem hlt
  obtain ⟨htype, hcounts, hsame⟩ := filled.filled i _ h hcolumn hh
  have hvalues : fieldValues (rows ++ [r]) i = fieldValues rows i ++ [v] := by
    rw [fieldValues_append, fieldValues_cons_of_some hv]
    rfl
  have hvtype : v.type = h.type := by
    have conforms' : ∀ r' ∈ [r], r'.Conforms schema := by simpa using conforms
    have hmem : v ∈ fieldValues [r] i := by simp [fieldValues_cons_of_some hv]
    rw [htype]
    exact (fieldValues_of_conforms conforms' hcolumn).2 v hmem
  obtain ⟨h', hnew, hcounts', htype', hsame'⟩ := hcounts.add hvtype
  refine ⟨h', hnew, fun column hcolumn' ↦ ?_⟩
  obtain rfl := Option.some.inj (hcolumn.symm.trans hcolumn')
  exact ⟨htype'.trans htype, hvalues ▸ hcounts', fun e he ↦ (hsame e he).trans hsame'⟩

theorem Filled.add {schema : Schema} {empty hs : List ColumnHistogram} {rows : List Row}
    (filled : Filled schema empty rows hs) {r : Row} (conforms : r.Conforms schema) :
    ∃ hs', fillAll hs r.values = .ok hs' ∧ Filled schema empty (rows ++ [r]) hs' := by
  have hwidth : r.values.length = hs.length := conforms.width_eq.trans filled.length_eq.symm
  obtain ⟨hs', hfill, hlength, hall⟩ := fillAll_eq_ok (P := fun i h ↦ hs[i]? = some h) hwidth
    (fun i h v hh hv ↦ filled.add_value conforms hh hv) fun i h hh ↦ hh
  exact ⟨hs', hfill, hlength.trans filled.length_eq, fun i column h hcolumn hh ↦
    hall i h hh column hcolumn⟩

/-- The second pass counts the rows that it finds, but no more than it is told. -/
theorem walk_fillStep {schema : Schema} {empty hs : List ColumnHistogram} {limit : Nat}
    {seen rows : List Row} (filled : Filled schema empty seen hs) (hlt : seen.length < limit)
    (conforms : ∀ r ∈ rows, r.Conforms schema) :
    ∃ step hs', (walk (fillStep limit) rows (seen.length, hs)).1 = .ok step
      ∧ step.value = (Nat.min limit (seen ++ rows).length, hs')
      ∧ Filled schema empty ((seen ++ rows).take limit) hs' := by
  induction rows generalizing seen hs with
  | nil =>
    have hle : seen.length ≤ limit := Nat.le_of_lt hlt
    refine ⟨.yield (seen.length, hs), hs, rfl, ?_, ?_⟩
    · rw [List.append_nil]
      exact congrArg (·, hs) (Nat.min_eq_right hle).symm
    · rwa [List.append_nil, List.take_of_length_le hle]
  | cons r rest ih =>
    obtain ⟨hs', hfill, hfilled⟩ := filled.add (conforms r List.mem_cons_self)
    have hsplit : seen ++ r :: rest = seen ++ [r] ++ rest := by simp
    have hlength : (seen ++ [r]).length = seen.length + 1 := by simp
    rw [walk, fillStep, hfill, hsplit]
    by_cases hnext : seen.length + 1 < limit
    · have hrest := ih hfilled (hlength ▸ hnext) fun r' hr' ↦
        conforms r' (List.mem_cons_of_mem _ hr')
      simpa only [hnext, if_true, hlength] using hrest
    · have hlimit : limit = (seen ++ [r]).length := by omega
      refine ⟨.done (seen.length + 1, hs'), hs', ?_, ?_, ?_⟩
      · simp only [hnext, if_false]
      · have hmin : Nat.min limit (seen ++ [r] ++ rest).length = limit :=
          Nat.min_eq_left (hlimit ▸ (List.sublist_append_left _ rest).length_le)
        rw [hmin, hlimit, hlength]
        rfl
      · rwa [hlimit, List.take_left]

/-! ## The passes over rows -/

/-- What the first pass finds out about rows. -/
theorem survey_ranges (schema : Schema) (rows : List Row) :
    ∃ survey, (walk Survey.noteStep rows (.start schema.width)).1 = .ok (.yield survey)
      ∧ survey.rows = rows.length ∧ survey.ranges.length = schema.columns.length
      ∧ ∀ (i : Nat) range, survey.ranges[i]? = some range →
          range = (fieldValues rows i).foldl Survey.widen none := by
  refine ⟨_, Survey.walk_noteStep rows _, Nat.zero_add _, ?_, fun i range hrange ↦ ?_⟩
  · rw [List.length_mapIdx]
    exact List.length_replicate
  · rw [List.getElem?_mapIdx] at hrange
    obtain ⟨start, hstart, rfl⟩ := Option.map_eq_some_iff.mp hrange
    rw [Survey.start, List.getElem?_replicate] at hstart
    split at hstart
    · cases hstart
      rfl
    · cases hstart

section

variable {schema : Schema} {rows rows' : List Row} {buckets : Nat}
  {ranges : List (Option (Int64 × Int64))}

theorem keyRange_of_conforms (conforms : ∀ r ∈ rows, r.Conforms schema) (hrows : rows ≠ [])
    {i : Nat} {column : Column} (hcolumn : schema.columns[i]? = some column) :
    ∃ low high,
      Survey.keyRange column.type ((fieldValues rows i).foldl Survey.widen none) = some (low, high)
        ∧ low ≤ high ∧ ∀ buckets (h : ColumnHistogram) (counted : List Value),
            h.type = column.type → h.Counts counted → h.keys.Spans buckets low high →
              h.Records buckets (fieldValues rows i) counted := by
  obtain ⟨hlength, types⟩ := fieldValues_of_conforms conforms hcolumn
  apply Survey.keyRange_foldl_widen types
  rwa [← List.length_pos_iff, hlength, List.length_pos_iff]

theorem histograms_eq_error (conforms : ∀ r ∈ rows, r.Conforms schema) (hrows : rows ≠ [])
    (hcolumns : schema.columns ≠ []) (hlength : ranges.length = schema.columns.length)
    (hranges : ∀ (i : Nat) range, ranges[i]? = some range →
      range = (fieldValues rows i).foldl Survey.widen none) :
    Survey.histograms 0 schema.columns ranges = .error .noBuckets := by
  obtain ⟨column, columns, hcons⟩ := List.exists_cons_of_ne_nil hcolumns
  rcases ranges with _ | ⟨range, ranges⟩
  · rw [hcons] at hlength
    cases hlength
  · have hfirst : schema.columns[0]? = some column := by rw [hcons]; rfl
    obtain ⟨low, high, hrange, -⟩ := keyRange_of_conforms conforms hrows hfirst
    rw [← hranges 0 range rfl] at hrange
    rw [hcons, Survey.histograms, Survey.histogram_eq_error hrange]

/-- The second pass counts the rows that it finds, but no more than the first pass found, in
histograms with the ranges of the first pass. -/
theorem histograms_filled (conforms : ∀ r ∈ rows, r.Conforms schema) (hrows : rows ≠ [])
    (conforms' : ∀ r ∈ rows', r.Conforms schema) (pos : schema.columns ≠ [] → 0 < buckets)
    (hlength : ranges.length = schema.columns.length)
    (hranges : ∀ (i : Nat) range, ranges[i]? = some range →
      range = (fieldValues rows i).foldl Survey.widen none) :
    ∃ empty step hs, Survey.histograms buckets schema.columns ranges = .ok empty
      ∧ (walk (fillStep rows.length) rows' (0, empty)).1 = .ok step
      ∧ step.value = (Nat.min rows.length rows'.length, hs) ∧ hs.length = schema.width
      ∧ ∀ (i : Nat) column h, schema.columns[i]? = some column → hs[i]? = some h →
          h.type = column.type
            ∧ h.Records buckets (fieldValues rows i) (fieldValues (rows'.take rows.length) i)
            ∧ h.total = Nat.min rows.length rows'.length := by
  obtain ⟨empty, hnew, hlen, hready⟩ := Survey.histograms_eq_ok pos hlength
    fun i column range hcolumn hrange ↦ by
      obtain ⟨low, high, hkey, hle, -⟩ := keyRange_of_conforms conforms hrows hcolumn
      exact ⟨low, high, hranges i range hrange ▸ hkey, hle⟩
  have ready : ∀ {i : Nat} {column : Column} {h : ColumnHistogram},
      schema.columns[i]? = some column → empty[i]? = some h →
        Survey.Ready buckets column ((fieldValues rows i).foldl Survey.widen none) h := by
    intro i column h hcolumn hh
    have hi := (List.getElem?_eq_some_iff.mp hcolumn).1
    have hrange := List.getElem?_eq_getElem (hlength ▸ hi)
    exact hranges i _ hrange ▸ hready i column _ h hcolumn hrange hh
  have hstart : Filled schema empty [] empty := by
    refine ⟨hlen, fun i column h hcolumn hh ↦ ?_⟩
    refine ⟨(ready hcolumn hh).type_eq, (ready hcolumn hh).counts, fun e he ↦ ?_⟩
    obtain rfl := Option.some.inj (he.symm.trans hh)
    exact .refl _
  obtain ⟨step, hs, hwalk, hvalue, filled⟩ :=
    walk_fillStep hstart (List.length_pos_iff.mpr hrows) conforms'
  rw [List.nil_append] at hvalue filled
  refine ⟨empty, step, hs, hnew, hwalk, hvalue, filled.length_eq, fun i column h hcolumn hh ↦ ?_⟩
  obtain ⟨htype, hcounts, hsame⟩ := filled.filled i column h hcolumn hh
  obtain ⟨hvalues, -⟩ := fieldValues_of_conforms
    (fun r hr ↦ conforms' r (List.mem_of_mem_take hr)) hcolumn
  obtain ⟨low, high, hkey, -, hrecords⟩ := keyRange_of_conforms conforms hrows hcolumn
  have hi := (List.getElem?_eq_some_iff.mp hcolumn).1
  have he := List.getElem?_eq_getElem (hlen ▸ hi)
  obtain ⟨low', high', hkey', hspans⟩ := (ready hcolumn he).spans
  cases hkey.symm.trans hkey'
  refine ⟨htype, hrecords buckets h _ htype hcounts (hspans.of_same (hsame _ he)), ?_⟩
  rw [hcounts.total_eq, hvalues, List.length_take]

/-- Each pass is a walk over the rows that it sees, and the scan is rewound in between. Then the
histograms can be built, and they have the ranges of the first rows and count the second ones. -/
theorem buildHistograms_of_walks {σ τ : Type} [Storage σ τ] {scan scan₁ scan₂ : Operator τ}
    {s s₁ s₂ : σ} {states : σ → Prop} (conforms : ∀ r ∈ rows, r.Conforms scan.schema)
    (hrows : rows ≠ []) (conforms' : ∀ r ∈ rows', r.Conforms scan.schema)
    (pos : scan.schema.columns ≠ [] → 0 < buckets)
    (first : scan.forRows Survey.noteStep.visitor (.start scan.schema.width) s
      = ⟨(walk Survey.noteStep rows (.start scan.schema.width)).1, scan₁, s₁⟩)
    (rewind : scan₁.rewindOn s₁ = ⟨.ok (), scan₂, s₂⟩)
    (second : ∀ limit counted, ∃ scan₃ s₃, scan₂.forRows (fillStep limit).visitor counted s₂
      = ⟨(walk (fillStep limit) rows' counted).1, scan₃, s₃⟩ ∧ states s₃) :
    ∃ hs s₃, TableStatistics.buildHistograms buckets scan s
        = (.ok (Nat.min rows.length rows'.length, hs), s₃) ∧ states s₃
      ∧ hs.length = scan.schema.width
      ∧ ∀ (i : Nat) column h, scan.schema.columns[i]? = some column → hs[i]? = some h →
          h.type = column.type
            ∧ h.Records buckets (fieldValues rows i) (fieldValues (rows'.take rows.length) i)
            ∧ h.total = Nat.min rows.length rows'.length := by
  obtain ⟨survey, hwalk, hcount, hlength, hranges⟩ := survey_ranges scan.schema rows
  rw [hwalk] at first
  have hsome : rows.length ≠ 0 := mt List.length_eq_zero_iff.mp hrows
  obtain ⟨empty, step, hs, hnew, hfill, hvalue, hwidth, hrecords⟩ :=
    histograms_filled conforms hrows conforms' pos hlength hranges
  obtain ⟨scan₃, s₃, hsecond, hstates⟩ := second rows.length (0, empty)
  rw [hfill] at hsecond
  refine ⟨hs, s₃, ?_, hstates, hwidth, hrecords⟩
  rw [TableStatistics.buildHistograms, Survey.note_eq, first]
  simp only [ForInStep.value, hcount, hsome, if_false, hnew, rewind, fillRow_eq, hsecond,
    Except.map, ← hvalue]

end

end QueryEngine
