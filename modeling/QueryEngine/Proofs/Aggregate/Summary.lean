import Mathlib.Data.List.Induction
import Mathlib.Data.List.Nodup
import QueryEngine.Aggregate.Grouping
import QueryEngine.Proofs.Aggregate.Exact

/-!
# The result of an aggregation

A grouping takes rows one at a time and keeps one accumulator a group. `Aggregation.summary` says
what comes out in the end, without accumulators: the groups are the keys of the rows, each at its
first occurrence, and the number beside a key is the exact aggregate of the rows that have it.

## Refused rows

A sum that would leave the 64 bits makes the grouping refuse the row. This depends on the order of
the rows and not on the final sum alone, and a refused row has no effect on later ones. The
invariant `Grouping.Holds` is therefore about the rows that were accepted so far.
-/

namespace QueryEngine

/-! ## The result -/

namespace Aggregation

/-- The value that tells the group of a row, if the aggregation has groups. -/
def key? (a : Aggregation) (r : Row) : Option Value :=
  a.group?.bind fun i ↦ r.values[i]?

/-- The groups of rows, in the order of their first rows. -/
def keys (a : Aggregation) (rows : List Row) : List (Option Value) :=
  (rows.map a.key?).eraseDups

/-- The values of the rows of one group. -/
def column (a : Aggregation) (key : Option Value) (rows : List Row) : List Value :=
  (rows.filter fun r ↦ a.key? r = key).filterMap fun r ↦ r.values[a.field]?

/-- One row a group: its key, if it has one, and the aggregate of its values. -/
def summary (a : Aggregation) (rows : List Row) : List Row :=
  (a.keys rows).map fun key ↦
    .ofValues (key.toList ++ [.integer (Int64.ofInt (a.function.exact (a.column key rows)))])

/-- The sum of the group of a row leaves the 64 bits when the row joins the given ones. -/
def Overflows (a : Aggregation) (rows : List Row) (r : Row) : Prop :=
  a.function = .sum ∧ ∃ n : Int64, r.values[a.field]? = some (.integer n) ∧
    ¬(-2 ^ 63 ≤ (integers (a.column (a.key? r) rows)).sum + n.toInt
      ∧ (integers (a.column (a.key? r) rows)).sum + n.toInt < 2 ^ 63)

/-- The fields of a row that the aggregation reads are there and have the types of the schema. -/
def Reads (a : Aggregation) (input : Schema) (r : Row) : Prop :=
  r.types[a.field]? = input.types[a.field]? ∧ ∀ i ∈ a.group?, r.types[i]? = input.types[i]?

theorem Reads.of_conforms {a : Aggregation} {input : Schema} {r : Row} (h : r.Conforms input) :
    a.Reads input r := by
  rw [Row.Conforms] at h
  rw [Reads, h]
  exact ⟨rfl, fun _ _ ↦ rfl⟩

variable (a : Aggregation) (rows : List Row) (r : Row)

theorem keys_concat :
    a.keys (rows ++ [r])
      = if a.key? r ∈ a.keys rows then a.keys rows else a.keys rows ++ [a.key? r] := by
  have hmem : a.key? r ∈ a.keys rows ↔ a.key? r ∈ rows.map a.key? := List.mem_eraseDups
  rw [keys, List.map_append, List.map_singleton, List.eraseDups_append, ← keys, List.removeAll]
  by_cases h : a.key? r ∈ rows.map a.key?
  · rw [if_pos (hmem.mpr h), List.filter_cons_of_neg (by simpa using List.mem_map.mp h)]
    exact List.append_nil _
  · rw [if_neg (h ∘ hmem.mp), List.filter_cons_of_pos (by simpa using h)]
    rfl

theorem nodup_keys : (a.keys rows).Nodup := by
  induction rows using List.reverseRecOn with
  | nil => exact List.nodup_nil
  | append_singleton rows r ih =>
    rw [keys_concat]
    split
    · exact ih
    · next hnew => exact List.nodup_append.mpr ⟨ih, List.nodup_singleton _, by
        intro k hk k' hk' heq
        rw [List.mem_singleton.mp hk'] at heq
        exact hnew (heq ▸ hk)⟩

theorem column_concat (key : Option Value) :
    a.column key (rows ++ [r])
      = if a.key? r = key then a.column key rows ++ (r.values[a.field]?).toList
        else a.column key rows := by
  rw [column, List.filter_append, List.filterMap_append, ← column]
  split
  · next h =>
    rw [List.filter_cons_of_pos (by simpa using h), List.filter_nil]
    cases hv : r.values[a.field]? <;> simp [hv]
  · next h =>
    rw [List.filter_cons_of_neg (by simpa using h), List.filter_nil, List.filterMap_nil,
      List.append_nil]

theorem column_of_not_mem {key : Option Value} (h : key ∉ a.keys rows) :
    a.column key rows = [] := by
  have hnone : rows.filter (fun r ↦ a.key? r = key) = [] := by
    rw [List.filter_eq_nil_iff]
    intro r hr hkey
    have hmem : a.key? r ∈ rows.map a.key? := List.mem_map_of_mem hr
    rw [decide_eq_true_eq.mp hkey] at hmem
    exact h (List.mem_eraseDups.mpr hmem)
  rw [column, hnone, List.filterMap_nil]

theorem length_column_le (key : Option Value) : (a.column key rows).length ≤ rows.length :=
  Nat.le_trans (List.length_filterMap_le _ _) (List.length_filter_le _ _)

variable {a rows r} in
theorem overflows_iff {v : Value} (hv : r.values[a.field]? = some v)
    (htake : a.function.Takes v) :
    a.Overflows rows r ↔ a.function = .sum
      ∧ int64? (integers (a.column (a.key? r) rows ++ [v])).sum = none := by
  refine and_congr_right fun hsum ↦ ?_
  obtain ⟨n, rfl⟩ := htake.eq_integer (by rw [hsum]; exact fun h ↦ nomatch h)
  rw [integers_concat, List.sum_append, List.sum_singleton, int64?_eq_none_iff,
    Int64.toInt_minValue, Int64.toInt_maxValue]
  constructor
  · rintro ⟨m, hm, hrange⟩
    rw [hv, Option.some.injEq, Value.integer.injEq] at hm
    rw [← hm] at hrange
    exact fun h ↦ hrange ⟨h.1, Int.lt_of_le_sub_one h.2⟩
  · exact fun hrange ↦ ⟨n, hv, fun h ↦ hrange ⟨h.1, Int.le_sub_one_of_lt h.2⟩⟩

/-- Without a column of groups there is one group, or none if there are no rows. -/
theorem keys_of_ungrouped (h : a.group? = none) :
    a.keys rows = if rows = [] then [] else [none] := by
  have hkey : ∀ r, a.key? r = none := fun r ↦ by rw [key?, h, Option.bind_none]
  induction rows using List.reverseRecOn with
  | nil => rfl
  | append_singleton rows r ih =>
    rw [keys_concat, ih, hkey, if_neg (by simp : rows ++ [r] ≠ [])]
    by_cases hrows : rows = []
    · simp [hrows]
    · simp [hrows]

end Aggregation

/-! ## Joining a group -/

namespace Groups

variable {f : AggregateFunction} {key : Option Value} {v : Value} {keys : List (Option Value)}
  {held : Option Value → Accumulator}

theorem absorb_of_mem (nodup : keys.Nodup) (h : key ∈ keys) :
    absorb f key v (keys.map fun k ↦ (k, held k))
      = ((held key).add v).map fun acc ↦ keys.map fun k ↦ (k, if k = key then acc else held k) := by
  induction keys with
  | nil => exact absurd h List.not_mem_nil
  | cons k rest ih =>
    obtain ⟨hk, hrest⟩ := List.nodup_cons.mp nodup
    rw [List.map_cons, absorb]
    by_cases heq : k = key
    · subst heq
      rw [if_pos rfl]
      have hothers : ∀ acc, rest.map (fun k' ↦ (k', if k' = k then acc else held k'))
          = rest.map fun k' ↦ (k', held k') := fun acc ↦
        List.map_congr_left fun k' hk' ↦ by rw [if_neg (ne_of_mem_of_not_mem hk' hk)]
      cases (held k).add v with
      | error e => rfl
      | ok acc => simp [Except.map, hothers]
    · rw [if_neg heq, ih hrest ((List.mem_cons.mp h).resolve_left (Ne.symm heq))]
      cases (held key).add v with
      | error e => rfl
      | ok acc => simp [Except.map, heq]

theorem absorb_of_not_mem (h : key ∉ keys) :
    absorb f key v (keys.map fun k ↦ (k, held k))
      = (Accumulator.start f v).map fun acc ↦ keys.map (fun k ↦ (k, held k)) ++ [(key, acc)] := by
  induction keys with
  | nil => rfl
  | cons k rest ih =>
    rw [List.mem_cons, not_or] at h
    rw [List.map_cons, absorb, if_neg (Ne.symm h.1), ih h.2]
    cases Accumulator.start f v <;> rfl

end Groups

/-! ## The grouping of an aggregation -/

namespace Grouping

variable {a : Aggregation} {input : Schema} {g g' : Grouping} {r : Row} {rows : List Row}

/-- The grouping computes the aggregation over rows of the schema. -/
structure Serves (g : Grouping) (a : Aggregation) (input : Schema) : Prop where
  function_eq : g.function = a.function
  field_eq : g.field = a.field
  type_eq : input.types[a.field]? = some g.type
  takes : a.function = .count ∨ g.type = .integer
  group_eq : g.group? = a.group?.bind fun i ↦ (input.types[i]?).map fun type ↦ (i, type)
  group_ne_none : ∀ i ∈ a.group?, input.types[i]? ≠ none

private theorem types_of_column {i : Nat} {c : Column} (h : input.column i = .ok c) :
    input.types[i]? = some c.type := by
  rw [Schema.column] at h
  split at h
  · next c' hc =>
    cases h
    rw [Schema.types, List.getElem?_map, hc, Option.map_some]
  · cases h

theorem serves_of_ofSchema (h : ofSchema input a = .ok g) : g.Serves a input ∧ g.groups = [] := by
  rw [ofSchema] at h
  split at h
  · cases h
  · next c hc =>
    have htype := types_of_column hc
    split at h
    · cases h
    · next hnumber =>
      have htakes : a.function = .count ∨ c.type = .integer := by
        by_cases hcount : a.function = .count
        · exact Or.inl hcount
        · cases hct : c.type with
          | integer => exact Or.inr rfl
          | text => exact absurd ⟨hct, hcount⟩ hnumber
      split at h
      · next hgroup =>
        cases h
        refine ⟨⟨rfl, rfl, htype, htakes, ?_, ?_⟩, rfl⟩
        · rw [hgroup, Option.bind_none]
        · intro i hi
          rw [hgroup] at hi
          cases hi
      · next i hgroup =>
        rw [Schema.columnType] at h
        cases hcolumn : input.column i with
        | error e =>
          rw [hcolumn] at h
          cases h
        | ok c' =>
          rw [hcolumn] at h
          cases h
          have htype' := types_of_column hcolumn
          refine ⟨⟨rfl, rfl, htype, htakes, ?_, ?_⟩, rfl⟩
          · rw [hgroup, Option.bind_some, htype', Option.map_some]
          · intro i' hi'
            rw [hgroup] at hi'
            cases hi'
            rw [htype']
            exact Option.some_ne_none _

theorem Serves.withGroups (serves : g.Serves a input) (groups : Groups) :
    ({ g with groups } : Grouping).Serves a input :=
  ⟨serves.function_eq, serves.field_eq, serves.type_eq, serves.takes, serves.group_eq,
    serves.group_ne_none⟩

theorem typedField_eq_ok {i : Nat} {type : ColumnType} (h : r.types[i]? = some type) :
    ∃ v, r.values[i]? = some v ∧ v.type = type ∧ typedField r i type = .ok v := by
  rw [Row.types, List.getElem?_map] at h
  obtain ⟨v, hv, htype⟩ := Option.map_eq_some_iff.mp h
  refine ⟨v, hv, htype, ?_⟩
  rw [typedField, Row.get, hv]
  simp only [Value.expect_eq_ok_iff.mpr htype]
  rfl

theorem Serves.value (serves : g.Serves a input) (reads : a.Reads input r) :
    ∃ v, r.values[a.field]? = some v ∧ a.function.Takes v
      ∧ typedField r g.field g.type = .ok v := by
  obtain ⟨v, hv, htype, hread⟩ := typedField_eq_ok (reads.1.trans serves.type_eq)
  refine ⟨v, hv, ?_, serves.field_eq ▸ hread⟩
  rw [AggregateFunction.Takes, htype]
  exact serves.takes

theorem Serves.key_eq (serves : g.Serves a input) (reads : a.Reads input r) :
    g.key r = .ok (a.key? r) := by
  rw [key, serves.group_eq, Aggregation.key?]
  cases hgroup : a.group? with
  | none => rfl
  | some i =>
    obtain ⟨type, htype⟩ := Option.ne_none_iff_exists'.mp (serves.group_ne_none i hgroup)
    obtain ⟨v, hv, -, hread⟩ := typedField_eq_ok ((reads.2 i hgroup).trans htype)
    rw [Option.bind_some, htype, Option.bind_some, hv]
    simp only [Option.map_some, hread]
    rfl

theorem Serves.merge_eq (serves : g.Serves a input) (reads : a.Reads input r) :
    ∃ v, r.values[a.field]? = some v ∧ a.function.Takes v
      ∧ g.merge r = (g.groups.absorb a.function (a.key? r) v).map fun groups ↦
          { g with groups } := by
  obtain ⟨v, hv, htake, hread⟩ := serves.value reads
  refine ⟨v, hv, htake, ?_⟩
  rw [merge, serves.key_eq reads, hread, serves.function_eq]

/-! ## The invariant -/

/-- The grouping has accepted the given rows and no others. -/
structure Holds (g : Grouping) (a : Aggregation) (input : Schema) (rows : List Row) : Prop where
  serves : g.Serves a input
  reads : ∀ r ∈ rows, a.Reads input r
  groups_eq : g.groups = (a.keys rows).map fun key ↦
    (key, .ofValues a.function (a.column key rows))
  fits : a.function = .sum → ∀ key ∈ a.keys rows, a.function.Fits (a.column key rows)

theorem holds_of_ofSchema (h : ofSchema input a = .ok g) : g.Holds a input [] := by
  obtain ⟨serves, hgroups⟩ := serves_of_ofSchema h
  exact ⟨serves, fun _ hr ↦ absurd hr List.not_mem_nil, hgroups,
    fun _ _ hkey ↦ absurd hkey List.not_mem_nil⟩

theorem Holds.takes (holds : g.Holds a input rows) {key : Option Value} {v : Value}
    (hv : v ∈ a.column key rows) : a.function.Takes v := by
  rw [Aggregation.column, List.mem_filterMap] at hv
  obtain ⟨r, hr, hv⟩ := hv
  obtain ⟨v', hv', htake, -⟩ := holds.serves.value (holds.reads r (List.mem_filter.mp hr).1)
  rw [hv, Option.some.injEq] at hv'
  exact hv' ▸ htake

theorem Holds.column_ne_nil (holds : g.Holds a input rows) {key : Option Value}
    (h : key ∈ a.keys rows) : a.column key rows ≠ [] := by
  obtain ⟨r, hr, rfl⟩ := List.mem_map.mp (List.mem_eraseDups.mp h)
  obtain ⟨v, hv, -, -⟩ := holds.serves.value (holds.reads r hr)
  refine List.ne_nil_of_mem (a := v) ?_
  rw [Aggregation.column, List.mem_filterMap]
  exact ⟨r, List.mem_filter.mpr ⟨hr, by simp⟩, hv⟩

theorem Holds.results_eq (holds : g.Holds a input rows) : g.results = a.summary rows := by
  rw [results, holds.groups_eq, List.map_map, Aggregation.summary]
  refine List.map_congr_left fun key _ ↦ ?_
  rw [Function.comp_apply, ← Accumulator.result_ofValues]

theorem Holds.conforms_of_mem_results (holds : g.Holds a input rows) {output : Schema}
    (hschema : a.schema input = .ok output) (hr : r ∈ g.results) : r.Conforms output := by
  rw [holds.results_eq, Aggregation.summary] at hr
  obtain ⟨key, hkey, rfl⟩ := List.mem_map.mp hr
  obtain ⟨r', hr', rfl⟩ := List.mem_map.mp (List.mem_eraseDups.mp hkey)
  rw [Aggregation.schema] at hschema
  split at hschema
  · cases hschema
  · rw [Aggregation.key?]
    cases hgroup : a.group? with
    | none =>
      rw [hgroup] at hschema
      cases hschema
      rfl
    | some i =>
      rw [hgroup] at hschema
      dsimp only at hschema
      rcases hcolumn : input.column i with e | c <;> rw [hcolumn] at hschema <;> cases hschema
      have htype := ((holds.reads r' hr').2 i hgroup).trans (types_of_column hcolumn)
      obtain ⟨v, hv, hvtype, -⟩ := typedField_eq_ok htype
      rw [Option.bind_some, hv]
      exact congrArg (· :: [ColumnType.integer]) hvtype

/-! ## One row more -/

/-- The accumulators after a row that is not refused. -/
theorem Holds.absorb_eq_ok (holds : g.Holds a input rows) {v : Value}
    (hv : r.values[a.field]? = some v) (htake : a.function.Takes v)
    (hr : ¬a.function.Refuses (a.column (a.key? r) rows) v) :
    g.groups.absorb a.function (a.key? r) v
      = .ok ((a.keys (rows ++ [r])).map fun key ↦
          (key, .ofValues a.function (a.column key (rows ++ [r])))) := by
  rw [holds.groups_eq, a.keys_concat]
  by_cases hkey : a.key? r ∈ a.keys rows
  · rw [Groups.absorb_of_mem (a.nodup_keys rows) hkey,
      Accumulator.add_ofValues (holds.column_ne_nil hkey) (fun _ ↦ holds.takes)
        (fun hsum ↦ holds.fits hsum _ hkey) htake, if_neg hr, if_pos hkey]
    refine congrArg Except.ok (List.map_congr_left fun key _ ↦ ?_)
    rw [a.column_concat, hv]
    by_cases heq : key = a.key? r
    · rw [if_pos heq, if_pos heq.symm, heq]
      rfl
    · rw [if_neg heq, if_neg (Ne.symm heq)]
  · rw [Groups.absorb_of_not_mem hkey, Accumulator.start_eq htake, if_neg hkey, List.map_append]
    refine congrArg Except.ok (congrArg₂ _ (List.map_congr_left fun key hmem ↦ ?_) ?_)
    · rw [a.column_concat, if_neg (ne_of_mem_of_not_mem hmem hkey).symm]
    · rw [List.map_singleton, a.column_concat, if_pos rfl, a.column_of_not_mem rows hkey, hv]
      rfl

theorem Holds.absorb_eq_error (holds : g.Holds a input rows) {v : Value}
    (htake : a.function.Takes v) (hr : a.function.Refuses (a.column (a.key? r) rows) v) :
    g.groups.absorb a.function (a.key? r) v = .error .numericOverflow := by
  -- The first value of a group is never refused, so the group has been seen before.
  have hkey : a.key? r ∈ a.keys rows := by
    by_contra hnew
    rw [a.column_of_not_mem rows hnew] at hr
    exact a.function.not_refuses_nil v hr
  rw [holds.groups_eq, Groups.absorb_of_mem (a.nodup_keys rows) hkey,
    Accumulator.add_ofValues (holds.column_ne_nil hkey) (fun _ ↦ holds.takes)
      (fun hsum ↦ holds.fits hsum _ hkey) htake, if_pos hr]
  rfl

/-- The sums keep to 64 bits when a row joins that is not refused. -/
theorem Holds.fits_concat (holds : g.Holds a input rows) {v : Value}
    (hv : r.values[a.field]? = some v) (hr : ¬a.function.Refuses (a.column (a.key? r) rows) v)
    (hsum : a.function = .sum) :
    ∀ key ∈ a.keys (rows ++ [r]), a.function.Fits (a.column key (rows ++ [r])) := by
  intro key hkey
  -- Only the group of the new row has changed.
  by_cases heq : a.key? r = key
  · have hsome := not_and.mp (not_or.mp hr).1 hsum
    rw [int64?_eq_none_iff, not_not, Int64.toInt_minValue, Int64.toInt_maxValue] at hsome
    rw [AggregateFunction.Fits, hsum, AggregateFunction.exact, a.column_concat, if_pos heq, hv,
      Option.toList_some, ← heq]
    exact ⟨hsome.1, Int.lt_of_le_sub_one hsome.2⟩
  · rw [a.column_concat, if_neg heq]
    refine holds.fits hsum key ?_
    rw [a.keys_concat] at hkey
    split at hkey
    · exact hkey
    · exact (List.mem_append.mp hkey).resolve_right fun hlast ↦
        heq (List.mem_singleton.mp hlast).symm

/-- A row is refused exactly if the running sum of its group has no room for its value. -/
theorem Holds.merge_eq_error_iff (holds : g.Holds a input rows) (reads : a.Reads input r)
    (e : QueryError) :
    g.merge r = .error e ↔ e = .numericOverflow
      ∧ ∃ v, r.values[a.field]? = some v ∧ a.function.Takes v
        ∧ a.function.Refuses (a.column (a.key? r) rows) v := by
  obtain ⟨v, hv, htake, hmerge⟩ := holds.serves.merge_eq reads
  have hiff : (∃ v, r.values[a.field]? = some v ∧ a.function.Takes v
      ∧ a.function.Refuses (a.column (a.key? r) rows) v)
      ↔ a.function.Refuses (a.column (a.key? r) rows) v := by
    constructor
    · rintro ⟨v', hv', -, hr⟩
      rw [hv, Option.some.injEq] at hv'
      exact hv' ▸ hr
    · exact fun hr ↦ ⟨v, hv, htake, hr⟩
  rw [hmerge, hiff]
  by_cases hr : a.function.Refuses (a.column (a.key? r) rows) v
  · rw [holds.absorb_eq_error htake hr]
    simp [Except.map, hr, eq_comm]
  · rw [holds.absorb_eq_ok hv htake hr]
    simp [Except.map, hr]

/-- An accepted row is counted among those accepted. -/
theorem Holds.merge (holds : g.Holds a input rows) (reads : a.Reads input r)
    (hmerge : g.merge r = .ok g') : g'.Holds a input (rows ++ [r]) := by
  obtain ⟨v, hv, htake, heq⟩ := holds.serves.merge_eq reads
  by_cases hr : a.function.Refuses (a.column (a.key? r) rows) v
  · rw [heq, holds.absorb_eq_error htake hr] at hmerge
    cases hmerge
  · rw [heq, holds.absorb_eq_ok hv htake hr] at hmerge
    cases hmerge
    refine ⟨holds.serves.withGroups _, fun r' hr' ↦ ?_, rfl, holds.fits_concat hv hr⟩
    rcases List.mem_append.mp hr' with hold | hnew
    · exact holds.reads r' hold
    · exact List.mem_singleton.mp hnew ▸ reads

/-! ## Runs of rows -/

def accepted (g : Grouping) : List Row → List Row
  | [] => []
  | r :: rest =>
    match g.merge r with
    | .ok g' => r :: g'.accepted rest
    | .error _ => g.accepted rest

theorem accepted_eq_self {g : Grouping} {rows : List Row}
    (h : ∀ answer ∈ (g.feed rows).1, answer = .ok ()) : g.accepted rows = rows := by
  induction rows generalizing g with
  | nil => rfl
  | cons r rest ih =>
    rw [feed] at h
    rw [accepted]
    cases hmerge : g.merge r with
    | ok g' =>
      rw [hmerge] at h
      exact congrArg (r :: ·) (ih fun answer hanswer ↦ h answer (List.mem_cons_of_mem _ hanswer))
    | error e =>
      rw [hmerge] at h
      cases h _ List.mem_cons_self

/-- The groups hold what was accepted, whatever was refused in between. -/
theorem Holds.feed {before : List Row} (holds : g.Holds a input before)
    (reads : ∀ r ∈ rows, a.Reads input r) :
    (g.feed rows).2.Holds a input (before ++ g.accepted rows) := by
  induction rows generalizing g before with
  | nil => exact (List.append_nil before).symm ▸ holds
  | cons r rest ih =>
    have hreads := reads r List.mem_cons_self
    have hrest : ∀ r ∈ rest, a.Reads input r := fun r hr ↦ reads r (List.mem_cons_of_mem _ hr)
    rw [Grouping.feed, accepted]
    cases hmerge : g.merge r with
    | ok g' =>
      have hfeed := ih (holds.merge hreads hmerge) hrest
      rw [List.append_assoc] at hfeed
      exact hfeed
    | error e => exact ih holds hrest

theorem length_accepted_le (g : Grouping) (rows : List Row) :
    (g.accepted rows).length ≤ rows.length := by
  induction rows generalizing g with
  | nil => exact Nat.le_refl _
  | cons r rest ih =>
    rw [accepted]
    split
    · exact Nat.succ_le_succ (ih _)
    · exact Nat.le_succ_of_le (ih _)

/-- **The result of an aggregation.** Over rows of the schema, fewer than `2 ^ 63`, a grouping that
refuses none hands out the summary of the rows, whose aggregates have 64 bits and thus are exact;
without a column of groups that is one row, unless there are no rows. It refuses a row exactly if
the function is SUM and the value would take the sum of its group, over the rows accepted before,
out of 64 bits. -/
theorem results_feed (hg : ofSchema input a = .ok g) (reads : ∀ r ∈ rows, a.Reads input r)
    (few : rows.length < 2 ^ 63) :
    ((∀ answer ∈ (g.feed rows).1, answer = .ok ()) →
      (g.feed rows).2.results = a.summary rows
        ∧ (∀ key ∈ a.keys rows, (Int64.ofInt (a.function.exact (a.column key rows))).toInt
            = a.function.exact (a.column key rows))
        ∧ (a.group? = none → (g.feed rows).2.results.length = if rows = [] then 0 else 1))
      ∧ ∀ before r after, rows = before ++ r :: after → ∀ e,
          (g.feed before).2.merge r = .error e
            ↔ e = .numericOverflow ∧ a.Overflows (g.accepted before) r := by
  have holds := holds_of_ofSchema hg
  constructor
  · intro hok
    have hfeed := holds.feed reads
    rw [accepted_eq_self hok, List.nil_append] at hfeed
    refine ⟨hfeed.results_eq, fun key hkey ↦ ?_, fun hgroup ↦ ?_⟩
    · refine AggregateFunction.Fits.toInt_ofInt ?_
      by_cases hsum : a.function = .sum
      · exact hfeed.fits hsum key hkey
      · exact AggregateFunction.fits_of_ne_sum hsum
          (Nat.lt_of_le_of_lt (a.length_column_le rows key) few)
    · rw [hfeed.results_eq, Aggregation.summary, List.length_map, a.keys_of_ungrouped rows hgroup]
      split <;> rfl
  · rintro before r after rfl e
    rw [List.length_append, List.length_cons] at few
    have hfeed := holds.feed fun r' hr' ↦ reads r' (List.mem_append_left _ hr')
    rw [List.nil_append] at hfeed
    rw [hfeed.merge_eq_error_iff (reads r (List.mem_append_right _ List.mem_cons_self))]
    have hlength := Nat.le_trans (a.length_column_le (g.accepted before) (a.key? r))
      (g.length_accepted_le before)
    refine and_congr_right fun _ ↦ ?_
    constructor
    · rintro ⟨v, hv, htake, hr⟩
      exact (a.overflows_iff hv htake).mpr ((AggregateFunction.refuses_iff (by omega) v).mp hr)
    · rintro ⟨hsum, n, hn, hrange⟩
      have htake : a.function.Takes (.integer n) := Or.inr rfl
      exact ⟨_, hn, htake, (AggregateFunction.refuses_iff (by omega) _).mpr
        ((a.overflows_iff hn htake).mp ⟨hsum, n, hn, hrange⟩)⟩

def alternating : List Row :=
  [.ofValues [.text "a", .integer 7], .ofValues [.text "b", .integer (-7)],
    .ofValues [.text "a", .integer (-2)], .ofValues [.text "b", .integer 2]]

theorem results_feed_alternating :
    ∃ g, ofSchema ⟨[⟨"k", .text⟩, ⟨"n", .integer⟩]⟩ ⟨.avg, 1, some 0⟩ = .ok g
      ∧ (∀ r ∈ alternating, Aggregation.Reads ⟨.avg, 1, some 0⟩
          ⟨[⟨"k", .text⟩, ⟨"n", .integer⟩]⟩ r)
      ∧ alternating.length < 2 ^ 63
      ∧ (g.feed alternating).2.results
        = [.ofValues [.text "a", .integer 2], .ofValues [.text "b", .integer (-2)]] := by
  have reads : ∀ r ∈ alternating, Aggregation.Reads ⟨.avg, 1, some 0⟩
      ⟨[⟨"k", .text⟩, ⟨"n", .integer⟩]⟩ r := by
    intro r hr
    refine .of_conforms ?_
    revert r
    decide
  refine ⟨_, rfl, reads, by decide, ?_⟩
  rw [((results_feed rfl reads (by decide)).1 (by decide)).1]
  decide

end Grouping

end QueryEngine
