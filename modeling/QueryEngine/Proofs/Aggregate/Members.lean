import Mathlib.Data.Set.List
import QueryEngine.Predicate
import QueryEngine.Proofs.Aggregate.Summary
import QueryEngine.Proofs.Text.Order

/-!
# Groups one by one

The rows of one group, taken out of all rows, make an aggregation of their own, without groups. It
refuses no row if the grouping refuses none, as the accumulator of the group goes through the same
values in both; what happens to the other groups in between does not touch it. So it comes to the
number beside the key of the group.

The rows of a group can also be told by comparing a field with the key (`Predicate.holds_eq_iff`):
the comparison finds numbers of one size and texts of the same bytes, and these are the same values.
-/

namespace QueryEngine

/-! ## Comparing with a key -/

theorem Comparison.evaluate_eq_iff {v k : Value} :
    Comparison.eq.evaluate v k = .ok true ↔ v = k := by
  have hadmits : ∀ o : Ordering, Comparison.eq.admits o = true ↔ o = .eq := by decide
  rcases v with n | s <;> rcases k with m | t
  · simp [evaluate, Value.compare, Except.map, hadmits, Int64.toInt_inj]
  · simp [evaluate, Value.compare, Except.map]
  · simp [evaluate, Value.compare, Except.map]
  · simp [evaluate, Value.compare, Except.map, hadmits, Text.compareBytes_eq_eq_iff]

theorem Predicate.holds_eq_iff {i : Nat} {k : Value} {r : Row} :
    (⟨i, .eq, k⟩ : Predicate).holds r = .ok true ↔ r.values[i]? = some k := by
  rw [holds, Row.get]
  cases r.values[i]? with
  | none => simp
  | some v => simp [Comparison.evaluate_eq_iff]

/-! ## The rows of a group -/

namespace Aggregation

variable {a : Aggregation} {rows : List Row} {key : Option Value} {i : Nat}

def overall (a : Aggregation) : Aggregation :=
  { a with group? := none }

def members (a : Aggregation) (key : Option Value) (rows : List Row) : List Row :=
  rows.filter fun r ↦ a.key? r = key

theorem members_ne_nil (hkey : key ∈ a.keys rows) : a.members key rows ≠ [] := by
  obtain ⟨r, hr, rfl⟩ := List.mem_map.mp (List.mem_eraseDups.mp hkey)
  exact List.ne_nil_of_mem (List.mem_filter.mpr ⟨hr, by simp⟩)

theorem column_overall (a : Aggregation) (key : Option Value) (rows : List Row) :
    a.overall.column none (a.members key rows) = a.column key rows := by
  have hkey : ∀ r, a.overall.key? r = none := fun _ ↦ rfl
  have hfield : a.overall.field = a.field := rfl
  simp [column, members, hkey, hfield]

/-- The rows of a group come to the number beside its key. -/
theorem summary_overall (hkey : key ∈ a.keys rows) :
    a.overall.summary (a.members key rows)
      = [.ofValues [.integer (Int64.ofInt (a.function.exact (a.column key rows)))]] := by
  rw [summary, keys_of_ungrouped _ _ rfl, if_neg (members_ne_nil hkey), List.map_singleton,
    column_overall]
  rfl

theorem keys_of_grouped (hgroup : a.group? = some i) (present : ∀ r ∈ rows, r.values[i]? ≠ none) :
    ∃ ks : List Value, a.keys rows = ks.map some ∧ ks.Nodup
      ∧ ∀ k, k ∈ ks ↔ ∃ r ∈ rows, r.values[i]? = some k := by
  have hkey : ∀ r, a.key? r = r.values[i]? := fun r ↦ by rw [key?, hgroup, Option.bind_some]
  have hmem : ∀ key, key ∈ a.keys rows ↔ ∃ r ∈ rows, r.values[i]? = key := by
    intro key
    simp only [keys, List.mem_eraseDups, List.mem_map, hkey]
  have hsome : a.keys rows ∈ Set.range (List.map some) := by
    rw [Set.range_list_map]
    intro key h
    obtain ⟨r, hr, rfl⟩ := (hmem key).mp h
    exact Option.ne_none_iff_exists.mp (present r hr)
  obtain ⟨ks, hks⟩ := hsome
  refine ⟨ks, hks.symm, ?_, fun k ↦ ?_⟩
  · have hnodup := a.nodup_keys rows
    rw [← hks] at hnodup
    exact hnodup.of_map
  · rw [← hmem, ← hks]
    simp

/-- The rows of a summary by groups, as pairs of a key and a number. -/
theorem summary_grouped (hgroup : a.group? = some i) (present : ∀ r ∈ rows, r.values[i]? ≠ none) :
    ∃ groups : List (Value × Int64),
      a.summary rows = groups.map (fun g ↦ .ofValues [g.1, .integer g.2])
        ∧ (groups.map Prod.fst).Nodup
        ∧ (∀ k, k ∈ groups.map Prod.fst ↔ ∃ r ∈ rows, r.values[i]? = some k)
        ∧ ∀ k n, (k, n) ∈ groups → some k ∈ a.keys rows
          ∧ n = Int64.ofInt (a.function.exact (a.column (some k) rows)) := by
  obtain ⟨ks, hks, hnodup, hmem⟩ := keys_of_grouped hgroup present
  let groups := ks.map fun k ↦ (k, Int64.ofInt (a.function.exact (a.column (some k) rows)))
  have hfst : groups.map Prod.fst = ks := by simp [groups, Function.comp_def]
  refine ⟨groups, ?_, hfst.symm ▸ hnodup, hfst.symm ▸ hmem, ?_⟩
  · rw [summary, hks]
    simp [groups, Function.comp_def]
  · intro k n hmember
    obtain ⟨k', hk', heq⟩ := List.mem_map.mp hmember
    cases heq
    exact ⟨hks ▸ List.mem_map_of_mem hk', rfl⟩

end Aggregation

/-! ## A group as an aggregation -/

namespace Grouping

variable {a : Aggregation} {input : Schema} {g g' alone : Grouping} {key : Option Value} {r : Row}
  {before rows : List Row}

theorem ofSchema_overall (h : ofSchema input a = .ok g) :
    ∃ alone, ofSchema input a.overall = .ok alone := by
  rw [ofSchema] at h ⊢
  cases hcolumn : input.column a.field with
  | error e =>
    rw [hcolumn] at h
    cases h
  | ok column =>
    rw [hcolumn] at h
    dsimp only [Aggregation.overall] at h ⊢
    rw [hcolumn]
    dsimp only
    split at h
    · cases h
    · next hnumber => exact ⟨_, if_neg hnumber⟩

/-- A row that its group does not refuse is not refused by the rows of the group alone, since the
accumulator of the group has seen the same values. -/
theorem Holds.merge_overall (holds : g.Holds a input before)
    (holds' : alone.Holds a.overall input (a.members (a.key? r) before)) (reads : a.Reads input r)
    (hmerge : g.merge r = .ok g') :
    ∃ alone', alone.merge r = .ok alone'
      ∧ alone'.Holds a.overall input (a.members (a.key? r) (before ++ [r])) := by
  have hreads : a.overall.Reads input r := ⟨reads.1, by simp [Aggregation.overall]⟩
  have hmembers : a.members (a.key? r) (before ++ [r]) = a.members (a.key? r) before ++ [r] := by
    simp [Aggregation.members]
  cases hmerge' : alone.merge r with
  | ok alone' => exact ⟨alone', rfl, hmembers ▸ holds'.merge hreads hmerge'⟩
  | error e =>
    obtain ⟨he, v, hv, htake, hrefuses⟩ := (holds'.merge_eq_error_iff hreads e).mp hmerge'
    have hcolumn : a.overall.column (a.overall.key? r) (a.members (a.key? r) before)
        = a.column (a.key? r) before := a.column_overall _ before
    rw [hcolumn] at hrefuses
    have herror := (holds.merge_eq_error_iff reads e).mpr ⟨he, v, hv, htake, hrefuses⟩
    rw [hmerge] at herror
    cases herror

/-- If a grouping refuses none of the rows, those of one group are not refused by themselves. -/
theorem Holds.feed_members (holds : g.Holds a input before)
    (holds' : alone.Holds a.overall input (a.members key before))
    (reads : ∀ r ∈ rows, a.Reads input r) (hfeed : ∀ answer ∈ (g.feed rows).1, answer = .ok ()) :
    ∀ answer ∈ (alone.feed (a.members key rows)).1, answer = .ok () := by
  induction rows generalizing g alone before with
  | nil => simp [Aggregation.members, Grouping.feed]
  | cons r rest ih =>
    have hreads := reads r List.mem_cons_self
    have hrest : ∀ r ∈ rest, a.Reads input r := fun r hr ↦ reads r (List.mem_cons_of_mem _ hr)
    rw [Grouping.feed] at hfeed
    cases hmerge : g.merge r with
    | error e =>
      rw [hmerge] at hfeed
      cases hfeed _ List.mem_cons_self
    | ok g' =>
      rw [hmerge] at hfeed
      have hfeed' : ∀ answer ∈ (g'.feed rest).1, answer = .ok () :=
        fun answer hanswer ↦ hfeed answer (List.mem_cons_of_mem _ hanswer)
      have hnext := holds.merge hreads hmerge
      by_cases hkey : a.key? r = key
      · subst hkey
        obtain ⟨alone', hmerge', hnext'⟩ := holds.merge_overall holds' hreads hmerge
        have hcons : a.members (a.key? r) (r :: rest) = r :: a.members (a.key? r) rest := by
          simp [Aggregation.members]
        rw [hcons, Grouping.feed, hmerge']
        intro answer hanswer
        rcases List.mem_cons.mp hanswer with rfl | hanswer
        · rfl
        · exact ih hnext hnext' hrest hfeed' answer hanswer
      · -- A row of another group is left out.
        have hbefore : a.members key (before ++ [r]) = a.members key before := by
          simp [Aggregation.members, hkey]
        have hcons : a.members key (r :: rest) = a.members key rest := by
          simp [Aggregation.members, hkey]
        rw [hcons]
        exact ih hnext (hbefore.symm ▸ holds') hrest hfeed'

end Grouping

end QueryEngine
