import QueryEngine.Proofs.Aggregate.Members
import QueryEngine.Proofs.Operator.Faltering

/-!
# Grouping and filtering

An aggregation by groups hands out one row a group. The number in the row is also what the same
aggregation without groups comes to, over a filter that lets only the rows of the group through.
That aggregation can be built whenever the one by groups could: it computes over the rows of one
group what has been computed over them among others.
-/

namespace QueryEngine

namespace Aggregation

variable {a : Aggregation} {input output : Schema} {rows : List Row} {key : Option Value} {i : Nat}

theorem select_eq_members (hgroup : a.group? = some i) (k : Value) (rows : List Row) :
    (⟨i, .eq, k⟩ : Predicate).select rows = a.members (some k) rows := by
  refine List.filter_congr fun r _ ↦ ?_
  simp [Predicate.holds_eq_iff, key?, hgroup]

theorem Computes.present (computes : a.Computes input output rows)
    (conforms : ∀ r ∈ rows, r.Conforms input) (hgroup : a.group? = some i) :
    ∀ r ∈ rows, r.values[i]? ≠ none := by
  obtain ⟨g, hg, -⟩ := computes
  intro r hr hnone
  have htype : r.types[i]? = input.types[i]? := congrArg (·[i]?) (conforms r hr)
  rw [Row.types, List.getElem?_map, hnone] at htype
  exact (Grouping.serves_of_ofSchema hg).1.group_ne_none i hgroup htype.symm

theorem Computes.overall (computes : a.Computes input output rows)
    (conforms : ∀ r ∈ rows, r.Conforms input) (hkey : key ∈ a.keys rows) :
    ∃ output', a.overall.schema input = .ok output'
      ∧ a.overall.Computes input output' (a.members key rows) := by
  obtain ⟨g, hg, hfeed, -⟩ := computes
  obtain ⟨alone, halone⟩ := Grouping.ofSchema_overall hg
  have hfeed' : ∀ answer ∈ (alone.feed (a.members key rows)).1, answer = .ok () :=
    (Grouping.holds_of_ofSchema hg).feed_members (Grouping.holds_of_ofSchema halone)
      (fun r hr ↦ .of_conforms (conforms r hr)) hfeed
  obtain ⟨c, hc⟩ : ∃ c, input.column a.field = .ok c := by
    rw [Grouping.ofSchema] at hg
    split at hg
    · cases hg
    · next c hc => exact ⟨c, hc⟩
  have hname : input.columnName a.overall.field = .ok c.name :=
    congrArg (Except.map Column.name) hc
  have hschema : a.overall.schema input
      = .ok ⟨[⟨a.function.render ++ "(" ++ c.name ++ ")", .integer⟩]⟩ := by
    rw [schema, hname]
    rfl
  refine ⟨_, hschema, alone, halone, hfeed', fun r hr ↦ ?_⟩
  rw [summary_overall hkey, List.mem_singleton] at hr
  exact hr ▸ rfl

end Aggregation

/-! ## One group through a filter -/

namespace Operator

variable {σ τ : Type} [Storage σ τ] {states : σ → Prop} {pages : τ → List (List Row)}
  {input : Operator τ} {a : Aggregation} {output : Schema} {i : Nat} {k : Value} {s : σ}

/-- The aggregation of one group, which a filter picks out, is built and comes to the number beside
the key of the group. -/
theorem buildAggregate_group (sound : input.Sound states pages) (resting : input.Resting pages)
    (hs : states s) (computes : a.Computes input.schema output (input.listing pages))
    (hgroup : a.group? = some i) (hkey : some k ∈ a.keys (input.listing pages)) :
    ∃ single s', (filter ⟨i, .eq, k⟩ .closed input).buildAggregate a.overall s = (.ok single, s')
      ∧ states s'
      ∧ (single.execute s').answer = .ok [.ofValues [.integer
          (Int64.ofInt (a.function.exact (a.column (some k) (input.listing pages))))]] := by
  have hconforms : ∀ r ∈ input.listing pages, r.Conforms input.schema :=
    fun r hr ↦ sound.conforms hr
  -- The key has the type of the column, as it is the value of some row in it.
  have hsuits : (⟨i, .eq, k⟩ : Predicate).Suits input.schema := by
    obtain ⟨r, hr, hk⟩ := List.mem_map.mp (List.mem_eraseDups.mp hkey)
    rw [Aggregation.key?, hgroup, Option.bind_some] at hk
    rw [Predicate.Suits, ← hconforms r hr, Row.types, List.getElem?_map, hk, Option.map_some]
  have hlisting : (filter ⟨i, .eq, k⟩ .closed input).listing pages
      = a.members (some k) (input.listing pages) :=
    Aggregation.select_eq_members hgroup k _
  obtain ⟨output', hschema, hcomputes⟩ := computes.overall hconforms hkey
  rw [← hlisting] at hcomputes
  have hsound : (filter ⟨i, .eq, k⟩ .closed input).Sound states pages := ⟨sound, hsuits⟩
  obtain ⟨single, s', hbuild, hs', hsound', hresting', hlisting'⟩ :=
    buildAggregate_sound hsound ⟨rfl, resting⟩ hs hschema hcomputes
  refine ⟨single, s', hbuild, hs', ?_⟩
  rw [execute_eq hsound' hresting' hs', hlisting', hlisting, Aggregation.summary_overall hkey]

end Operator

namespace Plan

/-- **Grouping agrees with filtering.** The rows of an aggregation by groups are pairs of a key and
a number. The keys are the values in the column of the groups, each once. For every pair, the same
aggregation without groups is built over a filter for the key, and hands out the number. -/
theorem grouped_eq_filtered {h h' : Heap} (reachable : h.Reachable) {child : Plan String}
    (readOnly : child.ReadOnly) {a : Aggregation} {i : Nat} (hgroup : a.group? = some i)
    {op : Operator String} (built : (aggregate a child).build h = (.ok op, h'))
    (typed : op.WellTyped) :
    h' = h ∧ ∃ input rows, child.build h = (.ok input, h) ∧ (input.execute h).answer = .ok rows
      ∧ ∃ groups : List (Value × Int64),
        (op.execute h).answer = .ok (groups.map fun g ↦ .ofValues [g.1, .integer g.2])
          ∧ (groups.map Prod.fst).Nodup
          ∧ (∀ k, k ∈ groups.map Prod.fst ↔ ∃ r ∈ rows, r.values[i]? = some k)
          ∧ ∀ k n, (k, n) ∈ groups → ∃ single,
            (aggregate a.overall (filter ⟨i, .eq, k⟩ child)).build h = (.ok single, h)
              ∧ (single.execute h).answer = .ok [.ofValues [.integer n]] := by
  obtain ⟨input, h₁, schema, held, input', hinput, -, hheld, hop, hbare⟩ :=
    input_of_build_aggregate built
  have typed' : input'.WellTyped := by
    rw [hop] at typed
    exact typed
  have readOnly' : (aggregate a child).ReadOnly := readOnly
  obtain ⟨hstore, hsound, hresting, hrows⟩ := build_readOnly reachable.sound readOnly' built typed
  obtain ⟨hstore', sound, resting, hrows'⟩ := build_readOnly reachable.sound readOnly hinput
    (typed'.of_bare_eq hbare)
  subst hstore hstore'
  have hlisting : op.listing h₁.shown = a.summary (input.listing h₁.shown) :=
    hrows.trans (congrArg a.summary hrows'.symm)
  have hconforms : ∀ r ∈ input.listing h₁.shown, r.Conforms input.schema :=
    fun r hr ↦ sound.conforms hr
  have computes := Operator.computes_of_groupInput sound
    (Operator.openOn_starts sound resting rfl) hheld
  obtain ⟨groups, hsummary, hnodup, hmem, hnumber⟩ :=
    Aggregation.summary_grouped hgroup (computes.present hconforms hgroup)
  refine ⟨rfl, input, _, hinput, Operator.execute_eq sound resting rfl, groups, ?_, hnodup, hmem,
    ?_⟩
  · rw [Operator.execute_eq hsound hresting rfl, hlisting, hsummary]
  · intro k n hmember
    obtain ⟨hkey, rfl⟩ := hnumber k n hmember
    obtain ⟨single, s', hbuild, rfl, hexecute⟩ :=
      Operator.buildAggregate_group sound resting rfl computes hgroup hkey
    refine ⟨single, ?_, hexecute⟩
    rw [build, build, hinput]
    exact hbuild

def heapOfKeys : Heap :=
  ((Heap.ofCapacity 2).run
    [.create "t" ⟨[⟨"k", .text⟩, ⟨"n", .integer⟩]⟩,
      .insert "t" (.ofValues [.text "a", .integer 7]),
      .insert "t" (.ofValues [.text "b", .integer (-7)]),
      .insert "t" (.ofValues [.text "b", .integer 2]),
      .insert "t" (.ofValues [.text "a", .integer (-2)])]).2

/-- The sums of the numbers above minus five, by key. -/
theorem grouped_eq_filtered_sums :
    ∃ op, heapOfKeys.Reachable ∧ (filter ⟨1, .gt, .integer (-5)⟩ (scan "t")).ReadOnly
      ∧ (⟨.sum, 1, some 0⟩ : Aggregation).group? = some 0
      ∧ (aggregate ⟨.sum, 1, some 0⟩ (filter ⟨1, .gt, .integer (-5)⟩ (scan "t"))).build heapOfKeys
        = (.ok op, heapOfKeys)
      ∧ op.WellTyped
      ∧ (op.execute heapOfKeys).answer
        = .ok [.ofValues [.text "a", .integer 5], .ofValues [.text "b", .integer 2]]
      ∧ ∃ single, (aggregate ⟨.sum, 1, none⟩ (filter ⟨0, .eq, .text "b"⟩
          (filter ⟨1, .gt, .integer (-5)⟩ (scan "t")))).build heapOfKeys = (.ok single, heapOfKeys)
        ∧ (single.execute heapOfKeys).answer = .ok [.ofValues [.integer 2]] := by
  have reachable : heapOfKeys.Reachable := ⟨2, _, rfl⟩
  have readOnly : (filter ⟨1, .gt, .integer (-5)⟩ (scan "t")).ReadOnly := trivial
  have hgroup : (⟨.sum, 1, some 0⟩ : Aggregation).group? = some 0 := rfl
  have built : (aggregate ⟨.sum, 1, some 0⟩
      (filter ⟨1, .gt, .integer (-5)⟩ (scan "t"))).build heapOfKeys = (.ok _, heapOfKeys) := rfl
  refine ⟨_, reachable, readOnly, hgroup, built, ⟨rfl, trivial⟩, rfl, ?_⟩
  obtain ⟨-, input, rows, -, -, groups, hgroups, -, -, hsingle⟩ :=
    grouped_eq_filtered reachable readOnly hgroup built ⟨rfl, trivial⟩
  have hrows : [.ofValues [.text "a", .integer 5], .ofValues [.text "b", .integer 2]]
      = groups.map fun g ↦ Row.ofValues [g.1, .integer g.2] := Except.ok.inj hgroups
  obtain ⟨⟨k, n⟩, hmember, heq⟩ : ∃ g ∈ groups, .ofValues [g.1, .integer g.2]
      = Row.ofValues [.text "b", .integer 2] := List.mem_map.mp (hrows ▸ by simp)
  cases heq
  exact hsingle _ _ hmember

end Plan

end QueryEngine
