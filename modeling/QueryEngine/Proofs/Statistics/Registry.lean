import QueryEngine.Proofs.Operator.Frame
import QueryEngine.Proofs.Statistics.Compute
import QueryEngine.Proofs.Storage.Orderly
import QueryEngine.Statistics.Registry

/-!
# The entries of the registry

Each call that changes the registry exchanges one entry (`StatisticsRegistry.Replaces`) or all of
them, and it takes the name from another source: from the statistics, from the caller, or from the
storage. The names agree, so an entry is always found under the name of its table
(`StatisticsRegistry.Keyed`).

Computing statistics may fail at any call of the storage. The entries are exchanged after the last
of these calls, so that a failure leaves the registry as it was. If all tables of a heap succeed,
the registry has their statistics and no others (`StatisticsRegistry.Covers`).
-/

namespace QueryEngine

section

variable {σ τ : Type} [Storage σ τ] {states : σ → Prop}

namespace TableStatistics

variable {config : StatisticsConfig} {table : τ} {s s' : σ}

/-! ## Computing only reads -/

private theorem buildHistograms_closed (closed : Storage.Closed states) {scan : Operator τ}
    (reads : scan.WritesNothing) (buckets : Nat) (hs : states s) :
    states (buildHistograms buckets scan s).2 := by
  have hfirst := reads.forRows closed Survey.noteStep (.start scan.schema.width) hs
  have hbare := scan.bare_forRows (Survey.noteStep.visitor : Visitor σ Survey)
    (.start scan.schema.width) s
  rw [buildHistograms, Survey.note_eq]
  rcases hpass : scan.forRows Survey.noteStep.visitor (.start scan.schema.width) s with
    ⟨e | step, scan₁, s₁⟩
  · rwa [hpass] at hfirst
  · rw [hpass] at hfirst hbare
    have reads₁ : scan₁.WritesNothing := reads.of_bare_eq hbare
    have hsecond := reads₁.rewindOn closed hfirst
    have hbare₁ := scan₁.bare_rewindOn s₁
    dsimp only
    split
    · exact hfirst
    · split
      · exact hfirst
      · next empty hempty =>
        rcases hrewind : scan₁.rewindOn s₁ with ⟨e | ⟨⟩, scan₂, s₂⟩
        · rwa [hrewind] at hsecond
        · rw [hrewind] at hsecond hbare₁
          dsimp only
          rw [fillRow_eq]
          exact (reads₁.of_bare_eq hbare₁).forRows closed _ _ hsecond

theorem compute_closed (closed : Storage.Closed states) (config : StatisticsConfig) (table : τ)
    (hs : states s) : states (compute config table s).2 := by
  have hcount := closed.pageCount table s hs
  rw [compute]
  rcases hpages : Storage.pageCount table s with ⟨e | pages, s₁⟩
  · rwa [hpages] at hcount
  · rw [hpages] at hcount
    dsimp only
    split
    · exact hcount
    · next schema hschema =>
      have reads : (Operator.scan (.ofTable table schema)).WritesNothing := trivial
      have hopens := reads.openOn closed hcount
      have hbare := (Operator.scan (.ofTable table schema)).bare_openOn s₁
      rcases hopened : (Operator.scan (.ofTable table schema)).openOn s₁ with ⟨e | ⟨⟩, scan, s₂⟩
      · rwa [hopened] at hopens
      · rw [hopened] at hopens hbare
        exact buildHistograms_closed closed (reads.of_bare_eq hbare) _ hopens

theorem table_of_compute {t : TableStatistics}
    (computed : compute config table s = (.ok t, s')) : t.table = Storage.tableName σ table := by
  rw [compute] at computed
  split at computed
  · cases computed
  · split at computed
    · cases computed
    · split at computed
      · cases computed
      · next scan s₂ hopened =>
        rcases hbuilt : buildHistograms config.histogramBuckets scan s₂ with
          ⟨e | ⟨rows, histograms⟩, s₃⟩
        · rw [hbuilt] at computed
          cases computed
        · rw [hbuilt] at computed
          cases computed
          rfl

end TableStatistics

end

namespace StatisticsRegistry

/-! ## Calls -/

/-- A call that changes the registry. Statistics are computed over a storage of the caller's. -/
inductive Call : Type 1 where
  | set (t : TableStatistics)
  | remove (table : String)
  | compute {σ τ : Type} [Storage σ τ] (table : τ) (s : σ)
  | computeAll {σ τ : Type} [Storage σ τ] (s : σ)

def call (g : StatisticsRegistry) : Call → StatisticsRegistry
  | .set t => (g.set t).2
  | .remove table => (g.remove table).2
  | @Call.compute _ _ _ table s => (g.compute table s).2.1
  | @Call.computeAll _ _ _ s => (g.computeAll s).2.1

def run (g : StatisticsRegistry) (calls : List Call) : StatisticsRegistry :=
  calls.foldl call g

/-- The registries that calls lead to from one without entries. -/
def Reachable (config : StatisticsConfig) (g : StatisticsRegistry) : Prop :=
  ∃ calls, g = (ofConfig config).run calls

/-- Every entry is under the name of its table. -/
def Keyed (g : StatisticsRegistry) : Prop :=
  ∀ name t, g.get? name = some t → t.table = name

theorem keyed_ofConfig (config : StatisticsConfig) : (ofConfig config).Keyed :=
  fun _ _ ht ↦ nomatch Std.TreeMap.getElem?_emptyc.symm.trans ht

/-! ## One entry -/

/-- The entry of a name is exchanged for another one, or for none. -/
structure Replaces (g g' : StatisticsRegistry) (name : String) (entry : Option TableStatistics) :
    Prop where
  config_eq : g'.config = g.config
  get?_self : g'.get? name = entry
  get?_of_ne : ∀ name', name' ≠ name → g'.get? name' = g.get? name'

theorem Replaces.keyed {g g' : StatisticsRegistry} {name : String} {entry : Option TableStatistics}
    (replaces : g.Replaces g' name entry) (keyed : g.Keyed)
    (table_eq : ∀ t, entry = some t → t.table = name) : g'.Keyed := by
  intro name' t ht
  by_cases hname : name' = name
  · rw [hname] at ht ⊢
    exact table_eq t (replaces.get?_self.symm.trans ht)
  · exact keyed name' t (replaces.get?_of_ne name' hname ▸ ht)

private theorem get?_insert (entries : StatisticsMap) (name : String) (t : TableStatistics)
    (name' : String) :
    (entries.insert name t).get? name' = if name = name' then some t else entries.get? name' := by
  simp only [Std.TreeMap.get?_eq_getElem?, Std.TreeMap.getElem?_insert, Std.compare_eq_iff_eq]

theorem replaces_insert (g : StatisticsRegistry) (name : String) (t : TableStatistics) :
    g.Replaces { g with entries := g.entries.insert name t } name (some t) where
  config_eq := rfl
  get?_self := (get?_insert ..).trans (if_pos rfl)
  get?_of_ne _ hname := (get?_insert ..).trans (if_neg hname.symm)

theorem replaces_erase (g : StatisticsRegistry) (name : String) :
    g.Replaces { g with entries := g.entries.erase name } name none where
  config_eq := rfl
  get?_self := by
    simp only [get?, Std.TreeMap.get?_eq_getElem?, Std.TreeMap.getElem?_erase,
      Std.compare_eq_iff_eq, if_pos]
  get?_of_ne name' hname := by
    simp only [get?, Std.TreeMap.get?_eq_getElem?, Std.TreeMap.getElem?_erase,
      Std.compare_eq_iff_eq, hname.symm, if_false]

section

variable {σ τ : Type} [Storage σ τ] {states : σ → Prop} {config : StatisticsConfig} {s s' : σ}

/-- Computing the statistics of a table enters them under their name, or fails and enters
nothing. -/
theorem compute_cases (g : StatisticsRegistry) (table : τ) (s : σ) :
    (∃ e s', TableStatistics.compute g.config table s = (.error e, s')
        ∧ g.compute table s = (.error e, g, s'))
      ∨ ∃ t g' s', TableStatistics.compute g.config table s = (.ok t, s')
        ∧ g.compute table s = (.ok t, g', s') ∧ t.table = Storage.tableName σ table
        ∧ g.Replaces g' t.table (some t) := by
  rw [compute]
  rcases ht : TableStatistics.compute g.config table s with ⟨e | t, s'⟩
  · exact .inl ⟨e, s', rfl, rfl⟩
  · have htable := TableStatistics.table_of_compute ht
    refine .inr ⟨t, _, s', rfl, rfl, htable, ?_⟩
    exact htable ▸ g.replaces_insert (Storage.tableName σ table) t

/-! ## All entries -/

/-- Each name has the statistics of a table that goes by it, or else the entry that it had. -/
theorem get?_of_computeEach (closed : Storage.Closed states) {tables : List τ}
    {entries entries' : StatisticsMap} (hs : states s)
    (computed : computeEach config tables entries s = (.ok entries', s')) (name : String) :
    (∃ table ∈ tables, Storage.tableName σ table = name ∧ ∃ s₁ s₂ t, states s₁
        ∧ TableStatistics.compute config table s₁ = (.ok t, s₂) ∧ entries'.get? name = some t)
      ∨ name ∉ tables.map (Storage.tableName σ) ∧ entries'.get? name = entries.get? name := by
  induction tables generalizing entries s with
  | nil =>
    cases computed
    exact .inr ⟨List.not_mem_nil, rfl⟩
  | cons table rest ih =>
    have hcompute := TableStatistics.compute_closed closed config table hs
    rw [computeEach] at computed
    rcases ht : TableStatistics.compute config table s with ⟨e | t, s₁⟩
    · rw [ht] at computed
      cases computed
    · rw [ht] at computed hcompute
      -- A later table may go by the same name, and then it is its statistics that stay.
      rcases ih hcompute computed with ⟨table', hmem, hfresh⟩ | ⟨hother, hentry⟩
      · exact .inl ⟨table', List.mem_cons_of_mem _ hmem, hfresh⟩
      · rw [get?_insert] at hentry
        by_cases hname : Storage.tableName σ table = name
        · rw [if_pos hname] at hentry
          exact .inl ⟨table, List.mem_cons_self, hname, s, s₁, t, hs, ht, hentry⟩
        · rw [if_neg hname] at hentry
          refine .inr ⟨?_, hentry⟩
          rw [List.map_cons, List.mem_cons, not_or]
          exact ⟨Ne.symm hname, hother⟩

theorem exists_of_computeEach_error (closed : Storage.Closed states) {tables : List τ}
    {entries : StatisticsMap} {e : QueryError} (hs : states s)
    (failed : computeEach config tables entries s = (.error e, s')) :
    ∃ table ∈ tables, ∃ s₁, states s₁
      ∧ TableStatistics.compute config table s₁ = (.error e, s') := by
  induction tables generalizing entries s with
  | nil => cases failed
  | cons table rest ih =>
    have hcompute := TableStatistics.compute_closed closed config table hs
    rw [computeEach] at failed
    rcases ht : TableStatistics.compute config table s with ⟨e' | t, s₁⟩
    · rw [ht] at failed
      cases failed
      exact ⟨table, List.mem_cons_self, s, hs, ht⟩
    · rw [ht] at failed hcompute
      obtain ⟨table', hmem, hfails⟩ := ih hcompute failed
      exact ⟨table', List.mem_cons_of_mem _ hmem, hfails⟩

theorem computeEach_closed (closed : Storage.Closed states) (config : StatisticsConfig)
    (tables : List τ) (entries : StatisticsMap) (hs : states s) :
    states (computeEach config tables entries s).2 := by
  induction tables generalizing entries s with
  | nil => exact hs
  | cons table rest ih =>
    have hcompute := TableStatistics.compute_closed closed config table hs
    rw [computeEach]
    rcases ht : TableStatistics.compute config table s with ⟨e | t, s₁⟩
    · rwa [ht] at hcompute
    · rw [ht] at hcompute
      exact ih _ hcompute

/-- The statistics of all tables take the place of all entries, or nothing is entered. -/
theorem computeAll_cases (closed : Storage.Closed states) (g : StatisticsRegistry) (hs : states s) :
    (∃ e s', states s' ∧ g.computeAll s = (.error e, g, s')
        ∧ ∃ table ∈ Storage.tables s, ∃ s₁, states s₁
          ∧ TableStatistics.compute g.config table s₁ = (.error e, s'))
      ∨ ∃ g' s', states s' ∧ g.computeAll s = (.ok g'.tables.length, g', s')
        ∧ g'.config = g.config
        ∧ ∀ name, (∃ table ∈ Storage.tables s, Storage.tableName σ table = name ∧ ∃ s₁ s₂ t,
              states s₁ ∧ TableStatistics.compute g.config table s₁ = (.ok t, s₂)
                ∧ g'.get? name = some t)
            ∨ name ∉ (Storage.tables s).map (Storage.tableName σ) ∧ g'.get? name = none := by
  have hstates := computeEach_closed closed g.config (Storage.tables s) ∅ hs
  rw [computeAll]
  rcases hcomputed : computeEach g.config (Storage.tables s) ∅ s with ⟨e | entries, s'⟩
  · rw [hcomputed] at hstates
    exact .inl ⟨e, s', hstates, rfl, exists_of_computeEach_error closed hs hcomputed⟩
  · rw [hcomputed] at hstates
    have hlength : entries.size = entries.keys.length := Std.TreeMap.length_keys.symm
    refine .inr ⟨{ g with entries }, s', hstates, ?_, rfl, ?_⟩
    · dsimp only
      rw [tables, hlength]
    · have hempty (name : String) : (∅ : StatisticsMap).get? name = none :=
        Std.TreeMap.getElem?_emptyc
      intro name
      have hentry := get?_of_computeEach closed hs hcomputed name
      rwa [hempty] at hentry

end

/-! ## Runs -/

/-- A call exchanges no entry, one entry, or all of them. -/
theorem call_cases (g : StatisticsRegistry) (c : Call) :
    g.call c = g
      ∨ (∃ name entry, g.Replaces (g.call c) name entry ∧ ∀ t, entry = some t → t.table = name)
      ∨ (g.call c).config = g.config ∧ (g.call c).Keyed := by
  cases c with
  | set t =>
    refine .inr (.inl ⟨t.table, some t, g.replaces_insert t.table t, fun t' ht ↦ ?_⟩)
    cases ht
    rfl
  | remove table => exact .inr (.inl ⟨table, none, g.replaces_erase table, nofun⟩)
  | compute table s =>
    rw [call]
    rcases g.compute_cases table s with ⟨e, s', -, heq⟩ | ⟨t, g', s', -, heq, -, replaces⟩
    · rw [heq]
      exact .inl rfl
    · rw [heq]
      refine .inr (.inl ⟨t.table, some t, replaces, fun t' ht ↦ ?_⟩)
      cases ht
      rfl
  | computeAll s =>
    rw [call]
    rcases g.computeAll_cases .univ (s := s) trivial with
      ⟨e, s', -, heq, -⟩ | ⟨g', s', -, heq, hconfig, hentries⟩
    · rw [heq]
      exact .inl rfl
    · rw [heq]
      refine .inr (.inr ⟨hconfig, fun name t ht ↦ ?_⟩)
      rcases hentries name with ⟨table, -, hname, s₁, s₂, t', -, hcompute, ht'⟩ | ⟨-, hnone⟩
      · obtain rfl := Option.some.inj (ht'.symm.trans ht)
        exact (TableStatistics.table_of_compute hcompute).trans hname
      · cases hnone.symm.trans ht

theorem config_call (g : StatisticsRegistry) (c : Call) : (g.call c).config = g.config := by
  rcases g.call_cases c with hsame | ⟨name, entry, replaces, -⟩ | ⟨hconfig, -⟩
  · rw [hsame]
  · exact replaces.config_eq
  · exact hconfig

theorem Keyed.call {g : StatisticsRegistry} (keyed : g.Keyed) (c : Call) : (g.call c).Keyed := by
  rcases g.call_cases c with hsame | ⟨name, entry, replaces, htable⟩ | ⟨-, hkeyed⟩
  · rwa [hsame]
  · exact replaces.keyed keyed htable
  · exact hkeyed

theorem Reachable.invariant {config : StatisticsConfig} {g : StatisticsRegistry}
    (reachable : g.Reachable config) : g.config = config ∧ g.Keyed := by
  obtain ⟨calls, rfl⟩ := reachable
  induction calls using List.reverseRecOn with
  | nil => exact ⟨rfl, keyed_ofConfig config⟩
  | append_singleton calls c ih =>
    obtain ⟨hconfig, keyed⟩ := ih
    rw [run, List.foldl_append]
    exact ⟨(config_call _ c).trans hconfig, keyed.call c⟩

/-! ## The tables of a heap -/

/-- The registry has the statistics of the tables of a heap, as they are computed, and no
others. -/
structure Covers (g : StatisticsRegistry) (h : Heap) : Prop where
  entry : ∀ t ∈ h.tables, ∃ stats, TableStatistics.compute g.config t.name h = (.ok stats, h)
    ∧ g.get? t.name = some stats
  stale : ∀ name ∉ h.tables.map HeapTable.name, g.get? name = none

theorem mem_tables {g : StatisticsRegistry} {name : String} :
    name ∈ g.tables ↔ (g.get? name).isSome := by
  rw [tables, Std.TreeMap.mem_keys, get?, Std.TreeMap.get?_eq_getElem?,
    Std.TreeMap.mem_iff_isSome_getElem?]

theorem Covers.tables_perm {g : StatisticsRegistry} {h : Heap} (covers : g.Covers h)
    (nodup : (h.tables.map HeapTable.name).Nodup) :
    g.tables.Perm (h.tables.map HeapTable.name) := by
  have hnodup : g.tables.Nodup := Std.TreeMap.nodup_keys
  rw [List.perm_ext_iff_of_nodup hnodup nodup]
  intro name
  rw [mem_tables]
  constructor
  · intro hsome
    by_contra hname
    rw [covers.stale name hname] at hsome
    cases hsome
  · intro hname
    obtain ⟨t, ht, rfl⟩ := List.mem_map.mp hname
    obtain ⟨stats, -, hentry⟩ := covers.entry t ht
    rw [hentry]
    rfl

/-- Computing the statistics of all tables of a heap fails at one of them, or makes the registry
cover the heap. -/
theorem computeAll_heap (g : StatisticsRegistry) (h : Heap) :
    (∃ e, g.computeAll h = (.error e, g, h)
        ∧ ∃ t ∈ h.tables, TableStatistics.compute g.config t.name h = (.error e, h))
      ∨ ∃ g', g.computeAll h = (.ok g'.tables.length, g', h) ∧ g'.config = g.config
        ∧ g'.Covers h := by
  have closed := h.closed
  have hnames : (Storage.tables h).map (Storage.tableName Heap) = h.tables.map HeapTable.name :=
    List.map_id _
  -- The heap is the only state on the way, so every table is computed over the heap as it is.
  rcases g.computeAll_cases closed rfl with
    ⟨e, s', hs', heq, name, hname, s₁, hs₁, hfails⟩ | ⟨g', s', hs', heq, hconfig, hentries⟩
  · obtain ⟨t, ht, rfl⟩ := List.mem_map.mp hname
    rw [hs'] at heq hfails
    exact .inl ⟨e, heq, t, ht, hs₁ ▸ hfails⟩
  · rw [hs'] at heq
    rw [hnames] at hentries
    refine .inr ⟨g', heq, hconfig, fun t ht ↦ ?_, fun name hname ↦ ?_⟩
    · rw [hconfig]
      rcases hentries t.name with ⟨_, -, rfl, s₁, s₂, stats, hs₁, hcompute, hentry⟩ | ⟨hother, -⟩
      · have hs₂ := TableStatistics.compute_closed closed g.config t.name hs₁
        rw [hcompute] at hs₂
        change s₂ = h at hs₂
        rw [hs₁, hs₂] at hcompute
        exact ⟨stats, hcompute, hentry⟩
      · exact absurd (List.mem_map_of_mem ht) hother
    · rcases hentries name with ⟨_, hmem, rfl, -⟩ | ⟨-, hnone⟩
      · exact absurd hmem hname
      · exact hnone

/-! ## The answers -/

/-- **The entries of the registry.** Whatever calls came before, every entry is under the name of
its table. The next call exchanges one entry and answers with the one before, exchanges one entry
for the statistics that it answers with, or exchanges all of them; if it fails, it exchanges none.
After the statistics of all tables of a heap have been computed, the registry covers the heap. -/
theorem Reachable.exchanges {config : StatisticsConfig} {g : StatisticsRegistry}
    (reachable : g.Reachable config) :
    (g.config = config ∧ g.Keyed)
      ∧ (∀ t, (g.set t).1 = g.get? t.table ∧ g.Replaces (g.set t).2 t.table (some t))
      ∧ (∀ name, (g.remove name).1 = g.get? name ∧ g.Replaces (g.remove name).2 name none)
      ∧ (∀ (σ τ : Type) [Storage σ τ] (table : τ) (s : σ),
          (∃ e s', TableStatistics.compute config table s = (.error e, s')
              ∧ g.compute table s = (.error e, g, s'))
            ∨ ∃ t g' s', TableStatistics.compute config table s = (.ok t, s')
              ∧ g.compute table s = (.ok t, g', s') ∧ t.table = Storage.tableName σ table
              ∧ g.Replaces g' t.table (some t))
      ∧ (∀ (σ τ : Type) [Storage σ τ] (s : σ),
          (∃ e s', g.computeAll s = (.error e, g, s'))
            ∨ ∃ g' s', g.computeAll s = (.ok g'.tables.length, g', s') ∧ g'.config = config)
      ∧ ∀ h : Heap,
          (∃ e, g.computeAll h = (.error e, g, h)
              ∧ ∃ t ∈ h.tables, TableStatistics.compute config t.name h = (.error e, h))
            ∨ ∃ n g', g.computeAll h = (.ok n, g', h) ∧ g'.config = config ∧ g'.Covers h
              ∧ (h.Reachable → h.tables.length ≤ 2 ^ 32 → n = h.tables.length) := by
  obtain ⟨rfl, keyed⟩ := reachable.invariant
  refine ⟨⟨rfl, keyed⟩, fun t ↦ ⟨rfl, g.replaces_insert t.table t⟩,
    fun name ↦ ⟨rfl, g.replaces_erase name⟩, fun σ τ _ table s ↦ g.compute_cases table s,
    fun σ τ _ s ↦ ?_, fun h ↦ ?_⟩
  · rcases g.computeAll_cases .univ (s := s) trivial with
      ⟨e, s', -, heq, -⟩ | ⟨g', s', -, heq, hconfig, -⟩
    · exact .inl ⟨e, s', heq⟩
    · exact .inr ⟨g', s', heq, hconfig⟩
  · rcases g.computeAll_heap h with hfails | ⟨g', heq, hconfig, covers⟩
    · exact .inl hfails
    · refine .inr ⟨_, g', heq, hconfig, covers, fun reachable few ↦ ?_⟩
      have hperm := covers.tables_perm (reachable.orderly few).names_nodup
      rw [hperm.length_eq, List.length_map]

def gone : TableStatistics :=
  ⟨"gone", ⟨[]⟩, 0, 0, 0, []⟩

/-- The statistics of a table that is gone are dropped with the rest. -/
theorem Reachable.exchanges_gone :
    ∃ (g g' : StatisticsRegistry) (stats : TableStatistics), g.Reachable .standard
      ∧ g.get? "gone" = some gone
      ∧ Plan.heapWithGap.Reachable ∧ Plan.heapWithGap.tables.length ≤ 2 ^ 32
      ∧ g.computeAll Plan.heapWithGap = (.ok 1, g', Plan.heapWithGap)
      ∧ g'.get? "t" = some stats ∧ stats.rows = 2 ∧ g'.get? "gone" = none := by
  have reachable : Plan.heapWithGap.Reachable := ⟨2, _, rfl⟩
  have few : Plan.heapWithGap.tables.length ≤ 2 ^ 32 := by decide
  have ht : Plan.heapWithGap.table "t" = .ok _ := rfl
  have hpages : 2 ≤ 2 ^ 32 := by decide
  have hbuckets : StatisticsConfig.standard.histogramBuckets ≠ 0 := by decide
  obtain ⟨stats, hstats, describes⟩ :=
    TableStatistics.compute_eq_ok reachable.sound ht hpages (mt And.left hbuckets)
  have hgone := ((ofConfig .standard).replaces_insert "gone" gone).get?_self
  have hg : ((ofConfig .standard).run [.set gone]).Reachable .standard := ⟨_, rfl⟩
  obtain ⟨-, -, -, -, -, hall⟩ := hg.exchanges
  rcases hall Plan.heapWithGap with ⟨e, -, t, hmem, hfails⟩ | ⟨n, g', heq, hconfig, covers, hcount⟩
  · have hname : ∀ t ∈ Plan.heapWithGap.tables, t.name = "t" := by decide
    rw [hname t hmem, hstats] at hfails
    cases hfails
  · obtain ⟨stats', hstats', hentry⟩ := covers.entry _ (Heap.mem_of_table ht)
    rw [hconfig] at hstats'
    obtain rfl : stats = stats' := by cases hstats.symm.trans hstats'; rfl
    obtain rfl : n = 1 := hcount reachable few
    exact ⟨_, g', stats, hg, hgone, reachable, few, heq, hentry, describes.rows_eq,
      covers.stale "gone" (by decide)⟩

end StatisticsRegistry

end QueryEngine
