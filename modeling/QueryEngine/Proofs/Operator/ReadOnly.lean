import QueryEngine.Proofs.Operator.Cursor

/-!
# Queries that only read a heap

A plan of listed rows, scans, filters and aggregations has a list of rows on every heap
(`Plan.rows`). The operator that is built from it answers every sequence of requests as a cursor
over this list does, as long as the heap stays as it is; and none of the requests changes the heap.

## Pages

A scan asks for pages by numbers of 32 bits. `Heap.shown` lists the pages of a table as they are
read by these numbers; they are the pages of the table unless there are more of them than numbers
(`Heap.shown_eq`).
-/

namespace QueryEngine

/-! ## What a heap shows -/

namespace Heap

/-- The rows on the pages of a table, as they are read. -/
def shown (h : Heap) (name : String) : List (List Row) :=
  match h.table name with
  | .ok t =>
    (List.range t.pages.length).map fun p ↦
      (h.readPage name (UInt32.ofNat p)).toOption.getD []
  | .error _ => []

variable {h : Heap} {name : String} {t : HeapTable}

/-- A page is read as the one that its number, cut off at 32 bits, tells. -/
theorem readPage_eq (ht : h.table name = .ok t) {p : Nat} (hp : p < t.pages.length) :
    ∃ slots, t.pages[p % 2 ^ 32]? = some slots
      ∧ h.readPage name (UInt32.ofNat p) = .ok (Page.rows slots) := by
  have hlt : p % 2 ^ 32 < t.pages.length := Nat.lt_of_le_of_lt (Nat.mod_le _ _) hp
  refine ⟨t.pages[p % 2 ^ 32], List.getElem?_eq_getElem hlt, ?_⟩
  rw [readPage, ht]
  dsimp only
  rw [UInt32.toNat_ofNat', List.getElem?_eq_getElem hlt]

theorem shown_eq (ht : h.table name = .ok t) (few : t.pages.length ≤ 2 ^ 32) :
    h.shown name = t.pages.map Page.rows := by
  rw [shown, ht]
  apply List.ext_getElem?
  intro p
  by_cases hp : p < t.pages.length
  · obtain ⟨slots, hslots, hread⟩ := readPage_eq ht hp
    rw [Nat.mod_eq_of_lt (Nat.lt_of_lt_of_le hp few), List.getElem?_eq_getElem hp,
      Option.some.injEq] at hslots
    simp [hp, hread, hslots, Except.toOption]
  · simp [hp]

theorem flatten_shown (ht : h.table name = .ok t) (few : t.pages.length ≤ 2 ^ 32) :
    (h.shown name).flatten = t.rows := by
  rw [shown_eq ht few, HeapTable.rows, HeapTable.log, Page.rows, List.filterMap_flatten]
  rfl

theorem displays (ht : h.table name = .ok t) : Displays (· = h) name (h.shown name) where
  pageCount_eq := by
    rintro s rfl
    refine ⟨s, ?_, rfl⟩
    change ((s.table name).map fun t ↦ t.pages.length, s) = _
    rw [shown, ht]
    simp [Except.map]
  readPage_eq := by
    rintro s p rows rfl hrows
    refine ⟨s, ?_, rfl⟩
    change (s.readPage name (UInt32.ofNat p), s) = _
    rw [shown, ht] at hrows
    obtain ⟨i, hi, rfl⟩ := List.getElem?_map .. ▸ hrows |> Option.map_eq_some_iff.mp
    obtain ⟨hlt, rfl⟩ := List.getElem?_eq_some_iff.mp hi
    rw [List.length_range] at hlt
    obtain ⟨slots, -, hread⟩ := readPage_eq ht hlt
    rw [List.getElem_range, hread]
    rfl

theorem tableSchema_eq_ok {schema : Schema} (hschema : Storage.tableSchema h name = .ok schema) :
    ∃ t, h.table name = .ok t ∧ schema = t.schema := by
  change (h.table name).map HeapTable.schema = _ at hschema
  rcases ht : h.table name with e | t
  · rw [ht] at hschema
    cases hschema
  · rw [ht] at hschema
    exact ⟨t, rfl, (Except.ok.inj hschema).symm⟩

theorem Sound.conforms_of_mem_shown (sound : h.Sound) (ht : h.table name = .ok t) {r : Row}
    (hr : r ∈ (h.shown name).flatten) : r.Conforms t.schema := by
  rw [shown, ht, List.mem_flatten] at hr
  obtain ⟨rows, hrows, hr⟩ := hr
  obtain ⟨p, hp, rfl⟩ := List.mem_map.mp hrows
  obtain ⟨slots, -, hread⟩ := readPage_eq ht (List.mem_range.mp hp)
  rw [hread] at hr
  exact sound.conforms_of_readPage ht hread hr

end Heap

/-! ## Plans that only read -/

namespace Plan

variable {τ : Type}

/-- Whether a plan has neither modifications nor operators that were built before. -/
def ReadOnly : Plan τ → Prop
  | values _ _ | scan _ => True
  | filter _ input | aggregate _ input => input.ReadOnly
  | modify .. | operator _ => False

/-- The rows of a plan, if the tables show the given pages. -/
def rows (pages : τ → List (List Row)) : Plan τ → List Row
  | values _ rows => rows
  | scan table => (pages table).flatten
  | filter p input => p.select (input.rows pages)
  | aggregate spec input => spec.summary (input.rows pages)
  | modify .. | operator _ => []

end Plan

namespace Operator

variable {τ : Type}

def WellTyped : Operator τ → Prop
  | values _ | scan _ => True
  | filter p _ input => p.Suits input.schema ∧ input.WellTyped
  | modify _ input | aggregate _ _ _ input => input.WellTyped

theorem wellTyped_bare (op : Operator τ) : op.bare.WellTyped ↔ op.WellTyped := by
  induction op with
  | values v => rfl
  | scan c => rfl
  | filter p look input ih => rw [bare, WellTyped, WellTyped, schema_bare, ih]
  | modify b input ih => exact ih
  | aggregate spec schema groups input ih => exact ih

theorem WellTyped.of_bare_eq {op op' : Operator τ} (typed : op.WellTyped)
    (h : op.bare = op'.bare) : op'.WellTyped := by
  rw [← op'.wellTyped_bare, ← h, op.wellTyped_bare]
  exact typed

/-- An aggregation that can be computed over the rows of an input is built, and rests before its
results. -/
theorem buildAggregate_sound {σ : Type} [Storage σ τ] {states : σ → Prop}
    {pages : τ → List (List Row)} {input : Operator τ} (sound : input.Sound states pages)
    (resting : input.Resting pages) {s : σ} (hs : states s) {spec : Aggregation} {schema : Schema}
    (hschema : spec.schema input.schema = .ok schema)
    (computes : spec.Computes input.schema schema (input.listing pages)) :
    ∃ op s', input.buildAggregate spec s = (.ok op, s') ∧ states s' ∧ op.Sound states pages
      ∧ op.Resting pages ∧ op.listing pages = spec.summary (input.listing pages) := by
  obtain ⟨input', s', hgroups, hresting, hbare, hs'⟩ :=
    groupInput_eq_ok sound computes (openOn_starts sound resting hs)
  rw [← groupsOf] at hgroups
  have hlisting : input'.listing pages = input.listing pages := listing_eq_of_bare_eq hbare
  have hinput := schema_eq_of_bare_eq hbare
  refine ⟨aggregate spec schema (some ⟨schema, spec.summary (input.listing pages), [], .closed⟩)
    input', s', ?_, hs', ⟨sound.of_bare_eq hbare, ?_⟩, ⟨?_, hresting⟩, ?_⟩
  · rw [buildAggregate, hschema]
    dsimp only
    rw [hgroups]
  · rwa [hlisting, hinput]
  · rintro v ⟨⟩
    exact ⟨rfl, congrArg spec.summary hlisting.symm, rfl⟩
  · rw [listing, hlisting]

end Operator

namespace Plan

theorem input_of_build_aggregate {σ τ : Type} [Storage σ τ] {spec : Aggregation} {input : Plan τ}
    {s s' : σ} {op : Operator τ} (built : (aggregate spec input).build s = (.ok op, s')) :
    ∃ child s₁ schema groups child', input.build s = (.ok child, s₁)
      ∧ spec.schema child.schema = .ok schema
      ∧ child.groupsOf spec schema s₁ = ⟨.ok groups, child', s'⟩
      ∧ op = .aggregate spec schema (some groups) child' ∧ child'.bare = child.bare := by
  rw [build] at built
  rcases hinput : input.build s with ⟨e | child, s₁⟩
  · rw [hinput] at built
    cases built
  · rw [hinput] at built
    obtain ⟨schema, groups, child', hschema, hgroups, hop, hbare⟩ :=
      Operator.aggregate_of_buildAggregate built
    exact ⟨child, s₁, schema, groups, child', rfl, hschema, hgroups, hop, hbare⟩

/-- A plan that only reads is built without leaving states in which the tables show the given pages,
and the operator rests before the rows of the plan. -/
theorem build_sound {σ τ : Type} [Storage σ τ] {states : σ → Prop} {pages : τ → List (List Row)}
    (shows : ∀ s, states s → ∀ table schema, Storage.tableSchema s table = .ok schema →
      Displays states table (pages table)
        ∧ ∀ r ∈ (pages table).flatten, r.Conforms schema) {plan : Plan τ}
    (readOnly : plan.ReadOnly) {s s' : σ} (hs : states s) {op : Operator τ}
    (built : plan.build s = (.ok op, s')) (typed : op.WellTyped) :
    states s' ∧ op.Sound states pages ∧ op.Resting pages ∧ op.listing pages = plan.rows pages := by
  induction plan generalizing op s' with
  | values schema rows =>
    rw [build, Prod.mk.injEq] at built
    obtain ⟨hvalues, rfl⟩ := built
    rcases hlist : Values.ofRows schema rows with e | v
    · rw [hlist] at hvalues
      cases hvalues
    · rw [hlist] at hvalues
      cases hvalues
      obtain ⟨hconforms, rfl⟩ := Values.ofRows_eq_ok_iff.mp hlist
      exact ⟨hs, hconforms, rfl, rfl⟩
  | scan table =>
    rw [build] at built
    rcases hschema : Storage.tableSchema s table with e | schema
    · rw [hschema] at built
      cases built
    · rw [hschema] at built
      cases built
      exact ⟨hs, shows s hs table schema hschema, rfl, rfl⟩
  | filter p input ih =>
    rw [build] at built
    rcases hinput : input.build s with ⟨e | op', s''⟩
    · rw [hinput] at built
      cases built
    · rw [hinput] at built
      cases built
      obtain ⟨hs', hsound, hresting, hlisting⟩ := ih readOnly hinput typed.2
      exact ⟨hs', ⟨hsound, typed.1⟩, ⟨rfl, hresting⟩, congrArg p.select hlisting⟩
  | modify change table input ih => exact readOnly.elim
  | aggregate spec input ih =>
    obtain ⟨child, s₁, schema, groups, child', hinput, hschema, hgroups, rfl, hbare⟩ :=
      input_of_build_aggregate built
    have typed' : child.WellTyped := (show child'.WellTyped from typed).of_bare_eq hbare
    obtain ⟨hs₁, hsound, hresting, hlisting⟩ := ih readOnly hinput typed'
    have hstart := Operator.openOn_starts hsound hresting hs₁
    have hcomputes := Operator.computes_of_groupInput hsound hstart hgroups
    -- The operator there is to build is the one that was built.
    obtain ⟨op, s₂, hbuild, hs₂, hsound', hresting', hlisting'⟩ :=
      Operator.buildAggregate_sound hsound hresting hs₁ hschema hcomputes
    rw [build, hinput] at built
    cases hbuild.symm.trans built
    exact ⟨hs₂, hsound', hresting', hlisting'.trans (congrArg spec.summary hlisting)⟩
  | operator op => exact readOnly.elim

theorem build_readOnly {h h' : Heap} (sound : h.Sound) {plan : Plan String}
    (readOnly : plan.ReadOnly) {op : Operator String} (built : plan.build h = (.ok op, h'))
    (typed : op.WellTyped) :
    h' = h ∧ op.Sound (· = h) h.shown ∧ op.Resting h.shown
      ∧ op.listing h.shown = plan.rows h.shown := by
  have shows : ∀ s, s = h → ∀ table schema, Storage.tableSchema s table = .ok schema →
      Displays (· = h) table (h.shown table)
        ∧ ∀ r ∈ (h.shown table).flatten, r.Conforms schema := by
    rintro s rfl table schema hschema
    obtain ⟨t, ht, rfl⟩ := Heap.tableSchema_eq_ok hschema
    exact ⟨s.displays ht, fun r hr ↦ sound.conforms_of_mem_shown ht hr⟩
  exact build_sound shows readOnly rfl built typed

/-- **Operators that only read are cursors.** Building a plan of listed rows, scans, filters and
aggregations leaves the heap as it is. The operator answers every sequence of requests as a cursor
over the rows of the plan does, closed at first, and the heap stays as it is. The rows of a scan are
those of the table, in order, if 32 bits are enough for the numbers of its pages. -/
theorem serveAll_eq_cursor {h h' : Heap} (reachable : h.Reachable) {plan : Plan String}
    (readOnly : plan.ReadOnly) {op : Operator String} (built : plan.build h = (.ok op, h'))
    (typed : op.WellTyped) :
    h' = h
      ∧ (∀ requests,
        (op.serveAll h requests).1.map (·.mapError QueryError.kind)
            = Cursor.serveAll (plan.rows h.shown) none requests
          ∧ (op.serveAll h requests).2.2 = h)
      ∧ ∀ name t, h.table name = .ok t → t.pages.length ≤ 2 ^ 32 →
          (h.shown name).flatten = t.rows := by
  obtain ⟨hstore, sound, resting, hlisting⟩ := build_readOnly reachable.sound readOnly built typed
  refine ⟨hstore, fun requests ↦ ?_, fun name t ht few ↦ Heap.flatten_shown ht few⟩
  have hrun := Operator.serveAll_eq sound (c := none) resting rfl requests
  rw [hlisting] at hrun
  exact hrun

/-- A heap whose table has a deleted row at the end of its first page. -/
def heapWithGap : Heap :=
  ((Heap.ofCapacity 2).run
    [.create "t" ⟨[⟨"n", .integer⟩]⟩, .insert "t" (.ofValues [.integer 7]),
      .insert "t" (.ofValues [.integer 8]), .insert "t" (.ofValues [.integer 9]),
      .delete ⟨[], some ⟨1, 0, 1⟩⟩]).2

/-- A heap whose table also has a number that is not above six, between two that are. -/
def heapAroundSix : Heap :=
  ((Heap.ofCapacity 2).run
    [.create "t" ⟨[⟨"n", .integer⟩]⟩, .insert "t" (.ofValues [.integer 7]),
      .insert "t" (.ofValues [.integer 8]), .insert "t" (.ofValues [.integer 5]),
      .insert "t" (.ofValues [.integer 9]), .delete ⟨[], some ⟨1, 0, 1⟩⟩]).2

def sumAboveSix : Plan String :=
  .aggregate ⟨.sum, 0, none⟩ (.filter ⟨0, .gt, .integer 6⟩ (.scan "t"))

/-- An operator that is asked too early, opened twice, rewound when it is exhausted, closed and
opened again. -/
theorem serveAll_eq_cursor_sum :
    ∃ op, heapAroundSix.Reachable ∧ sumAboveSix.ReadOnly
      ∧ sumAboveSix.build heapAroundSix = (.ok op, heapAroundSix) ∧ op.WellTyped
      ∧ (op.serveAll heapAroundSix [.hasNext, .opening, .next, .hasNext, .next, .rewinding,
          .hasNext, .opening, .next, .closing, .next, .opening, .next]).1.map
            (·.mapError QueryError.kind)
        = [.error .illegalState, .ok .done, .ok (.row (.ofValues [.integer 16])),
          .ok (.more false), .error .illegalState, .ok .done, .ok (.more true), .ok .done,
          .ok (.row (.ofValues [.integer 16])), .ok .done, .error .illegalState, .ok .done,
          .ok (.row (.ofValues [.integer 16]))] := by
  have reachable : heapAroundSix.Reachable := ⟨2, _, rfl⟩
  have readOnly : sumAboveSix.ReadOnly := trivial
  have built : sumAboveSix.build heapAroundSix = (.ok _, heapAroundSix) := rfl
  refine ⟨_, reachable, readOnly, built, ⟨rfl, trivial⟩, ?_⟩
  rw [((serveAll_eq_cursor reachable readOnly built ⟨rfl, trivial⟩).2.1 _).1]
  decide

end Plan

end QueryEngine
