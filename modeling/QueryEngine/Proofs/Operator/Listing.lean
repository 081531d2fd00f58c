import QueryEngine.Proofs.Aggregate.Summary
import QueryEngine.Proofs.Operator.Walk

/-!
# The rows of an operator that only reads

An operator without modifications has one list of rows, its listing, as long as its tables show the
same pages. What it has handed out and what it still has to hand out are pieces of this list.

## The invariant

`Operator.remaining` reads the rows still to come off the state of an operator: off its buffer, the
page in hand, the next page to be read, and off its inputs. It makes sense for an operator that is
`Running`: open, with its inputs running in turn, except below an aggregation, which has its groups
instead. An operator that is not open is `Resting`. Opening takes a resting operator to a running
one with its whole listing remaining; a traversal is the walk over the rows remaining
(`forRows_walks`); closing makes every operator rest.
-/

namespace QueryEngine

variable {σ τ α : Type}

/-! ## Listings -/

/-- An aggregation of rows of one schema succeeds, with results of the other schema. -/
def Aggregation.Computes (a : Aggregation) (input output : Schema) (rows : List Row) : Prop :=
  ∃ g, Grouping.ofSchema input a = .ok g ∧ (∀ answer ∈ (g.feed rows).1, answer = .ok ())
    ∧ ∀ r ∈ a.summary rows, r.Conforms output

theorem Predicate.Suits.evaluates {p : Predicate} {schema : Schema} (suits : p.Suits schema)
    {r : Row} (conforms : r.Conforms schema) : ∃ b, p.holds r = .ok b := by
  have htypes : r.types[p.field]? = some p.operand.type :=
    (congrArg (·[p.field]?) conforms).trans suits
  rw [Row.types, List.getElem?_map] at htypes
  obtain ⟨v, hv, htype⟩ := Option.map_eq_some_iff.mp htypes
  rw [holds, Row.get, hv]
  rcases p with ⟨field, op, operand⟩
  cases v with
  | integer n =>
    cases operand with
    | integer m => cases op <;> exact ⟨_, rfl⟩
    | text t => cases htype
  | text s =>
    cases operand with
    | integer m => cases htype
    | text t => cases op <;> exact ⟨_, rfl⟩

/-- All rows are taken into a grouping exactly if it refuses none. -/
theorem walk_mergeStep_eq_ok_iff {g : Grouping} {rows : List Row} {last : ForInStep Grouping} :
    (walk mergeStep rows g).1 = .ok last
      ↔ (∀ answer ∈ (g.feed rows).1, answer = .ok ()) ∧ last = .yield (g.feed rows).2 := by
  induction rows generalizing g with
  | nil => simp [walk, Grouping.feed, eq_comm]
  | cons r rest ih =>
    rw [walk, mergeStep, Grouping.feed]
    cases g.merge r with
    | ok g' => simpa [Except.map] using ih
    | error e => simp [Except.map]

theorem Values.ofRows_eq_ok_iff {schema : Schema} {rows : List Row} {v : Values} :
    Values.ofRows schema rows = .ok v
      ↔ (∀ r ∈ rows, r.Conforms schema) ∧ v = ⟨schema, rows, [], .closed⟩ := by
  rw [ofRows]
  cases hfind : rows.find? fun r ↦ ¬r.Conforms schema with
  | none =>
    have hconforms : ∀ r ∈ rows, r.Conforms schema := by simpa using List.find?_eq_none.mp hfind
    rw [Except.ok.injEq, eq_comm]
    exact (and_iff_right hconforms).symm
  | some r =>
    have hr := List.find?_some hfind
    have hmem := List.mem_of_find?_eq_some hfind
    simp only [reduceCtorEq, false_iff, not_and]
    intro hconforms
    exact absurd (hconforms r hmem) (by simpa using hr)

theorem Values.ofRows_eq_error {schema : Schema} {rows : List Row} {e : QueryError}
    (h : Values.ofRows schema rows = .error e) :
    ∃ r ∈ rows, ¬ r.Conforms schema ∧ e = .rowMismatch r schema := by
  rw [ofRows] at h
  split at h
  · next r hr =>
    cases h
    have hconforms := List.find?_some hr
    exact ⟨r, List.mem_of_find?_eq_some hr, by simpa using hconforms, rfl⟩
  · cases h

namespace Operator

/-- The rows of an operator without modifications, if the tables show the given pages. -/
def listing (pages : τ → List (List Row)) : Operator τ → List Row
  | values v => v.rows
  | scan c => (pages c.table).flatten
  | filter p _ input => p.select (input.listing pages)
  | modify _ _ => []
  | aggregate spec _ _ input => spec.summary (input.listing pages)

theorem listing_bare (pages : τ → List (List Row)) (op : Operator τ) :
    op.bare.listing pages = op.listing pages := by
  induction op with
  | values v => rfl
  | scan c => rfl
  | filter p look input ih => exact congrArg p.select ih
  | modify b input ih => rfl
  | aggregate spec schema groups input ih => exact congrArg spec.summary ih

/-- An operator that only reads, whose rows conform to its schema and whose predicates and
aggregations can be evaluated on them. -/
def Sound [Storage σ τ] (states : σ → Prop) (pages : τ → List (List Row)) : Operator τ → Prop
  | values v => ∀ r ∈ v.rows, r.Conforms v.schema
  | scan c =>
    Displays states c.table (pages c.table) ∧ ∀ r ∈ (pages c.table).flatten, r.Conforms c.schema
  | filter p _ input => input.Sound states pages ∧ p.Suits input.schema
  | modify _ _ => False
  | aggregate spec schema _ input =>
    input.Sound states pages ∧ spec.Computes input.schema schema (input.listing pages)

variable [Storage σ τ] {states : σ → Prop} {pages : τ → List (List Row)}

theorem sound_bare (op : Operator τ) : op.bare.Sound states pages ↔ op.Sound states pages := by
  induction op with
  | values v => rfl
  | scan c => rfl
  | filter p look input ih => rw [bare, Sound, Sound, ih, schema_bare]
  | modify b input ih => rfl
  | aggregate spec schema groups input ih =>
    rw [bare, Sound, Sound, ih, schema_bare, listing_bare]

theorem Sound.of_bare_eq {op op' : Operator τ} (sound : op.Sound states pages)
    (h : op'.bare = op.bare) : op'.Sound states pages := by
  rw [← sound_bare, h, sound_bare]
  exact sound

theorem listing_eq_of_bare_eq {op op' : Operator τ} (h : op'.bare = op.bare) :
    op'.listing pages = op.listing pages := by
  rw [← listing_bare, h, listing_bare]

theorem Sound.conforms {op : Operator τ} (sound : op.Sound states pages) {r : Row}
    (hr : r ∈ op.listing pages) : r.Conforms op.schema := by
  induction op with
  | values v => exact sound r hr
  | scan c => exact sound.2 r hr
  | filter p look input ih => exact ih sound.1 (List.mem_filter.mp hr).1
  | modify b input ih => exact sound.elim
  | aggregate spec schema groups input ih =>
    obtain ⟨-, g, -, -, hconforms⟩ := sound
    exact hconforms r hr

/-- A grouping that refuses no row of an operator comes to the summary of its rows. -/
theorem Sound.results_of_feed {op : Operator τ} (sound : op.Sound states pages) {spec : Aggregation}
    {g : Grouping} (hg : Grouping.ofSchema op.schema spec = .ok g)
    (hfeed : ∀ answer ∈ (g.feed (op.listing pages)).1, answer = .ok ()) :
    (g.feed (op.listing pages)).2.results = spec.summary (op.listing pages) := by
  have hholds := (Grouping.holds_of_ofSchema hg).feed fun r hr ↦
    Aggregation.Reads.of_conforms (sound.conforms hr)
  rw [Grouping.accepted_eq_self hfeed, List.nil_append] at hholds
  exact hholds.results_eq

/-! ## States -/

/-- The rows that an operator has still to hand out. -/
def remaining (pages : τ → List (List Row)) : Operator τ → List Row
  | values v => v.look.rest v.pending
  | scan c => c.look.rest (c.pending ++ ((pages c.table).drop c.nextPage).flatten)
  | filter p look input => look.rest (p.select (input.remaining pages))
  | modify _ _ => []
  | aggregate _ _ none _ => []
  | aggregate _ _ (some v) _ => v.look.rest v.pending

/-- The list holds the results of an aggregation over an input. -/
def Summarizes (pages : τ → List (List Row)) (spec : Aggregation) (schema : Schema)
    (input : Operator τ) (v : Values) : Prop :=
  v.rows = spec.summary (input.listing pages) ∧ v.schema = schema

def Running (pages : τ → List (List Row)) : Operator τ → Prop
  | values v => v.look ≠ .closed
  | scan c => c.look ≠ .closed ∧ c.pageCount = (pages c.table).length
  | filter _ look input =>
    look ≠ .closed ∧ input.Running pages ∧ ∀ r ∈ input.remaining pages, r.Conforms input.schema
  | modify _ _ => False
  | aggregate spec schema groups input =>
    ∃ v, groups = some v ∧ v.look ≠ .closed ∧ Summarizes pages spec schema input v

def Resting (pages : τ → List (List Row)) : Operator τ → Prop
  | values v => v.look = .closed
  | scan c => c.look = .closed
  | filter _ look input => look = .closed ∧ input.Resting pages
  | modify b input => b.look = .closed ∧ input.Resting pages
  | aggregate spec schema groups input =>
    (∀ v, groups = some v → v.look = .closed ∧ Summarizes pages spec schema input v)
      ∧ input.Resting pages

/-! ## Traversals -/

/-- Every page that the operator may have to read is read as given, unless the read fails in the
given way. An aggregation reads nothing more, and a modification reads while it is at work. -/
def ReadsPages (refused : StorageError → Prop) (states : σ → Prop) (pages : τ → List (List Row)) :
    Operator τ → Prop
  | scan c => ReadsAs refused states c.table (pages c.table)
  | filter _ _ input => input.ReadsPages refused states pages
  | values _ | modify .. | aggregate .. => True

theorem Sound.readsPages {op : Operator τ} (sound : op.Sound states pages) :
    op.ReadsPages (fun _ ↦ False) states pages := by
  induction op with
  | values v => trivial
  | scan c => exact readsAs_of_served sound.1.readPage_eq
  | filter p look input ih => exact ih sound.1
  | modify b input ih => trivial
  | aggregate spec schema groups input ih => trivial

variable {refused : StorageError → Prop}

private theorem values_attempts {v : Values} (isOpen : v.look ≠ .closed) (step : Step α) (a : α)
    {s : σ} (hs : states s) :
    (v.forRows step.visitor a s).Attempts refused states
      (fun v' ↦ v'.look ≠ .closed ∧ v'.rows = v.rows ∧ v'.schema = v.schema)
      (fun v' ↦ v'.look.rest v'.pending) step (v.look.rest v.pending) a := by
  rw [Values.forRows]
  refine Lookahead.resume_attempts isOpen hs rfl rfl (fun look hlook ↦ ⟨hlook, rfl, rfl⟩)
    fun a' s' hs' ↦ .inl ?_
  rw [visitRows_visitor]
  exact ⟨rfl, Lookahead.rest_after, hs', Lookahead.after_ne_closed _, rfl, rfl⟩

private theorem scan_attempts {c : Scan τ} (read : ReadsAs refused states c.table (pages c.table))
    (isOpen : c.look ≠ .closed) (hcount : c.pageCount = (pages c.table).length) (step : Step α)
    (a : α) {s : σ} (hs : states s) :
    (c.forRows step.visitor a s).Attempts refused states
      (fun c' ↦ c'.look ≠ .closed ∧ c'.pageCount = (pages c'.table).length)
      (fun c' ↦ c'.look.rest (c'.pending ++ ((pages c'.table).drop c'.nextPage).flatten)) step
      (c.look.rest (c.pending ++ ((pages c.table).drop c.nextPage).flatten)) a := by
  rw [Scan.forRows]
  refine Lookahead.resume_attempts isOpen hs rfl rfl (fun look hlook ↦ ⟨hlook, hcount⟩)
    fun a' s' hs' ↦ ?_
  rw [visitRows_visitor]
  -- Pages are read only if the walk over the rest of the page in hand comes to its end.
  by_cases hyield : ∃ a'', (walk step c.pending a').1 = .ok (.yield a'')
  · obtain ⟨a'', ha''⟩ := hyield
    rw [ha'', hcount]
    refine Reply.Attempts.prepend ha'' ?_
    rcases visitPages_attempts read step c.nextPage a'' hs' with
      hpages | ⟨⟨e, he, hanswer⟩, hvisited, hstore, -⟩
    · refine .inl ⟨hpages.answer_eq, ?_, hpages.store, Lookahead.after_ne_closed _, rfl⟩
      dsimp only
      rw [hpages.answer_eq, ← Lookahead.rest_after, ← hpages.rest_eq]
    · refine .inr ⟨⟨e, he, hanswer⟩, ?_, hstore, Lookahead.after_ne_closed _, rfl⟩
      dsimp only
      rw [hanswer]
      exact hvisited
  · have hstop : ∀ a'', (walk step c.pending a').1 ≠ .ok (.yield a'') := not_exists.mp hyield
    refine .inl ?_
    rw [walk_append_of_stop hstop]
    rcases hanswer : (walk step c.pending a').1 with e | ⟨a''⟩ | ⟨a''⟩
    · exact ⟨rfl, rfl, hs', ⟨Lookahead.after_ne_closed (α := α) (.error e), hcount⟩⟩
    · exact ⟨rfl, rfl, hs', ⟨Lookahead.after_ne_closed (.ok (.done a'')), hcount⟩⟩
    · exact absurd hanswer (hstop a'')

omit [Storage σ τ] in
/-- A filter attempts the walk over the selected rows if its input attempts the guarded walk over
all of them. -/
private theorem filter_attempts {p : Predicate} {schema : Schema} (suits : p.Suits schema)
    {rows : List Row} (conforms : ∀ r ∈ rows, r.Conforms schema) {step : Step α} {a : α}
    {reply : Reply (Operator τ) σ (ForInStep α)} (hschema : reply.node.schema = schema)
    (h : reply.Attempts refused states (Running pages) (remaining pages) (p.guardStep step) rows
      a) :
    Reply.Attempts ⟨reply.answer, filter p (.after reply.answer) reply.node, reply.store⟩ refused
      states (Running pages) (remaining pages) step (p.select rows) a := by
  have evaluates : ∀ r ∈ rows, ∃ b, p.holds r = .ok b :=
    fun r hr ↦ suits.evaluates (conforms r hr)
  rcases h with hwalk | ⟨⟨e, he, hanswer⟩, ⟨seen, a', rfl, hseen⟩, hstore, hnode⟩
  · obtain ⟨hanswer, hrest⟩ := walk_guardStep evaluates step a
    refine .inl ⟨hwalk.answer_eq.trans hanswer, ?_, hwalk.store, Lookahead.after_ne_closed _,
      hwalk.node, fun r hr ↦ ?_⟩
    · dsimp only [remaining]
      rw [hwalk.rest_eq, hwalk.answer_eq, hanswer, hrest, Lookahead.rest_after]
    · rw [hwalk.rest_eq] at hr
      rw [hschema]
      exact conforms r ((walk_suffix _ _ _).subset hr)
  · refine .inr ⟨⟨e, he, hanswer⟩, ⟨p.select seen, a', ?_, ?_⟩, hstore,
      Lookahead.after_ne_closed _, hnode, fun r hr ↦ ?_⟩
    · dsimp only [remaining]
      rw [hanswer, Predicate.select, List.filter_append]
      rfl
    · have hguarded := (walk_guardStep
        (fun r hr ↦ evaluates r (List.mem_append_left _ hr)) step a).1
      rw [← hguarded, hseen]
    · rw [hschema]
      exact conforms r (List.mem_append_right _ hr)

/-- The traversal of a running operator attempts the walk over the rows that it has still to hand
out, also in states in which a page read may fail. -/
theorem forRows_attempts {σ' : Type} [Storage σ' τ] {served : σ' → Prop} {op : Operator τ}
    (sound : op.Sound served pages) (reads : op.ReadsPages refused states pages)
    (running : op.Running pages) (step : Step α) (a : α) {s : σ} (hs : states s) :
    (op.forRows step.visitor a s).Attempts refused states (Running pages) (remaining pages) step
      (op.remaining pages) a := by
  induction op generalizing α s with
  | values v =>
    exact (values_attempts running step a hs).mapNode (fun _ ↦ rfl) fun _ h ↦ h.1
  | scan c =>
    exact (scan_attempts reads running.1 running.2 step a hs).mapNode (fun _ ↦ rfl) fun _ h ↦ h
  | filter p look input ih =>
    obtain ⟨isOpen, hrunning, hconforms⟩ := running
    rw [forRows]
    refine Lookahead.resume_attempts isOpen hs rfl rfl
      (fun look' hlook' ↦ ⟨hlook', hrunning, hconforms⟩) fun a' s' hs' ↦ ?_
    rw [p.guard_visitor]
    exact filter_attempts sound.2 hconforms
      (schema_eq_of_bare_eq (input.bare_forRows (p.guardStep step).visitor a' s'))
      (ih sound.1 reads hrunning (p.guardStep step) a' hs')
  | modify b input ih => exact sound.elim
  | aggregate spec schema groups input ih =>
    obtain ⟨v, rfl, isOpen, hrows, hschema⟩ := running
    refine (values_attempts isOpen step a hs).mapNode (fun _ ↦ rfl) fun v' h ↦ ?_
    exact ⟨v', rfl, h.1, h.2.1.trans hrows, h.2.2.trans hschema⟩

/-- The traversal of a running operator is the walk over the rows that it has still to hand out. -/
theorem forRows_walks {op : Operator τ} (sound : op.Sound states pages)
    (running : op.Running pages) (step : Step α) (a : α) {s : σ} (hs : states s) :
    (op.forRows step.visitor a s).Walks states (Running pages) (remaining pages)
      (walk step (op.remaining pages) a) :=
  (forRows_attempts sound sound.readsPages running step a hs).walks

/-! ## Opening, rewinding and closing -/

theorem resting_close (op : Operator τ) : op.close.Resting pages := by
  induction op with
  | values v => rfl
  | scan c => rfl
  | filter p look input ih => exact ⟨rfl, ih⟩
  | modify b input ih => exact ⟨rfl, ih⟩
  | aggregate spec schema groups input ih => exact ⟨nofun, ih⟩

/-- The call succeeds and takes the operator to a running one with all of its rows remaining. -/
structure Starts (op : Operator τ) (states : σ → Prop) (pages : τ → List (List Row))
    (reply : Reply (Operator τ) σ Unit) : Prop where
  answer_eq : reply.answer = .ok ()
  running : reply.node.Running pages
  remaining_eq : reply.node.remaining pages = op.listing pages
  bare_eq : reply.node.bare = op.bare
  store : states reply.store

private theorem Starts.filter {input : Operator τ} (sound : input.Sound states pages)
    {reply : Reply (Operator τ) σ Unit} (h : input.Starts states pages reply) (p : Predicate)
    (look : Lookahead) :
    (Operator.filter p look input).Starts states pages
      (reply.mapNode (Operator.filter p (.ready none))) where
  answer_eq := h.answer_eq
  running := by
    refine ⟨Lookahead.ready_ne_closed none, h.running, fun r hr ↦ ?_⟩
    rw [h.remaining_eq] at hr
    rw [schema_eq_of_bare_eq h.bare_eq]
    exact sound.conforms hr
  remaining_eq := congrArg p.select h.remaining_eq
  bare_eq := congrArg (Operator.filter p .closed) h.bare_eq
  store := h.store

private theorem starts_reset {c : Scan τ} (displays : Displays states c.table (pages c.table))
    {s : σ} (hs : states s) :
    (scan c).Starts states pages ((Scan.reset { c with look := .ready none } s).mapNode scan) := by
  obtain ⟨s', hcount, hs'⟩ := displays.pageCount_eq s hs
  rw [Scan.reset, hcount]
  exact ⟨rfl, ⟨Lookahead.ready_ne_closed none, rfl⟩, rfl, rfl, hs'⟩

theorem groupInput_eq_ok {spec : Aggregation} {schema : Schema} {input : Operator τ}
    (sound : input.Sound states pages)
    (computes : spec.Computes input.schema schema (input.listing pages))
    {start : σ → Reply (Operator τ) σ Unit} {s : σ}
    (hstart : input.Starts states pages (start s)) :
    ∃ input' s', groupInput spec schema input start s
        = ⟨.ok ⟨schema, spec.summary (input.listing pages), [], .closed⟩, input', s'⟩
      ∧ input'.Resting pages ∧ input'.bare = input.bare ∧ states s' := by
  obtain ⟨g, hg, hfeed, hconforms⟩ := computes
  generalize hopened : start s = opened at hstart
  obtain ⟨answer, input', s'⟩ := opened
  obtain ⟨rfl, hrunning, hremaining, hbare, hs'⟩ := hstart
  have hwalk := forRows_walks (sound.of_bare_eq hbare) hrunning mergeStep g hs'
  have hbare' := input'.bare_forRows (mergeStep.visitor : Visitor σ Grouping) g s'
  rw [hremaining] at hwalk
  generalize hmerged : input'.forRows mergeStep.visitor g s' = merged at hwalk hbare'
  obtain ⟨answer', input'', s''⟩ := merged
  obtain ⟨hanswer, -, hs'', -⟩ := hwalk
  rw [walk_mergeStep_eq_ok_iff.mpr ⟨hfeed, rfl⟩] at hanswer
  refine ⟨input''.close, s'', ?_, resting_close _, (bare_close _).trans (hbare'.trans hbare), hs''⟩
  dsimp only at hanswer
  rw [groupInput, hg]
  dsimp only
  rw [hopened]
  dsimp only
  rw [mergeRow_eq, hmerged, hanswer]
  dsimp only [ForInStep.value]
  rw [sound.results_of_feed hg hfeed, Values.ofRows_eq_ok_iff.mpr ⟨hconforms, rfl⟩]

theorem computes_of_groupInput {spec : Aggregation} {schema : Schema} {input input' : Operator τ}
    (sound : input.Sound states pages) {start : σ → Reply (Operator τ) σ Unit} {s s' : σ}
    (hstart : input.Starts states pages (start s)) {groups : Values}
    (h : groupInput spec schema input start s = ⟨.ok groups, input', s'⟩) :
    spec.Computes input.schema schema (input.listing pages) := by
  generalize hopened : start s = opened at hstart
  obtain ⟨answer, opened, s₁⟩ := opened
  obtain ⟨rfl, hrunning, hremaining, hbare, hs₁⟩ := hstart
  rw [groupInput, hopened] at h
  split at h
  · cases h
  · next g hg =>
    have hwalk := forRows_walks (sound.of_bare_eq hbare) hrunning mergeStep g hs₁
    rw [hremaining] at hwalk
    have hanswer := hwalk.answer_eq
    dsimp only at h hanswer
    rw [mergeRow_eq] at h
    rcases hmerged : opened.forRows mergeStep.visitor g s₁ with ⟨e | last, merged, s₂⟩
    · rw [hmerged] at h
      cases h
    · rw [hmerged] at h hanswer
      obtain ⟨hfeed, rfl⟩ := walk_mergeStep_eq_ok_iff.mp hanswer.symm
      have hlisted : Values.ofRows schema (g.feed (input.listing pages)).2.results = .ok groups :=
        congrArg Reply.answer h
      rw [sound.results_of_feed hg hfeed, Values.ofRows_eq_ok_iff] at hlisted
      exact ⟨g, hg, hfeed, hlisted.1⟩

theorem openOn_starts {op : Operator τ} (sound : op.Sound states pages)
    (resting : op.Resting pages) {s : σ} (hs : states s) :
    op.Starts states pages (op.openOn s) := by
  induction op generalizing s with
  | values v =>
    have hlook : v.look = .closed := resting
    rw [openOn, Values.opened, hlook]
    exact ⟨rfl, Lookahead.ready_ne_closed none, rfl, rfl, hs⟩
  | scan c =>
    have hlook : c.look = .closed := resting
    rw [openOn, hlook]
    exact starts_reset sound.1 hs
  | filter p look input ih =>
    obtain ⟨rfl, hresting⟩ := resting
    exact (ih sound.1 hresting hs).filter sound.1 p .closed
  | modify b input ih => exact sound.elim
  | aggregate spec schema groups input ih =>
    cases groups with
    | some v =>
      obtain ⟨hlook, hrows, hschema⟩ := resting.1 v rfl
      rw [openOn, Values.opened, hlook]
      exact ⟨rfl, ⟨_, rfl, Lookahead.ready_ne_closed none, hrows, hschema⟩, hrows, rfl, hs⟩
    | none =>
      obtain ⟨input', s', hgroups, -, hbare, hs'⟩ :=
        groupInput_eq_ok sound.1 sound.2 (ih sound.1 resting.2 hs)
      rw [openOn, hgroups]
      have hlisting : input'.listing pages = input.listing pages := listing_eq_of_bare_eq hbare
      have hrows : spec.summary (input.listing pages) = spec.summary (input'.listing pages) :=
        congrArg spec.summary hlisting.symm
      exact ⟨rfl, ⟨_, rfl, Lookahead.ready_ne_closed none, hrows, rfl⟩, rfl,
        congrArg (aggregate spec schema none) hbare, hs'⟩

omit [Storage σ τ] in
theorem Running.look_ne_closed {op : Operator τ} (running : op.Running pages) :
    op.look ≠ .closed := by
  cases op with
  | values v => exact running
  | scan c => exact running.1
  | filter p look input => exact running.1
  | modify b input => exact running.elim
  | aggregate spec schema groups input =>
    obtain ⟨v, rfl, isOpen, -⟩ := running
    exact isOpen

theorem rewindOn_starts {op : Operator τ} (sound : op.Sound states pages)
    (running : op.Running pages) {s : σ} (hs : states s) :
    op.Starts states pages (op.rewindOn s) := by
  induction op generalizing s with
  | values v =>
    rw [rewindOn, Values.rewound, Lookahead.rewound_of_open _ running]
    exact ⟨rfl, Lookahead.ready_ne_closed none, rfl, rfl, hs⟩
  | scan c =>
    rw [rewindOn, Lookahead.rewound_of_open _ running.1]
    exact starts_reset sound.1 hs
  | filter p look input ih =>
    rw [rewindOn, Lookahead.rewound_of_open _ running.1]
    exact (ih sound.1 running.2.1 hs).filter sound.1 p look
  | modify b input ih => exact sound.elim
  | aggregate spec schema groups input ih =>
    obtain ⟨v, rfl, hlook, hrows, hschema⟩ := running
    rw [rewindOn, Values.rewound, Lookahead.rewound_of_open _ hlook]
    exact ⟨rfl, ⟨_, rfl, Lookahead.ready_ne_closed none, hrows, hschema⟩, hrows, rfl, hs⟩

end Operator

end QueryEngine
