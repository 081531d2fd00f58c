import QueryEngine.Proofs.Operator.Lives
import QueryEngine.Proofs.Operator.Retry

/-!
# Aggregations hand out snapshots

An aggregation computes its groups when it is built, and again when it is opened after it was
closed. All that it hands out in between comes from these groups, however the tables change, however
often it is rewound or opened once more. It is a cursor over a list of rows that is taken at certain
moments (`Snapshot`), where an operator that only reads is a cursor over what the tables show all
along.

## The groups

Over rows in a given order, a grouping either refuses some value for being out of range, or it comes
to the summary of the rows (`Aggregation.outcome`). A value out of range makes the opening fail and
leaves the aggregation closed and without groups.

What carries the argument is that an aggregation with groups never turns to its input, except for
closing it (`Operator.serve_groups`), and that a closed input has no memory: the pass over it comes
to what the heap shows at that moment (`Operator.Groupable.groupsOf_eq`).
-/

namespace QueryEngine

/-! ## The outcome of a pass -/

namespace Aggregation

/-- The accumulator of the group of some row has no room for its value, when the rows come in order
after others. -/
def Overruns (a : Aggregation) : List Row → List Row → Prop
  | _, [] => False
  | before, r :: rest =>
    (∃ v ∈ r.values[a.field]?, a.function.Refuses (a.column (a.key? r) before) v)
      ∨ a.Overruns (before ++ [r]) rest

instance decidableOverruns (a : Aggregation) (before rows : List Row) :
    Decidable (a.Overruns before rows) :=
  match rows with
  | [] => inferInstanceAs (Decidable False)
  | r :: rest =>
    have := decidableOverruns a (before ++ [r]) rest
    inferInstanceAs (Decidable (_ ∨ _))

/-- What there is to hand out after a pass over rows: one row a group, unless a value is out of
range. -/
def outcome (a : Aggregation) (rows : List Row) : Except ErrorKind (List Row) :=
  if a.Overruns [] rows then .error .numericOverflow else .ok (a.summary rows)

end Aggregation

namespace Grouping

variable {g : Grouping} {a : Aggregation} {input : Schema} {before rows : List Row}

/-- A pass over rows of the schema ends at the first value that is out of range, and refuses nothing
else. -/
theorem Holds.walk_mergeStep (holds : g.Holds a input before)
    (reads : ∀ r ∈ rows, a.Reads input r) :
    (a.Overruns before rows → (walk mergeStep rows g).1 = .error .numericOverflow)
      ∧ (¬ a.Overruns before rows → ∀ answer ∈ (g.feed rows).1, answer = .ok ()) := by
  induction rows generalizing g before with
  | nil => exact ⟨False.elim, fun _ ↦ List.forall_mem_nil _⟩
  | cons r rest ih =>
    have hreads := reads r List.mem_cons_self
    have hrefused := holds.merge_eq_error_iff hreads
    rw [walk, mergeStep, Grouping.feed, Aggregation.Overruns]
    cases hmerge : g.merge r with
    | error e =>
      obtain ⟨rfl, v, hv, -, hout⟩ := (hrefused e).mp hmerge
      exact ⟨fun _ ↦ rfl, fun hfits ↦ absurd (.inl ⟨v, hv, hout⟩) hfits⟩
    | ok g' =>
      -- The row was taken, so it is none of those that are refused.
      have htaken : ¬∃ v ∈ r.values[a.field]?,
          a.function.Refuses (a.column (a.key? r) before) v := by
        rintro ⟨v, hv, hout⟩
        obtain ⟨v', hv', htake, -⟩ := holds.serves.merge_eq hreads
        obtain rfl := Option.some.inj (hv.symm.trans hv')
        have herror := (hrefused .numericOverflow).mpr ⟨rfl, v, hv, htake, hout⟩
        rw [hmerge] at herror
        cases herror
      obtain ⟨hover, hfits⟩ := ih (holds.merge hreads hmerge) fun r' hr' ↦
        reads r' (List.mem_cons_of_mem _ hr')
      rw [or_iff_right htaken]
      refine ⟨hover, fun hroom ↦ ?_⟩
      rw [List.forall_mem_cons]
      exact ⟨rfl, hfits hroom⟩

end Grouping

/-! ## Inputs -/

namespace Operator

/-- Whether the operator consists of filters over listed rows or a scan. -/
def Plain {τ : Type} : Operator τ → Prop
  | values _ | scan _ => True
  | filter _ _ input => input.Plain
  | modify .. | aggregate .. => False

section

variable {τ : Type} {pages : τ → List (List Row)} {op op' : Operator τ}

theorem plain_bare (op : Operator τ) : op.bare.Plain ↔ op.Plain := by
  induction op with
  | values v => rfl
  | scan c => rfl
  | filter p look input ih => exact ih
  | modify b input ih => rfl
  | aggregate spec schema groups input ih => rfl

theorem Plain.of_bare_eq (plain : op.Plain) (hbare : op'.bare = op.bare) : op'.Plain := by
  rwa [← op'.plain_bare, hbare, op.plain_bare]

theorem Plain.resting_iff (plain : op.Plain) : op.Resting pages ↔ op.AllClosed := by
  induction op with
  | values v => rfl
  | scan c => rfl
  | filter p look input ih => exact and_congr_right fun _ ↦ ih plain
  | modify b input ih => exact plain.elim
  | aggregate spec schema groups input ih => exact plain.elim

end

/-- On a heap whose schemas it remembers, such an operator has the rows that the heap shows. -/
theorem Remembers.sound {op : Operator String} {h : Heap} (remembers : op.Remembers h)
    (reachable : h.Reachable) (few : h.tables.length ≤ 2 ^ 32) (plain : op.Plain)
    (typed : op.WellTyped) : op.Sound (· = h) h.shown := by
  induction op with
  | values v => exact remembers
  | scan c =>
    obtain ⟨t, ht, hschema⟩ := (remembers few).found
    refine ⟨h.displays ht, fun r hr ↦ ?_⟩
    rw [← hschema]
    exact reachable.sound.conforms_of_mem_shown ht hr
  | filter p look input ih => exact ⟨ih remembers plain typed.2, typed.1⟩
  | modify b input ih => exact plain.elim
  | aggregate spec schema groups input ih => exact plain.elim

theorem groupInput_eq_error {σ τ : Type} [Storage σ τ] {states : σ → Prop}
    {pages : τ → List (List Row)} {spec : Aggregation} (schema : Schema) {input : Operator τ}
    (sound : input.Sound states pages) {g : Grouping}
    (hg : Grouping.ofSchema input.schema spec = .ok g) {e : QueryError}
    (hwalk : (walk mergeStep (input.listing pages) g).1 = .error e)
    {start : σ → Reply (Operator τ) σ Unit} {s : σ} (hstart : input.Starts states pages (start s)) :
    ∃ input' s', groupInput spec schema input start s = ⟨.error e, input', s'⟩
      ∧ input'.AllClosed ∧ input'.bare = input.bare ∧ states s' := by
  generalize hopened : start s = opened at hstart
  obtain ⟨answer, opened, s₁⟩ := opened
  obtain ⟨rfl, hrunning, hremaining, hbare, hs₁⟩ := hstart
  have hpass := forRows_walks (sound.of_bare_eq hbare) hrunning mergeStep g hs₁
  have hbare' := opened.bare_forRows (mergeStep.visitor : Visitor σ Grouping) g s₁
  rw [hremaining] at hpass
  generalize hmerged : opened.forRows mergeStep.visitor g s₁ = merged at hpass hbare'
  obtain ⟨answer', drained, s₂⟩ := merged
  obtain ⟨hanswer, -, hs₂, -⟩ := hpass
  obtain rfl : answer' = .error e := hanswer.trans hwalk
  refine ⟨drained.close, s₂, ?_, drained.allClosed_close,
    (bare_close _).trans (hbare'.trans hbare), hs₂⟩
  rw [groupInput_eq, hg]
  dsimp only
  rw [hopened, groupOpened, mergeRow_eq, hmerged]

/-! ## Passes over a heap -/

/-- An input whose groups can be computed, unless a value is out of range. -/
structure Groupable (input : Operator String) (a : Aggregation) (schema : Schema) : Prop where
  plain : input.Plain
  typed : input.WellTyped
  schema_eq : a.schema input.schema = .ok schema
  grouping : ∃ g, Grouping.ofSchema input.schema a = .ok g

namespace Groupable

variable {input input' : Operator String} {a : Aggregation} {schema : Schema} {h : Heap}

theorem of_bare_eq (groupable : input.Groupable a schema) (hbare : input'.bare = input.bare) :
    input'.Groupable a schema where
  plain := groupable.plain.of_bare_eq hbare
  typed := groupable.typed.of_bare_eq hbare.symm
  schema_eq := schema_eq_of_bare_eq hbare ▸ groupable.schema_eq
  grouping := schema_eq_of_bare_eq hbare ▸ groupable.grouping

theorem computes (groupable : input.Groupable a schema) (sound : input.Sound (· = h) h.shown)
    (hroom : ¬ a.Overruns [] (input.listing h.shown)) :
    a.Computes input.schema schema (input.listing h.shown) := by
  obtain ⟨g, hg⟩ := groupable.grouping
  have reads : ∀ r ∈ input.listing h.shown, a.Reads input.schema r :=
    fun r hr ↦ .of_conforms (sound.conforms hr)
  have hfeed := ((Grouping.holds_of_ofSchema hg).walk_mergeStep reads).2 hroom
  refine ⟨g, hg, hfeed, fun r hr ↦ ?_⟩
  have hholds := (Grouping.holds_of_ofSchema hg).feed reads
  rw [Grouping.accepted_eq_self hfeed, List.nil_append] at hholds
  rw [← sound.results_of_feed hg hfeed] at hr
  exact hholds.conforms_of_mem_results groupable.schema_eq hr

/-- A pass over a closed input comes to the outcome over the rows that the heap shows, and leaves
the heap as it is and the input closed. -/
theorem groupsOf_eq (groupable : input.Groupable a schema) (reachable : h.Reachable)
    (remembers : input.Remembers h) (few : h.tables.length ≤ 2 ^ 32) (closed : input.AllClosed) :
    ∃ input', input'.bare = input.bare ∧ input'.AllClosed
      ∧ input.groupsOf a schema h
        = if a.Overruns [] (input.listing h.shown) then ⟨.error .numericOverflow, input', h⟩
          else ⟨.ok ⟨schema, a.summary (input.listing h.shown), [], .closed⟩, input', h⟩ := by
  have sound := remembers.sound reachable few groupable.plain groupable.typed
  have hstart := openOn_starts sound (groupable.plain.resting_iff.mpr closed) rfl
  split
  · next hover =>
    obtain ⟨g, hg⟩ := groupable.grouping
    have hwalk := ((Grouping.holds_of_ofSchema hg).walk_mergeStep fun r hr ↦
      .of_conforms (sound.conforms hr)).1 hover
    obtain ⟨input', h', hgroups, hclosed, hbare, rfl⟩ := groupInput_eq_error schema sound
      hg hwalk hstart
    exact ⟨input', hbare, hclosed, hgroups⟩
  · next hroom =>
    obtain ⟨input', h', hgroups, hresting, hbare, rfl⟩ :=
      groupInput_eq_ok sound (groupable.computes sound hroom) hstart
    exact ⟨input', hbare, (groupable.plain.of_bare_eq hbare).resting_iff.mp hresting, hgroups⟩

end Groupable

end Operator

/-! ## Snapshots -/

/-- Rows that were taken at some time, with a cursor over them, unless they have been given up. -/
abbrev Snapshot := Option (List Row × Cursor)

namespace Snapshot

/-- The answer of a snapshot to a request, and the snapshot after it. Rows are taken when the
snapshot is opened without any, as they are now; closing gives them up. -/
def serve (now : Except ErrorKind (List Row)) :
    Snapshot → Request → Except ErrorKind Response × Snapshot
  | _, .closing => (.ok .done, none)
  | none, .opening =>
    match now with
    | .ok rows => (.ok .done, some (rows, some 0))
    | .error e => (.error e, none)
  | none, _ => (.error .illegalState, none)
  | some (rows, c), q => ((c.serve rows q).1, some (rows, (c.serve rows q).2))

end Snapshot

/-- What happens to an operator over a heap: it serves a request, or others call the heap. -/
inductive Turn where
  | request (q : Request)
  | call (c : Heap.Call)

namespace Turn

def request? : Turn → Option Request
  | request q => some q
  | call _ => none

def call? : Turn → Option Heap.Call
  | request _ => none
  | call c => some c

end Turn

/-- The answers to the requests among turns in order, with the operator and the heap after them. -/
def Operator.play (op : Operator String) (h : Heap) :
    List Turn → List (Except QueryError Response) × Operator String × Heap
  | [] => ([], op, h)
  | .request q :: rest =>
    let reply := op.serve h q
    let last := reply.node.play reply.store rest
    (reply.answer :: last.1, last.2)
  | .call c :: rest => op.play (h.call c).2 rest

/-- The answers of a snapshot whose rows are taken from a changing heap. -/
def Snapshot.play (now : Heap → Except ErrorKind (List Row)) (s : Snapshot) (h : Heap) :
    List Turn → List (Except ErrorKind Response)
  | [] => []
  | .request q :: rest => (s.serve (now h) q).1 :: Snapshot.play now (s.serve (now h) q).2 h rest
  | .call c :: rest => Snapshot.play now s (h.call c).2 rest

namespace Snapshot

variable (now : Heap → Except ErrorKind (List Row))

/-- The snapshot after turns in order. -/
def after (s : Snapshot) (h : Heap) : List Turn → Snapshot
  | [] => s
  | .request q :: rest => (s.serve (now h) q).2.after h rest
  | .call c :: rest => s.after (h.call c).2 rest

section

variable {now : Except ErrorKind (List Row)} {q : Request}

theorem serve_closing (s : Snapshot) : s.serve now .closing = (.ok .done, none) := by
  rcases s with _ | ⟨rows, c⟩ <;> rfl

theorem serve_some (rows : List Row) (c : Cursor) (hq : q ≠ .closing) :
    serve now (some (rows, c)) q = ((c.serve rows q).1, some (rows, (c.serve rows q).2)) := by
  cases q with
  | closing => exact absurd rfl hq
  | opening | hasNext | next | rewinding => rfl

theorem serve_none (hopening : q ≠ .opening) (hclosing : q ≠ .closing) :
    serve now none q = (.error .illegalState, none) := by
  cases q with
  | opening => exact absurd rfl hopening
  | closing => exact absurd rfl hclosing
  | hasNext | next | rewinding => rfl

end

theorem play_append (s : Snapshot) (h : Heap) (turns turns' : List Turn) :
    Snapshot.play now s h (turns ++ turns')
      = Snapshot.play now s h turns
        ++ Snapshot.play now (after now s h turns) (h.run (turns.filterMap Turn.call?)).2
            turns' := by
  induction turns generalizing s h with
  | nil => rfl
  | cons t rest ih =>
    cases t with
    | request q => exact congrArg (_ :: ·) (ih _ h)
    | call c => exact ih s (h.call c).2

/-- Until it is closed, a snapshot is a cursor over its rows, and no change of the heap matters. -/
theorem play_some (rows : List Row) (c : Cursor) (h : Heap) {turns : List Turn}
    (unclosed : .request .closing ∉ turns) :
    Snapshot.play now (some (rows, c)) h turns
      = c.serveAll rows (turns.filterMap Turn.request?) := by
  induction turns generalizing c h with
  | nil => rfl
  | cons t rest ih =>
    obtain ⟨hfirst, hrest⟩ := not_or.mp (List.mem_cons.not.mp unclosed)
    cases t with
    | call c' => exact ih c (h.call c').2 hrest
    | request q =>
      have hq : q ≠ .closing := by
        rintro rfl
        exact hfirst rfl
      rw [Snapshot.play, serve_some rows c hq, ih _ h hrest]
      rfl

theorem after_none (h : Heap) {turns : List Turn} (unopened : .request .opening ∉ turns) :
    after now none h turns = none := by
  induction turns generalizing h with
  | nil => rfl
  | cons t rest ih =>
    obtain ⟨hfirst, hrest⟩ := not_or.mp (List.mem_cons.not.mp unopened)
    cases t with
    | call c => exact ih (h.call c).2 hrest
    | request q =>
      have hserve : (serve (now h) none q).2 = none := by
        by_cases hclosing : q = .closing
        · rw [hclosing, serve_closing]
        · rw [serve_none (by rintro rfl; exact hfirst rfl) hclosing]
      rw [after, hserve]
      exact ih h hrest

theorem play_reopened (s : Snapshot) (h : Heap) {before quiet later : List Turn}
    (unopened : .request .opening ∉ quiet) (unclosed : .request .closing ∉ later) {rows : List Row}
    (hrows : now (h.run ((before ++ quiet).filterMap Turn.call?)).2 = .ok rows) :
    ∃ earlier, Snapshot.play now s h
        (before ++ .request .closing :: quiet ++ .request .opening :: later)
      = earlier ++ .ok .done :: Cursor.serveAll rows (some 0) (later.filterMap Turn.request?) := by
  rw [List.filterMap_append, Heap.run_append] at hrows
  have hopened : serve (.ok rows) none .opening = (.ok .done, some (rows, some 0)) := rfl
  rw [List.append_assoc, play_append, List.cons_append, Snapshot.play, serve_closing, play_append,
    after_none now _ unopened, Snapshot.play, hrows, hopened, play_some now rows _ _ unclosed]
  exact ⟨Snapshot.play now s h before
    ++ .ok .done :: Snapshot.play now none (h.run (before.filterMap Turn.call?)).2 quiet, by simp⟩

end Snapshot

namespace Operator

/-! ## Aggregations and snapshots -/

/-- The groups are the rows of a snapshot, and stand where its cursor is. -/
def Pictures : Option Values → Snapshot → Prop
  | none, none => True
  | some v, some (rows, c) =>
    v.rows = rows ∧ (∀ r ∈ rows, r.Conforms v.schema)
      ∧ (values v : Operator String).Stands (fun _ ↦ []) c
  | _, _ => False

/-- The operator is an aggregation over the given input, which is closed, and has the groups of a
snapshot. -/
def Shows (op input : Operator String) (a : Aggregation) (schema : Schema) (s : Snapshot) : Prop :=
  ∃ groups input', op = aggregate a schema groups input' ∧ input'.bare = input.bare
    ∧ input'.AllClosed ∧ Pictures groups s

/-- An aggregation with groups serves every request but to close as the list of the groups does. -/
theorem serve_groups {σ τ : Type} [Storage σ τ] (a : Aggregation) (schema : Schema) (v : Values)
    (input : Operator τ) (s : σ) {q : Request} (hq : q ≠ .closing) :
    ∃ v', ((values v : Operator τ).serve s q).node = values v'
      ∧ (aggregate a schema (some v) input).serve s q
        = ⟨((values v : Operator τ).serve s q).answer, aggregate a schema (some v') input,
            ((values v : Operator τ).serve s q).store⟩ := by
  cases q with
  | opening => exact ⟨v.opened, rfl, rfl⟩
  | hasNext =>
    simp only [serve, hasNext, pull, forRows]
    rcases v.forRows takeFirst none s with ⟨e | ⟨_ | r⟩ | ⟨_ | r⟩, v', s'⟩ <;>
      exact ⟨_, rfl, rfl⟩
  | next =>
    simp only [serve, next, pull, forRows]
    rcases v.forRows takeFirst none s with ⟨e | ⟨_ | r⟩ | ⟨_ | r⟩, v', s'⟩ <;>
      exact ⟨_, rfl, rfl⟩
  | rewinding =>
    simp only [serve, rewindOn]
    rcases v.rewound with e | v' <;> exact ⟨_, rfl, rfl⟩
  | closing => exact absurd rfl hq

variable {op input : Operator String} {a : Aggregation} {schema : Schema} {s : Snapshot}
  {h : Heap}

theorem Shows.openOn (groupable : input.Groupable a schema) (reachable : h.Reachable)
    (remembers : input.Remembers h) (few : h.tables.length ≤ 2 ^ 32)
    (shows : op.Shows input a schema none) :
    (op.serve h .opening).answer.mapError QueryError.kind
        = (Snapshot.serve (a.outcome (input.listing h.shown)) none .opening).1
      ∧ (op.serve h .opening).node.Shows input a schema
        (Snapshot.serve (a.outcome (input.listing h.shown)) none .opening).2
      ∧ (op.serve h .opening).store = h := by
  obtain ⟨_ | v, input', rfl, hbare, hclosed, hpictures⟩ := shows
  · obtain ⟨input'', hbare', hclosed', hgroups⟩ := (groupable.of_bare_eq hbare).groupsOf_eq
      reachable (remembers.of_bare_eq hbare) few hclosed
    have hbare'' := hbare'.trans hbare
    rw [listing_eq_of_bare_eq hbare, groupsOf] at hgroups
    rw [Aggregation.outcome, Operator.serve, Operator.openOn]
    by_cases hover : a.Overruns [] (input.listing h.shown)
    · rw [if_pos hover] at hgroups ⊢
      rw [hgroups]
      exact ⟨rfl, ⟨none, input'', rfl, hbare'', hclosed', trivial⟩, rfl⟩
    · have sound := remembers.sound reachable few groupable.plain groupable.typed
      obtain ⟨-, -, -, hconforms⟩ := groupable.computes sound hover
      rw [if_neg hover] at hgroups ⊢
      rw [hgroups]
      exact ⟨rfl, ⟨_, input'', rfl, hbare'', hclosed', rfl, hconforms,
        Lookahead.ready_ne_closed none, rfl⟩, rfl⟩
  · exact hpictures.elim

/-- An aggregation answers a request as the snapshot does, and both change alike. -/
theorem Shows.serve (groupable : input.Groupable a schema) (reachable : h.Reachable)
    (remembers : input.Remembers h) (few : h.tables.length ≤ 2 ^ 32)
    (shows : op.Shows input a schema s) (q : Request) :
    (op.serve h q).answer.mapError QueryError.kind
        = (s.serve (a.outcome (input.listing h.shown)) q).1
      ∧ (op.serve h q).node.Shows input a schema
        (s.serve (a.outcome (input.listing h.shown)) q).2
      ∧ (op.serve h q).store = h := by
  obtain ⟨groups, input', rfl, hbare, hclosed, hpictures⟩ := id shows
  by_cases hclosing : q = .closing
  · subst hclosing
    rw [s.serve_closing]
    exact ⟨rfl, ⟨none, input'.close, rfl, (bare_close _).trans hbare, input'.allClosed_close,
      trivial⟩, rfl⟩
  rcases groups with _ | v <;> rcases s with _ | ⟨rows, c⟩
  · by_cases hopening : q = .opening
    · subst hopening
      exact shows.openOn groupable reachable remembers few
    · rw [serve_of_closed rfl h hopening hclosing, Snapshot.serve_none hopening hclosing]
      exact ⟨rfl, shows, rfl⟩
  · exact hpictures.elim
  · exact hpictures.elim
  · -- The list of the groups is a cursor by itself, whatever the tables show.
    obtain ⟨rfl, hconforms, hstands⟩ := hpictures
    have sound : (values v : Operator String).Sound (· = h) fun _ ↦ [] := hconforms
    have hmatch := serve_matches sound hstands rfl q
    obtain ⟨v', hnode, hserve⟩ := serve_groups a schema v input' h hclosing
    obtain ⟨hanswer, hstands', hbare', hstore⟩ := hmatch
    rw [hnode] at hstands' hbare'
    obtain ⟨hschema, hrows, -, -⟩ := Values.mk.inj (Operator.values.inj hbare')
    rw [hserve, Snapshot.serve_some v.rows c hclosing]
    exact ⟨hanswer, ⟨some v', input', rfl, hbare, hclosed, hrows, hschema ▸ hconforms, hstands'⟩,
      hstore⟩

/-- An aggregation answers a run of requests as the snapshot does, and never changes the heap. -/
theorem Shows.play (groupable : input.Groupable a schema) (reachable : h.Reachable)
    (remembers : input.Remembers h) (shows : op.Shows input a schema s) {turns : List Turn}
    (few : (h.run (turns.filterMap Turn.call?)).2.tables.length ≤ 2 ^ 32) :
    (op.play h turns).1.map (·.mapError QueryError.kind)
        = Snapshot.play (fun h ↦ a.outcome (input.listing h.shown)) s h turns
      ∧ (op.play h turns).2.2 = (h.run (turns.filterMap Turn.call?)).2 := by
  induction turns generalizing op s h with
  | nil => exact ⟨rfl, rfl⟩
  | cons t rest ih =>
    cases t with
    | call c => exact ih (reachable.call c) (remembers.call c) shows few
    | request q =>
      obtain ⟨hanswer, hshows, hstore⟩ := shows.serve groupable reachable remembers
        (Nat.le_trans (h.length_tables_le_run _) few) q
      obtain ⟨hanswers, hlast⟩ := ih reachable remembers hshows few
      rw [Operator.play, hstore, Snapshot.play]
      exact ⟨congrArg₂ List.cons hanswer hanswers, hlast⟩

theorem shows_of_buildAggregate (plain : input.Plain) (typed : input.WellTyped)
    (closed : input.AllClosed) (reachable : h.Reachable) (remembers : input.Remembers h)
    (few : h.tables.length ≤ 2 ^ 32) {h' : Heap}
    (built : input.buildAggregate a h = (.ok op, h')) :
    h' = h ∧ ∃ schema, input.Groupable a schema
      ∧ op.Shows input a schema (some (a.summary (input.listing h.shown), none)) := by
  have sound := remembers.sound reachable few plain typed
  obtain ⟨schema, groups, input', hschema, hgroups, rfl, -⟩ := aggregate_of_buildAggregate built
  have computes := computes_of_groupInput sound
    (openOn_starts sound (plain.resting_iff.mpr closed) rfl) hgroups
  obtain ⟨g, hg, -, hconforms⟩ := id computes
  have groupable : input.Groupable a schema := ⟨plain, typed, hschema, g, hg⟩
  obtain ⟨input'', hbare, hclosed, heq⟩ := groupable.groupsOf_eq reachable remembers few closed
  -- The pass was not refused, or there would be no groups.
  rw [hgroups] at heq
  split at heq
  · cases heq
  · cases heq
    exact ⟨rfl, schema, groupable, _, input', rfl, hbare, hclosed, rfl, hconforms, rfl⟩

/-- **An aggregation hands out snapshots.** Let an aggregation be built over a closed operator of
filters over listed rows or a scan, whatever that has lived through. Building it changes nothing in
the heap. Then let it serve requests while others call the heap, with no more tables in the end than
there are numbers for them.

* It answers as a snapshot does whose rows are the summary of the rows of the input: first of those
  that the heap showed when the aggregation was built, and after a closing of those that the heap
  shows when it is next opened. If a value is out of range then, the opening fails and the
  aggregation stays closed.
* As long as it is not closed, it is a cursor over the groups it was built with.
* From the first opening after a closing on, and until the next closing, it is a cursor over the
  groups of that moment. -/
theorem aggregate_hands_out_snapshots (lives : input.Lives h) (plain : input.Plain)
    (closed : input.AllClosed) (typed : input.WellTyped) {h' : Heap}
    (built : input.buildAggregate a h = (.ok op, h')) (turns : List Turn)
    (few : (h.run (turns.filterMap Turn.call?)).2.tables.length ≤ 2 ^ 32)
    {answers : List (Except ErrorKind Response)}
    (hanswers : answers = (op.play h turns).1.map (·.mapError QueryError.kind)) :
    h' = h
      ∧ answers = Snapshot.play (fun h ↦ a.outcome (input.listing h.shown))
        (some (a.summary (input.listing h.shown), none)) h turns
      ∧ (.request .closing ∉ turns →
        answers = Cursor.serveAll (a.summary (input.listing h.shown)) none
          (turns.filterMap Turn.request?))
      ∧ ∀ before quiet later,
        turns = before ++ .request .closing :: quiet ++ .request .opening :: later →
        .request .opening ∉ quiet → .request .closing ∉ later →
        ∀ rows, rows = input.listing (h.run ((before ++ quiet).filterMap Turn.call?)).2.shown →
        ¬ a.Overruns [] rows → ∃ earlier, answers = earlier
          ++ .ok .done :: Cursor.serveAll (a.summary rows) (some 0)
            (later.filterMap Turn.request?) := by
  obtain ⟨reachable, -, remembers⟩ := lives.current
  obtain ⟨hstore, schema, groupable, shows⟩ := shows_of_buildAggregate plain typed closed reachable
    remembers (Nat.le_trans (h.length_tables_le_run _) few) built
  obtain ⟨hplay, -⟩ := shows.play groupable reachable remembers few
  rw [hanswers, hplay]
  refine ⟨hstore, rfl, fun unclosed ↦ Snapshot.play_some _ _ _ h unclosed, ?_⟩
  rintro before quiet later rfl unopened unclosed rows rfl hroom
  exact Snapshot.play_reopened _ _ h unopened unclosed (if_neg hroom)

def largeNumbers : Operator String :=
  .filter ⟨0, .gt, .integer 6⟩ .closed (.scan (.ofTable "t" ⟨[⟨"n", .integer⟩]⟩))

/-- What happens to a sum: it is rewound and opened again after a number was inserted, which it does
not see, then closed, and opened when another number was deleted. -/
def reopening : List Turn :=
  [.request .opening, .request .next, .call (.insert "t" (.ofValues [.integer 100])),
    .request .rewinding, .request .opening, .request .next, .request .closing, .request .next,
    .call (.delete ⟨[], some ⟨1, 0, 0⟩⟩), .request .opening, .request .next]

theorem aggregate_hands_out_snapshots_sum :
    ∃ op, largeNumbers.Lives Plan.heapAroundSix ∧ largeNumbers.Plain ∧ largeNumbers.AllClosed
      ∧ largeNumbers.WellTyped
      ∧ largeNumbers.buildAggregate ⟨.sum, 0, none⟩ Plan.heapAroundSix
        = (.ok op, Plan.heapAroundSix)
      ∧ (op.play Plan.heapAroundSix reopening).1.map (·.mapError QueryError.kind)
        = [.ok .done, .ok (.row (.ofValues [.integer 16])), .ok .done, .ok .done,
          .ok (.row (.ofValues [.integer 16])), .ok .done, .error .illegalState, .ok .done,
          .ok (.row (.ofValues [.integer 109]))] := by
  have lives : largeNumbers.Lives Plan.heapAroundSix :=
    .build (.filter ⟨0, .gt, .integer 6⟩ (.scan "t")) (h := Plan.heapAroundSix)
      ⟨2, _, rfl⟩ (by simp [Plan.parts]) rfl
  have built : largeNumbers.buildAggregate ⟨.sum, 0, none⟩ Plan.heapAroundSix
      = (.ok _, Plan.heapAroundSix) := rfl
  obtain ⟨-, hanswers, -, -⟩ := aggregate_hands_out_snapshots lives trivial ⟨rfl, rfl⟩
    ⟨rfl, trivial⟩ built reopening (by decide) rfl
  refine ⟨_, lives, trivial, ⟨rfl, rfl⟩, ⟨rfl, trivial⟩, built, ?_⟩
  rw [hanswers]
  decide

end Operator

end QueryEngine
