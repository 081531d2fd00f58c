import QueryEngine.Operator.Plan
import QueryEngine.Proofs.Operator.Listing
import QueryEngine.Proofs.Storage.Reachable

/-!
# Operators as cursors

An operator that only reads answers every sequence of requests as a cursor over one list of rows
does: a position in the list, or no position while it is closed. `Operator.Stands` relates the two,
`serve_matches` is the step and `serveAll_eq` the run. What the list is, is read off the plan
that the operator was built from (`Plan.rows`).
-/

namespace QueryEngine

variable {σ τ α : Type}

/-! ## Requests -/

/-- What an operator can be asked for. -/
inductive Request where
  | opening
  | hasNext
  | next
  | rewinding
  | closing
deriving DecidableEq

/-- What an operator answers. -/
inductive Response where
  | done
  | more (answer : Bool)
  | row (r : Row)
deriving DecidableEq

namespace Operator

variable [Storage σ τ]

/-- Serves a request. -/
def serve (op : Operator τ) (s : σ) : Request → Reply (Operator τ) σ Response
  | .opening => (op.openOn s).map fun _ ↦ .done
  | .hasNext => (op.hasNext s).map .more
  | .next => (op.next s).map .row
  | .rewinding => (op.rewindOn s).map fun _ ↦ .done
  | .closing => ⟨.ok .done, op.close, s⟩

/-- Serves requests in order and goes on after a refused one. -/
def serveAll (op : Operator τ) (s : σ) :
    List Request → List (Except QueryError Response) × Operator τ × σ
  | [] => ([], op, s)
  | q :: rest =>
    let reply := op.serve s q
    let last := reply.node.serveAll reply.store rest
    (reply.answer :: last.1, last.2)

end Operator

/-! ## Cursors -/

/-- A place in a list of rows, unless the cursor is closed. -/
abbrev Cursor := Option Nat

namespace Cursor

/-- The answer of a cursor over rows, and the cursor after it. -/
def serve (rows : List Row) : Cursor → Request → Except ErrorKind Response × Cursor
  | none, .opening => (.ok .done, some 0)
  | none, .closing => (.ok .done, none)
  | none, _ => (.error .illegalState, none)
  | some k, .opening => (.ok .done, some k)
  | some k, .hasNext => (.ok (.more (k < rows.length)), some k)
  | some k, .next =>
    match rows[k]? with
    | some r => (.ok (.row r), some (k + 1))
    | none => (.error .illegalState, some k)
  | some _, .rewinding => (.ok .done, some 0)
  | some _, .closing => (.ok .done, none)

/-- The answers of a cursor to requests in order. -/
def serveAll (rows : List Row) (c : Cursor) : List Request → List (Except ErrorKind Response)
  | [] => []
  | q :: rest => (serve rows c q).1 :: serveAll rows (serve rows c q).2 rest

end Cursor

/-! ## One request -/

namespace Operator

variable [Storage σ τ] {states : σ → Prop} {pages : τ → List (List Row)}

def Stands (pages : τ → List (List Row)) (op : Operator τ) : Cursor → Prop
  | none => op.Resting pages
  | some k => op.Running pages ∧ op.remaining pages = (op.listing pages).drop k

omit [Storage σ τ] in
theorem Resting.look_eq {op : Operator τ} (resting : op.Resting pages) : op.look = .closed := by
  cases op with
  | values v => exact resting
  | scan c => exact resting
  | filter p look input => exact resting.1
  | modify b input => exact resting.1
  | aggregate spec schema groups input =>
    cases groups with
    | none => rfl
    | some v => exact (resting.1 v rfl).1

omit [Storage σ τ] in
theorem remaining_buffer {op : Operator τ} (running : op.Running pages)
    (h : op.look = .ready none) (r : Row) :
    (op.buffer r).Running pages ∧ (op.buffer r).remaining pages = r :: op.remaining pages := by
  have hready := Lookahead.ready_ne_closed (some r)
  cases op with
  | values v =>
    have hlook : v.look = .ready none := h
    refine ⟨hready, ?_⟩
    rw [buffer, remaining, remaining, hlook]
    rfl
  | scan c =>
    have hlook : c.look = .ready none := h
    refine ⟨⟨hready, running.2⟩, ?_⟩
    rw [buffer, remaining, remaining, hlook]
    rfl
  | filter p look input =>
    obtain rfl : look = .ready none := h
    exact ⟨⟨hready, running.2⟩, rfl⟩
  | modify b input => exact running.elim
  | aggregate spec schema groups input =>
    obtain ⟨v, rfl, -, hsummary⟩ := running
    have hlook : v.look = .ready none := h
    refine ⟨⟨_, rfl, hready, hsummary⟩, ?_⟩
    rw [buffer, Option.map_some, remaining, remaining, hlook]
    rfl

/-- Taking a row succeeds and takes the first one remaining. -/
def Takes (op : Operator τ) (states : σ → Prop) (pages : τ → List (List Row)) (s : σ) : Prop :=
  ∃ op' s', op.pull s = ⟨.ok (op.remaining pages).head?, op', s'⟩
    ∧ op'.Running pages ∧ op'.remaining pages = (op.remaining pages).tail
    ∧ op'.bare = op.bare ∧ states s'
    ∧ (op.remaining pages ≠ [] → op'.look = .ready none)

theorem takes_of_walks {op : Operator τ} {s : σ}
    (hwalk : (op.forRows firstStep.visitor none s).Walks states (Running pages) (remaining pages)
      (walk firstStep (op.remaining pages) none)) : op.Takes states pages s := by
  have hbare := op.bare_forRows (firstStep.visitor : Visitor σ (Option Row)) none s
  have hlook := @look_forRows_of_done σ τ _ _ op firstStep.visitor none (op.remaining pages).head? s
  rw [Takes, pull, takeFirst_eq]
  generalize op.forRows firstStep.visitor none s = reply at hwalk hbare hlook
  obtain ⟨answer, op', s'⟩ := reply
  obtain ⟨rfl, hrest, hs', hrunning⟩ := hwalk
  refine ⟨op', s', ?_, hrunning, ?_, hbare, hs', ?_⟩
  · cases op.remaining pages <;> rfl
  · rw [hrest]
    cases op.remaining pages <;> rfl
  · intro hne
    refine hlook ?_
    obtain ⟨r, rest, hcons⟩ := List.exists_cons_of_ne_nil hne
    rw [hcons]
    rfl

theorem takes_of_running {op : Operator τ} (sound : op.Sound states pages)
    (running : op.Running pages) {s : σ} (hs : states s) : op.Takes states pages s :=
  takes_of_walks (forRows_walks sound running firstStep none hs)

/-- A request to a closed operator, except for opening and closing, is refused. -/
theorem serve_of_closed {op : Operator τ} (h : op.look = .closed) (s : σ) {q : Request}
    (hopening : q ≠ .opening) (hclosing : q ≠ .closing) :
    op.serve s q = ⟨.error (.notOpen op.closedLabel), op, s⟩ := by
  cases q with
  | opening => exact absurd rfl hopening
  | hasNext =>
    rw [serve, hasNext, pull, forRows_of_closed h]
    rfl
  | next =>
    rw [serve, next, pull, forRows_of_closed h]
    rfl
  | rewinding =>
    rw [serve, rewindOn_of_closed h]
    rfl
  | closing => exact absurd rfl hclosing

/-- What a reply has to be when the cursor answers and moves as given. -/
structure Matches (op : Operator τ) (states : σ → Prop) (pages : τ → List (List Row))
    (reply : Reply (Operator τ) σ Response) (answered : Except ErrorKind Response × Cursor) :
    Prop where
  answer_eq : reply.answer.mapError QueryError.kind = answered.1
  stands : reply.node.Stands pages answered.2
  bare_eq : reply.node.bare = op.bare
  store : states reply.store

omit [Storage σ τ] in
theorem Starts.matches {op : Operator τ} {reply : Reply (Operator τ) σ Unit}
    (h : op.Starts states pages reply) :
    op.Matches states pages (reply.map fun _ ↦ .done) (.ok .done, some 0) where
  answer_eq := by
    rw [Reply.map, h.answer_eq]
    rfl
  stands := ⟨h.running, h.remaining_eq.trans (listing_eq_of_bare_eq h.bare_eq).symm⟩
  bare_eq := h.bare_eq
  store := h.store

theorem Takes.serve_hasNext_matches {op : Operator τ} {s : σ} (takes : op.Takes states pages s)
    {k : Nat} (stands : op.Stands pages (some k)) :
    op.Matches states pages (op.serve s .hasNext)
      (.ok (.more (k < (op.listing pages).length)), some k) := by
  obtain ⟨-, hremaining⟩ := stands
  obtain ⟨op', s', hpull, hrunning, htail, hbare, hs', hlook⟩ := takes
  have hlisting : op'.listing pages = op.listing pages := listing_eq_of_bare_eq hbare
  rw [hremaining] at hpull htail hlook
  rw [serve, hasNext, hpull]
  by_cases hlt : k < (op.listing pages).length
  · rw [List.drop_eq_getElem_cons hlt] at hlook htail ⊢
    -- The row that was taken goes back into the buffer, so the cursor stays where it is.
    obtain ⟨hrunning', hbuffer⟩ :=
      remaining_buffer hrunning (hlook (List.cons_ne_nil _ _)) (op.listing pages)[k]
    refine ⟨?_, ⟨hrunning', ?_⟩, (bare_buffer _ _).trans hbare, hs'⟩
    · simp [Reply.map, Except.map, Except.mapError, hlt]
    · have hlisting' : (op'.buffer (op.listing pages)[k]).listing pages = op.listing pages :=
        (listing_eq_of_bare_eq (bare_buffer _ op')).trans hlisting
      change (op'.buffer (op.listing pages)[k]).remaining pages
        = ((op'.buffer (op.listing pages)[k]).listing pages).drop k
      rw [hlisting', hbuffer, htail, List.tail_cons, ← List.drop_eq_getElem_cons hlt]
  · rw [List.drop_of_length_le (Nat.le_of_not_lt hlt)] at htail ⊢
    refine ⟨?_, ⟨hrunning, ?_⟩, hbare, hs'⟩
    · simp [Reply.map, Except.map, Except.mapError, hlt]
    · change op'.remaining pages = (op'.listing pages).drop k
      rw [htail, hlisting, List.drop_of_length_le (Nat.le_of_not_lt hlt), List.tail_nil]

theorem Takes.serve_next_matches {op : Operator τ} {s : σ} (takes : op.Takes states pages s)
    {k : Nat} (stands : op.Stands pages (some k)) :
    op.Matches states pages (op.serve s .next)
      (Cursor.serve (op.listing pages) (some k) .next) := by
  obtain ⟨-, hremaining⟩ := stands
  obtain ⟨op', s', hpull, hrunning, htail, hbare, hs', -⟩ := takes
  have hlisting : op'.listing pages = op.listing pages := listing_eq_of_bare_eq hbare
  rw [hremaining] at hpull htail
  rw [List.tail_drop] at htail
  rw [List.head?_drop] at hpull
  rw [serve, next, hpull, Cursor.serve]
  cases hk : (op.listing pages)[k]? with
  | some r =>
    rw [← hlisting] at htail
    exact ⟨rfl, ⟨hrunning, htail⟩, hbare, hs'⟩
  | none =>
    have hle := List.getElem?_eq_none_iff.mp hk
    rw [List.drop_of_length_le (Nat.le_succ_of_le hle), ← List.drop_of_length_le hle,
      ← hlisting] at htail
    exact ⟨rfl, ⟨hrunning, htail⟩, hbare, hs'⟩

/-- An operator answers a request as the cursor does, and both move alike. -/
theorem serve_matches {op : Operator τ} (sound : op.Sound states pages) {c : Cursor}
    (stands : op.Stands pages c) {s : σ} (hs : states s) (q : Request) :
    op.Matches states pages (op.serve s q) (c.serve (op.listing pages) q) := by
  cases c with
  | none =>
    have resting : op.Resting pages := stands
    cases q with
    | opening => exact (openOn_starts sound resting hs).matches
    | closing => exact ⟨rfl, resting_close op, bare_close op, hs⟩
    | hasNext =>
      rw [serve_of_closed resting.look_eq s (q := .hasNext) nofun nofun]
      exact ⟨rfl, resting, rfl, hs⟩
    | next =>
      rw [serve_of_closed resting.look_eq s (q := .next) nofun nofun]
      exact ⟨rfl, resting, rfl, hs⟩
    | rewinding =>
      rw [serve_of_closed resting.look_eq s (q := .rewinding) nofun nofun]
      exact ⟨rfl, resting, rfl, hs⟩
  | some k =>
    cases q with
    | opening =>
      rw [serve, openOn_of_open stands.1.look_ne_closed]
      exact ⟨rfl, stands, rfl, hs⟩
    | closing => exact ⟨rfl, resting_close op, bare_close op, hs⟩
    | hasNext => exact (takes_of_running sound stands.1 hs).serve_hasNext_matches stands
    | next => exact (takes_of_running sound stands.1 hs).serve_next_matches stands
    | rewinding => exact (rewindOn_starts sound stands.1 hs).matches

theorem serveAll_eq {op : Operator τ} (sound : op.Sound states pages) {c : Cursor}
    (stands : op.Stands pages c) {s : σ} (hs : states s) (requests : List Request) :
    (op.serveAll s requests).1.map (·.mapError QueryError.kind)
        = c.serveAll (op.listing pages) requests
      ∧ states (op.serveAll s requests).2.2 := by
  induction requests generalizing op c s with
  | nil => exact ⟨rfl, hs⟩
  | cons q rest ih =>
    have hstep := serve_matches sound stands hs q
    obtain ⟨hanswers, hstore⟩ := ih (sound.of_bare_eq hstep.bare_eq) hstep.stands hstep.store
    rw [listing_eq_of_bare_eq hstep.bare_eq] at hanswers
    rw [serveAll, Cursor.serveAll, List.map_cons, hanswers, hstep.answer_eq]
    exact ⟨rfl, hstore⟩

end Operator

end QueryEngine
