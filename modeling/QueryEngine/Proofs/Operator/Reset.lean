import QueryEngine.Proofs.Operator.History
import QueryEngine.Proofs.Operator.Retry

/-!
# Starting over

Closing an operator and opening it again gives what building the same tree anew gives, whatever
happened to the operator before: the same rows and the same writes. Rewinding does too if it
succeeds and there is no aggregation in the tree. An aggregation keeps its groups when it is
rewound, and they may be older than what the storage holds by then.

Closing leaves of an operator what it was built from (`settled_close`), and so does a history of
requests (`bare_after`). What is new here is rewinding: it sets anew exactly what opening sets
(`rewindOn_alike`), and it fails if it meets a node that is closed.
-/

namespace QueryEngine

namespace Operator

variable {σ τ : Type} [Storage σ τ]

/-! ## Requests to operators with the same settled form -/

omit [Storage σ τ] in
theorem rowLabel_settled (op : Operator τ) : op.settled.rowLabel = op.rowLabel := by
  have hbare : ∀ op : Operator τ, op.bare.rowLabel = op.rowLabel := fun op ↦ by cases op <;> rfl
  rw [← hbare op.settled, bare_settled, hbare]

omit [Storage σ τ] in
theorem settled_buffer {op : Operator τ} (h : op.look ≠ .closed) (r : Row) :
    (op.buffer r).settled = op.settled.buffer r := by
  have hready := Lookahead.ready_ne_closed (some r)
  cases op with
  | values v =>
    rw [settled, Values.settled_of_open h]
    exact congrArg values (Values.settled_of_open hready)
  | scan c =>
    rw [settled, Scan.settled_of_open h]
    exact congrArg scan (Scan.settled_of_open hready)
  | filter p look input => rfl
  | modify b input =>
    rw [settled, Batch.settled_of_open h]
    exact congrArg (modify · input.settled) (Batch.settled_of_open hready)
  | aggregate spec schema groups input =>
    cases groups with
    | none => rfl
    | some v =>
      rw [settled, Option.map_some, Values.settled_of_open h]
      exact congrArg (aggregate spec schema · input.settled)
        (congrArg some (Values.settled_of_open hready))

theorem pull_settled (op : Operator τ) (s : σ) :
    op.settled.pull s = (op.pull s).mapNode settled := by
  rw [pull, forRows_settled]
  rfl

theorem hasNext_settled (op : Operator τ) (s : σ) :
    op.settled.hasNext s = (op.hasNext s).mapNode settled := by
  rw [hasNext, hasNext, pull_settled]
  by_cases hclosed : op.look = .closed
  · rw [pull, forRows_of_closed hclosed]
    rfl
  · have hopen : (op.pull s).node.look ≠ .closed :=
      look_forRows_ne_closed hclosed takeFirst none s
    generalize op.pull s = pulled at hopen ⊢
    rcases pulled with ⟨e | (_ | r), op', s'⟩
    · rfl
    · rfl
    · exact congrArg (Reply.mk (.ok true) · s') (settled_buffer hopen r).symm

theorem next_settled (op : Operator τ) (s : σ) :
    op.settled.next s = (op.next s).mapNode settled := by
  rw [next, next, pull_settled, rowLabel_settled]
  rcases op.pull s with ⟨e | (_ | r), op', s'⟩ <;> rfl

/-- Rewinding refuses closed nodes, so what they hold makes no difference to it. -/
theorem rewindOn_settled (op : Operator τ) (s : σ) :
    op.settled.rewindOn s = (op.rewindOn s).mapNode settled := by
  have hclosed : ∀ op : Operator τ, op.look = .closed →
      op.settled.rewindOn s = (op.rewindOn s).mapNode settled := by
    intro op h
    rw [rewindOn_of_closed ((look_settled op).trans h), rewindOn_of_closed h, closedLabel_settled]
    rfl
  induction op with
  | values v =>
    by_cases h : v.look = .closed
    · exact hclosed (values v) h
    · rw [settled, Values.settled_of_open h, rewindOn, Values.rewound,
        Lookahead.rewound_of_open _ h]
      rfl
  | scan c =>
    by_cases h : c.look = .closed
    · exact hclosed (scan c) h
    · rw [settled, Scan.settled_of_open h, rewindOn, Lookahead.rewound_of_open _ h]
      dsimp only [Scan.reset]
      rcases (Storage.pageCount c.table s : Except StorageError Nat × σ) with ⟨e | n, s'⟩ <;> rfl
  | filter p look input ih =>
    by_cases h : look = .closed
    · exact hclosed (filter p look input) h
    · rw [settled, rewindOn, rewindOn, Lookahead.rewound_of_open _ h]
      dsimp only
      rw [ih]
      rfl
  | modify b input ih =>
    by_cases h : b.look = .closed
    · exact hclosed (modify b input) h
    · rw [settled, Batch.settled_of_open h, rewindOn, rewindOn, Lookahead.rewound_of_open _ h]
      dsimp only
      rw [ih]
      rfl
  | aggregate spec schema groups input ih =>
    cases groups with
    | none => rfl
    | some v =>
      by_cases h : v.look = .closed
      · exact hclosed (aggregate spec schema (some v) input) h
      · rw [settled, Option.map_some, Values.settled_of_open h, rewindOn, rewindOn,
          Values.rewound, Lookahead.rewound_of_open _ h]
        rfl

/-- Except for opening, which may fail halfway, requests do not look at what closed nodes hold. -/
theorem serve_eq_of_settled_eq {op op' : Operator τ} (h : op.settled = op'.settled) (s : σ)
    {q : Request} (hopening : q ≠ .opening) :
    (op.serve s q).mapNode settled = (op'.serve s q).mapNode settled := by
  cases q with
  | opening => exact absurd rfl hopening
  | hasNext =>
    have hanswer : (op.hasNext s).mapNode settled = (op'.hasNext s).mapNode settled := by
      rw [← hasNext_settled, h, hasNext_settled]
    exact congrArg (Reply.map Response.more) hanswer
  | next =>
    have hanswer : (op.next s).mapNode settled = (op'.next s).mapNode settled := by
      rw [← next_settled, h, next_settled]
    exact congrArg (Reply.map Response.row) hanswer
  | rewinding =>
    have hanswer : (op.rewindOn s).mapNode settled = (op'.rewindOn s).mapNode settled := by
      rw [← rewindOn_settled, h, rewindOn_settled]
    exact congrArg (Reply.map fun _ ↦ Response.done) hanswer
  | closing =>
    have hclose : op.close.settled = op'.close.settled := by
      rw [settled_close, settled_close, bare_eq_of_settled_eq h]
    exact congrArg (Reply.mk _ · s) hclose

/-! ## Drains -/

/-- Whether two operators are drained alike on a storage: the same rows and the same storage
afterwards, whether all rows are taken at once or by single requests, of which only opening is left
out. -/
structure DrainsLike (op op' : Operator τ) (s : σ) : Prop where
  collect_answer : (op.collect s).answer = (op'.collect s).answer
  collect_store : (op.collect s).store = (op'.collect s).store
  answers : ∀ requests, .opening ∉ requests →
    (op.serveAll s requests).1 = (op'.serveAll s requests).1
  stores : ∀ requests, .opening ∉ requests →
    (op.serveAll s requests).2.2 = (op'.serveAll s requests).2.2

theorem serveAll_eq_of_settled_eq {op op' : Operator τ} (h : op.settled = op'.settled) (s : σ)
    {requests : List Request} (hopening : .opening ∉ requests) :
    (op.serveAll s requests).1 = (op'.serveAll s requests).1
      ∧ (op.serveAll s requests).2.2 = (op'.serveAll s requests).2.2 := by
  induction requests generalizing op op' s with
  | nil => exact ⟨rfl, rfl⟩
  | cons q rest ih =>
    obtain ⟨hq, hrest⟩ := not_or.mp (mt List.mem_cons.mpr hopening)
    have hserve := serve_eq_of_settled_eq h s (Ne.symm hq)
    rw [serveAll, serveAll]
    generalize op.serve s q = reply, op'.serve s q = reply' at hserve ⊢
    obtain ⟨answer, node, s₁⟩ := reply
    obtain ⟨answer', node', s₁'⟩ := reply'
    obtain ⟨rfl, hsettled, rfl⟩ := Reply.mk.inj hserve
    obtain ⟨hanswers, hstores⟩ := ih hsettled s₁ hrest
    exact ⟨congrArg (answer :: ·) hanswers, hstores⟩

theorem drainsLike_of_settled_eq {op op' : Operator τ} (h : op.settled = op'.settled) (s : σ) :
    op.DrainsLike op' s := by
  have hrows : (op.forRows gather [] s).mapNode settled
      = (op'.forRows gather [] s).mapNode settled := forRows_eq_of_settled_eq h gather [] s
  obtain ⟨hanswer, -, hstore⟩ := Reply.mk.inj hrows
  exact {
    collect_answer := congrArg (Except.map fun rows : ForInStep (List Row) ↦ rows.value.reverse)
      hanswer
    collect_store := hstore
    answers := fun _ hopening ↦ (serveAll_eq_of_settled_eq h s hopening).1
    stores := fun _ hopening ↦ (serveAll_eq_of_settled_eq h s hopening).2 }

theorem Alike.drains {r r' : Reply (Operator τ) σ Unit} (h : Alike r r') {op : Operator τ} {s : σ}
    (started : r = ⟨.ok (), op, s⟩) :
    ∃ op', r' = ⟨.ok (), op', s⟩ ∧ op.DrainsLike op' s := by
  subst started
  obtain ⟨answer, op', s'⟩ := r'
  obtain ⟨rfl, rfl, hsettled⟩ := h
  exact ⟨op', rfl, drainsLike_of_settled_eq (hsettled () rfl) s⟩

/-! ## Rewinding -/

def Ungrouped : Operator τ → Prop
  | values _ | scan _ => True
  | filter _ _ input | modify _ input => input.Ungrouped
  | aggregate .. => False

omit [Storage σ τ] in
theorem ungrouped_bare (op : Operator τ) : op.bare.Ungrouped ↔ op.Ungrouped := by
  induction op with
  | values v => rfl
  | scan c => rfl
  | filter p look input ih => exact ih
  | modify b input ih => exact ih
  | aggregate spec schema groups input ih => rfl

theorem ungrouped_after {op : Operator τ} (ungrouped : op.Ungrouped)
    (history : List (Request × σ)) : (op.after history).Ungrouped := by
  rw [← ungrouped_bare, bare_after, ungrouped_bare]
  exact ungrouped

theorem look_of_rewound {op : Operator τ} {s : σ} (rewound : (op.rewindOn s).answer = .ok ()) :
    op.look ≠ .closed := by
  intro hclosed
  rw [rewindOn_of_closed hclosed] at rewound
  cases rewound

/-- Rewinding a tree without aggregations sets anew what opening a closed tree sets. -/
theorem rewindOn_alike {op : Operator τ} (ungrouped : op.Ungrouped) {s : σ}
    (rewound : (op.rewindOn s).answer = .ok ()) : Alike (op.rewindOn s) (op.bare.openOn s) := by
  have hlook := look_of_rewound rewound
  induction op with
  | values v =>
    have hopen : v.look ≠ .closed := hlook
    rw [rewindOn, Values.rewound, Lookahead.rewound_of_open _ hopen]
    exact ⟨rfl, rfl, fun _ _ ↦ rfl⟩
  | scan c =>
    have hopen : c.look ≠ .closed := hlook
    rw [rewindOn, Lookahead.rewound_of_open _ hopen, bare, openOn]
    dsimp only [Scan.ofTable, Lookahead.isClosed, Scan.reset]
    rcases (Storage.pageCount c.table s : Except StorageError Nat × σ) with ⟨e | n, s'⟩
    · exact ⟨rfl, rfl, fun _ hb ↦ by cases hb⟩
    · exact ⟨rfl, rfl, fun _ _ ↦ rfl⟩
  | filter p look input ih =>
    have hopen : look ≠ .closed := hlook
    rw [rewindOn, Lookahead.rewound_of_open _ hopen] at rewound ⊢
    exact (ih ungrouped rewound (look_of_rewound rewound)).mapNode
      fun _ _ hsettled ↦ congrArg (filter p _) hsettled
  | modify b input ih =>
    have hopen : b.look ≠ .closed := hlook
    rw [rewindOn, Lookahead.rewound_of_open _ hopen] at rewound ⊢
    exact (ih ungrouped rewound (look_of_rewound rewound)).mapNode
      fun _ _ hsettled ↦ congrArg (modify _) hsettled
  | aggregate spec schema groups input ih => exact ungrouped.elim

/-! ## After any history -/

/-- **Starting over.** Take an operator in any state and send it any requests, each of which finds
whatever storage. If it is then closed, and opened with success, it is drained as the same tree is
that has been built anew on the storage at hand and opened. Without aggregations in the tree it is
enough to rewind it with success. -/
theorem closed_starts_over (op : Operator τ) (history : List (Request × σ)) {plan : Plan τ}
    (fresh : plan.Fresh) {s s' : σ} {built : Operator τ}
    (hbuilt : plan.build s = (.ok built, s')) (same : built.bare = op.bare) :
    (∀ opened t, (op.after history).close.openOn s = ⟨.ok (), opened, t⟩ →
        ∃ opened', built.openOn s' = ⟨.ok (), opened', t⟩ ∧ opened.DrainsLike opened' t)
      ∧ (op.Ungrouped → ∀ rewound t, (op.after history).rewindOn s = ⟨.ok (), rewound, t⟩ →
        ∃ opened', built.openOn s' = ⟨.ok (), opened', t⟩ ∧ rewound.DrainsLike opened' t) := by
  have hanew : Alike (op.bare.openOn s) (built.openOn s') := by
    rw [← same]
    exact (build_alike fresh hbuilt).symm
  constructor
  · intro opened t hopened
    have hclosed : (op.after history).close.settled = op.bare.settled := by
      rw [settled_close, bare_after, settled_bare]
    exact ((openOn_alike hclosed s).trans hanew).drains hopened
  · intro ungrouped rewound t hrewound
    have hrewind : Alike ((op.after history).rewindOn s) ((op.after history).bare.openOn s) :=
      rewindOn_alike (ungrouped_after ungrouped history) (by rw [hrewound])
    rw [bare_after] at hrewind
    exact (hrewind.trans hanew).drains hrewound

def doublingPlan : Plan String :=
  .modify .insert "t" (.scan "t")

def doublingBatch : Batch String :=
  ⟨.insert, "t", ⟨[⟨"n", .integer⟩]⟩, false, .closed⟩

def doubling : Operator String :=
  .modify doublingBatch (.scan (.ofTable "t" doublingBatch.tableSchema))

/-- The insertion is opened, and fails when it is asked for its count, because the page of the table
is not served. -/
def interrupted : List (Request × ContestedHeap) :=
  [(.opening, oneRow), (.hasNext, oneRowMisread)]

/-- An insertion that failed before it wrote anything, and would not write again, starts over if it
is closed and opened or rewound, and inserts the one row. -/
theorem closed_starts_over_doubling :
    ∃ (built opened rewound opened' rewound' : Operator String) (t : ContestedHeap),
      (doubling.after interrupted).look = .ready none
        ∧ ((doubling.after interrupted).hasNext oneRow).answer = .ok false
        ∧ doublingPlan.Fresh ∧ doublingPlan.build oneRow = (.ok built, oneRow)
        ∧ built.bare = doubling.bare ∧ doubling.Ungrouped
        ∧ (doubling.after interrupted).close.openOn oneRow = ⟨.ok (), opened, t⟩
        ∧ (doubling.after interrupted).rewindOn oneRow = ⟨.ok (), rewound, t⟩
        ∧ built.openOn oneRow = ⟨.ok (), opened', t⟩ ∧ opened.DrainsLike opened' t
        ∧ built.openOn oneRow = ⟨.ok (), rewound', t⟩ ∧ rewound.DrainsLike rewound' t
        ∧ (opened.collect t).answer = .ok [.ofValues [.integer 1]] := by
  have fresh : doublingPlan.Fresh := trivial
  have hbuilt : doublingPlan.build oneRow = (.ok _, _) := rfl
  have hopened : (doubling.after interrupted).close.openOn oneRow = ⟨.ok (), _, _⟩ := rfl
  have hrewound : (doubling.after interrupted).rewindOn oneRow = ⟨.ok (), _, _⟩ := rfl
  obtain ⟨hclosed, hrewind⟩ := closed_starts_over doubling interrupted fresh hbuilt rfl
  obtain ⟨opened', hopened', hdrains⟩ := hclosed _ _ hopened
  obtain ⟨rewound', hrewound', hdrains'⟩ := hrewind trivial _ _ hrewound
  exact ⟨_, _, _, opened', rewound', _, rfl, rfl, fresh, hbuilt, rfl, trivial, hopened, hrewound,
    hopened', hdrains, hrewound', hdrains', rfl⟩

end Operator

end QueryEngine
