import QueryEngine.Proofs.Operator.Modify
import QueryEngine.Proofs.Operator.Reset

/-!
# A modification runs its batch once

Requests that start an operator over cut its life into stretches: rewinding, closing, and opening if
it is closed. `Operator.Stretch` describes the requests in between. A modification that is open at
the beginning of a stretch is *pending*: the first pull, whether by `hasNext` or by `next`, writes
the rows of the input. From then on it is *spent* (`Batch.Spent`), even if the pull failed. A spent
modification answers out of what it holds itself, which is at most the one row with the count. So
its input and the storage are out of play for the rest of the stretch (`Batch.AnswersAlone`).

The stretch may also begin with a closed modification, after closing or after rewinding in vain. It
refuses every pull then, the ones after the first included.
-/

namespace QueryEngine

variable {σ τ : Type}

/-! ## Stretches -/

namespace Request

/-- Whether the request starts an operator over, which opening does to a closed one only. -/
def Restarts (look : Lookahead) : Request → Prop
  | opening => look = .closed
  | rewinding | closing => True
  | hasNext | next => False

variable {look : Lookahead} {q : Request}

theorem isPull_of_closed (h : ¬ q.Restarts look) (closed : look = .closed) : q.isPull = true := by
  cases q with
  | opening => exact absurd closed h
  | rewinding => exact absurd trivial h
  | closing => exact absurd trivial h
  | hasNext => rfl
  | next => rfl

theorem eq_opening (h : ¬ q.Restarts look) (other : ¬ q.isPull = true) : q = .opening := by
  cases q with
  | opening => rfl
  | rewinding => exact absurd trivial h
  | closing => exact absurd trivial h
  | hasNext => exact absurd rfl other
  | next => exact absurd rfl other

end Request

def handsRow : Except QueryError Response → Bool
  | .ok (.row _) => true
  | _ => false

namespace Operator

variable [Storage σ τ]

def Stretch (op : Operator τ) : List (Request × σ) → Prop
  | [] => True
  | (q, s) :: rest => ¬ q.Restarts op.look ∧ (op.serve s q).node.Stretch rest

def rowCount (op : Operator τ) (calls : List (Request × σ)) : Nat :=
  (op.answers calls).countP fun call ↦ handsRow call.2

/-- The answer to the first request for a row, if there is one. -/
def firstPull (op : Operator τ) (calls : List (Request × σ)) :
    Option (Except QueryError Response) :=
  ((op.answers calls).find? fun call ↦ call.1.isPull).map Prod.snd

theorem rowCount_cons (op : Operator τ) (q : Request) (s : σ) (rest : List (Request × σ)) :
    op.rowCount ((q, s) :: rest)
      = (op.serve s q).node.rowCount rest + (handsRow (op.serve s q).answer).toNat := by
  rw [rowCount, answers, List.countP_cons]
  cases handsRow (op.serve s q).answer <;> rfl

theorem firstPull_cons (op : Operator τ) (q : Request) (s : σ) (rest : List (Request × σ)) :
    op.firstPull ((q, s) :: rest)
      = if q.isPull then some (op.serve s q).answer else (op.serve s q).node.firstPull rest := by
  rw [firstPull, answers, List.find?_cons]
  cases q.isPull <;> rfl

end Operator

/-! ## Spent modifications -/

namespace Batch

/-- Whether the batch has been run since the modification was started over. -/
def Spent (b : Batch τ) : Prop :=
  b.done = true ∧ b.look ≠ .closed

def held (b : Batch τ) : Nat :=
  match b.look with
  | .ready (some _) => 1
  | _ => 0

variable (σ) in
/-- Whether the modification serves a request without its input and without the storage: the answer
is the same for all of them, and they are left as they are. -/
def AnswersAlone [Storage σ τ] (b : Batch τ) (q : Request) : Prop :=
  ∃ answer b', ∀ (input : Operator τ) (s : σ),
    (Operator.modify b input).serve s q = ⟨answer, .modify b' input, s⟩

end Batch

namespace Operator

variable [Storage σ τ]

/-- A spent modification serves requests alone, stays spent, and hands out what it holds. -/
theorem serve_spent {b : Batch τ} (spent : b.Spent) {q : Request} (h : ¬ q.Restarts b.look) :
    ∃ answer b', b'.Spent ∧ b'.held + (handsRow answer).toNat ≤ b.held
      ∧ ∀ (input : Operator τ) (s : σ),
          (modify b input).serve s q = ⟨answer, modify b' input, s⟩ := by
  obtain ⟨change, table, tableSchema, done, look⟩ := b
  obtain ⟨rfl, hlook⟩ := spent
  have spentIn : ∀ look : Lookahead, look ≠ .closed →
      (⟨change, table, tableSchema, true, look⟩ : Batch τ).Spent := fun _ h ↦ ⟨rfl, h⟩
  have ready := fun buffered ↦ spentIn (.ready buffered) (Lookahead.ready_ne_closed buffered)
  have exhausted := spentIn .exhausted Lookahead.exhausted_ne_closed
  cases q with
  | opening =>
    refine ⟨.ok .done, ⟨change, table, tableSchema, true, look⟩, spentIn look hlook, le_rfl,
      fun input s ↦ ?_⟩
    have hopen : (modify ⟨change, table, tableSchema, true, look⟩ input).look ≠ .closed := hlook
    rw [serve, openOn_of_open hopen]
    rfl
  | hasNext =>
    rcases look with _ | (_ | r) | _
    · exact absurd rfl hlook
    · exact ⟨.ok (.more false), _, exhausted, le_rfl, fun _ _ ↦ rfl⟩
    · exact ⟨.ok (.more true), _, ready (some r), le_rfl, fun _ _ ↦ rfl⟩
    · exact ⟨.ok (.more false), _, exhausted, le_rfl, fun _ _ ↦ rfl⟩
  | next =>
    rcases look with _ | (_ | r) | _
    · exact absurd rfl hlook
    · exact ⟨.error (.noMoreRows change.label), _, exhausted, le_rfl, fun _ _ ↦ rfl⟩
    · exact ⟨.ok (.row r), _, ready none, le_rfl, fun _ _ ↦ rfl⟩
    · exact ⟨.error (.noMoreRows change.label), _, exhausted, le_rfl, fun _ _ ↦ rfl⟩
  | rewinding => exact absurd trivial h
  | closing => exact absurd trivial h

theorem serve_of_held_eq_zero {b : Batch τ} (spent : b.Spent) (h : b.held = 0) (input : Operator τ)
    (s : σ) :
    ((modify b input).serve s .hasNext).answer = .ok (.more false)
      ∧ ((modify b input).serve s .next).answer = .error (.noMoreRows b.change.label) := by
  obtain ⟨change, table, tableSchema, done, look⟩ := b
  obtain ⟨rfl, hlook⟩ := spent
  rcases look with _ | (_ | r) | _
  · exact absurd rfl hlook
  · exact ⟨rfl, rfl⟩
  · cases h
  · exact ⟨rfl, rfl⟩

/-- A stretch of a spent modification: it hands out at most what it held. -/
theorem after_spent {b : Batch τ} (spent : b.Spent) (input : Operator τ)
    {calls : List (Request × σ)} (stretch : (modify b input).Stretch calls) :
    ∃ b', b'.Spent ∧ (modify b input).after calls = modify b' input
      ∧ b'.held + (modify b input).rowCount calls ≤ b.held := by
  induction calls generalizing b with
  | nil => exact ⟨b, spent, rfl, le_rfl⟩
  | cons call rest ih =>
    obtain ⟨q, s⟩ := call
    obtain ⟨hq, hrest⟩ := stretch
    obtain ⟨answer, b₁, hspent, hheld, hserve⟩ := serve_spent (σ := σ) spent hq
    rw [hserve] at hrest
    obtain ⟨b', hspent', hafter, hheld'⟩ := ih hspent hrest
    refine ⟨b', hspent', ?_, ?_⟩
    · rw [after, hserve, hafter]
    · rw [rowCount_cons, hserve]
      dsimp only
      omega

/-! ## Pending modifications -/

/-- The pull that runs the batch leaves the modification spent. It holds a row, or has handed it
out, only if the pull succeeded. -/
theorem serve_pending (change : Modification) (table : τ) (tableSchema : Schema)
    (input : Operator τ) (s : σ) {q : Request} (h : q.isPull = true) :
    ∃ answer b' input' s', b'.Spent ∧ b'.held + (handsRow answer).toNat ≤ 1
      ∧ (∀ e, answer = .error e → b'.held = 0)
      ∧ (pending change table tableSchema input).serve s q
          = ⟨answer, modify b' input', s'⟩ := by
  have spentIn : ∀ buffered,
      (⟨change, table, tableSchema, true, .ready buffered⟩ : Batch τ).Spent :=
    fun _ ↦ ⟨rfl, Lookahead.ready_ne_closed _⟩
  rcases hwrite : writeInput ⟨change, table, tableSchema, false, .ready none⟩ input s
    with ⟨e | n, input', s'⟩
  · have fails := fails_pending hwrite
    refine ⟨.error e, _, input', s', spentIn none, Nat.zero_le 1, fun _ _ ↦ rfl, ?_⟩
    cases q with
    | hasNext => exact congrArg (Reply.map Response.more) fails.hasNext_eq
    | next => exact congrArg (Reply.map Response.row) fails.next_eq
    | _ => cases h
  · have handsOut := handsOut_pending hwrite
    cases q with
    | hasNext =>
      exact ⟨.ok (.more true), _, input', s', spentIn (some (countRow n)), le_rfl, nofun,
        congrArg (Reply.map Response.more) handsOut.hasNext_eq⟩
    | next =>
      exact ⟨.ok (.row (countRow n)), _, input', s', spentIn none, le_rfl, nofun,
        congrArg (Reply.map Response.row) handsOut.next_eq⟩
    | _ => cases h

variable {change : Modification} {table : τ} {tableSchema : Schema}

theorem serve_opening_pending (input : Operator τ) (s : σ) :
    (pending change table tableSchema input).serve s .opening
      = ⟨.ok .done, pending change table tableSchema input, s⟩ :=
  rfl

/-- A stretch of a pending modification: it is pending until the first pull and spent from then on,
and it hands out one row at most, none if the first pull failed. -/
theorem after_pending (input : Operator τ) {calls : List (Request × σ)}
    (stretch : (pending change table tableSchema input).Stretch calls) :
    ((pending change table tableSchema input).firstPull calls = none
        ∧ (pending change table tableSchema input).after calls
          = pending change table tableSchema input
        ∧ (pending change table tableSchema input).rowCount calls = 0)
      ∨ ∃ answer b' input', (pending change table tableSchema input).firstPull calls = some answer
        ∧ (pending change table tableSchema input).after calls = modify b' input'
        ∧ b'.Spent
        ∧ b'.held + (pending change table tableSchema input).rowCount calls ≤ 1
        ∧ (∀ e, answer = .error e → b'.held = 0) := by
  induction calls with
  | nil => exact .inl ⟨rfl, rfl, rfl⟩
  | cons call rest ih =>
    obtain ⟨q, s⟩ := call
    obtain ⟨hq, hrest⟩ := stretch
    by_cases hpull : q.isPull = true
    -- The first pull: what follows is a stretch of a spent modification.
    · obtain ⟨answer, b₁, input', s', hspent, hheld, hfailed, hserve⟩ :=
        serve_pending change table tableSchema input s hpull
      rw [hserve] at hrest
      obtain ⟨b', hspent', hafter, hheld'⟩ := after_spent hspent input' hrest
      refine .inr ⟨answer, b', input', ?_, ?_, hspent', ?_, ?_⟩
      · rw [firstPull_cons, if_pos hpull, hserve]
      · rw [after, hserve, hafter]
      · rw [rowCount_cons, hserve]
        dsimp only
        omega
      · intro e he
        have := hfailed e he
        omega
    -- Only opening is left, and the modification is open.
    · obtain rfl := Request.eq_opening hq hpull
      rw [serve_opening_pending] at hrest
      rw [firstPull_cons, if_neg hpull, after, rowCount_cons, serve_opening_pending]
      exact ih hrest

/-! ## Closed modifications -/

theorem serve_pull_of_closed {op : Operator τ} (closed : op.look = .closed) (s : σ) {q : Request}
    (h : q.isPull = true) : op.serve s q = ⟨.error (.notOpen op.closedLabel), op, s⟩ := by
  refine serve_of_closed closed s ?_ ?_
  · rintro rfl
    cases h
  · rintro rfl
    cases h

theorem after_closed {op : Operator τ} (closed : op.look = .closed) {calls : List (Request × σ)}
    (stretch : op.Stretch calls) : op.after calls = op ∧ op.rowCount calls = 0 := by
  induction calls with
  | nil => exact ⟨rfl, rfl⟩
  | cons call rest ih =>
    obtain ⟨q, s⟩ := call
    obtain ⟨hq, hrest⟩ := stretch
    have hserve := serve_pull_of_closed closed s (Request.isPull_of_closed hq closed)
    rw [hserve] at hrest
    obtain ⟨hafter, hcount⟩ := ih hrest
    rw [after, rowCount_cons, hserve]
    exact ⟨hafter, hcount⟩

/-! ## One stretch -/

theorem serve_restart (b : Batch τ) (input : Operator τ) (s : σ) {start : Request}
    (restarts : start.Restarts b.look) :
    ∃ (b' : Batch τ) (input' : Operator τ),
      ((modify b input).serve s start).node = modify b' input'
        ∧ (b'.look = .closed ∨ ∃ change table tableSchema,
            modify b' input' = pending change table tableSchema input') := by
  cases start with
  | opening =>
    obtain ⟨change, table, tableSchema, done, look⟩ := b
    obtain rfl : look = .closed := restarts
    exact ⟨_, _, rfl, .inr ⟨change, table, tableSchema, rfl⟩⟩
  | hasNext => exact restarts.elim
  | next => exact restarts.elim
  | rewinding =>
    by_cases closed : b.look = .closed
    · have hlook : (modify b input).look = .closed := closed
      refine ⟨b, input, ?_, .inl closed⟩
      rw [serve, rewindOn_of_closed hlook]
      rfl
    · refine ⟨⟨b.change, b.table, b.tableSchema, false, .ready none⟩, (input.rewindOn s).node, ?_,
        .inr ⟨b.change, b.table, b.tableSchema, rfl⟩⟩
      rw [serve, rewindOn, Lookahead.rewound_of_open _ closed]
      rfl
  | closing => exact ⟨{ b with done := false, look := .closed }, input.close, rfl, .inl rfl⟩

/-- **One batch a stretch.** Start a modification over in any way, by opening it when it is closed,
by rewinding it or by closing it, and send it requests that do not start it over again, each of
which finds whatever storage. Then

* a request other than a pull, and a pull after the first one, is answered without the input and
  without the storage, which are left as they are;
* at most one row has been handed out;
* if the modification was open and the first pull failed, there is no row: `hasNext` answers so and
  `next` fails, as the modification is in no state to hand one out;
* if the modification was closed, every pull is refused for that reason. -/
theorem modify_runs_once (b : Batch τ) (input : Operator τ) (s₀ : σ) (start : Request)
    (restarts : start.Restarts b.look) {begun : Operator τ}
    (hbegun : ((modify b input).serve s₀ start).node = begun) {calls : List (Request × σ)}
    (stretch : begun.Stretch calls) :
    ∃ b' input', begun.after calls = modify b' input'
      ∧ (∀ q, ¬ q.Restarts b'.look → (q.isPull = true → begun.firstPull calls ≠ none) →
          b'.AnswersAlone σ q)
      ∧ begun.rowCount calls ≤ 1
      ∧ (begun.look ≠ .closed → ∀ e, begun.firstPull calls = some (.error e) → ∀ s : σ,
          ((modify b' input').serve s .hasNext).answer = .ok (.more false)
            ∧ ∃ e', ((modify b' input').serve s .next).answer = .error e'
              ∧ e'.kind = .illegalState)
      ∧ (begun.look = .closed → ∀ q, q.isPull = true → ∀ s : σ,
          ∃ e, (modify b' input').serve s q = ⟨.error e, modify b' input', s⟩
            ∧ e.kind = .illegalState) := by
  subst hbegun
  obtain ⟨b₁, input₁, hnode, closed | ⟨change, table, tableSchema, hpending⟩⟩ :=
    serve_restart b input s₀ restarts
  · rw [hnode] at stretch ⊢
    have hlook : ∀ input, (modify b₁ input).look = .closed := fun _ ↦ closed
    obtain ⟨hafter, hcount⟩ := after_closed (hlook input₁) stretch
    have hrefused : ∀ q, q.isPull = true → ∀ (input : Operator τ) (s : σ),
        (modify b₁ input).serve s q
          = ⟨.error (.notOpen b₁.change.label), modify b₁ input, s⟩ := fun _ hq input s ↦
      serve_pull_of_closed (hlook input) s hq
    refine ⟨b₁, input₁, hafter, ?_, by omega, fun hopen ↦ absurd closed hopen, ?_⟩
    · exact fun q hq _ ↦ ⟨_, b₁, hrefused q (Request.isPull_of_closed hq closed)⟩
    · exact fun _ q hq s ↦ ⟨_, hrefused q hq input₁ s, rfl⟩
  · rw [hnode, hpending] at stretch ⊢
    have hopen : (pending change table tableSchema input₁).look ≠ .closed :=
      Lookahead.ready_ne_closed none
    rcases after_pending input₁ stretch with
      ⟨hnone, hafter, hcount⟩ | ⟨answer, b', input', hsome, hafter, hspent, hheld, hfailed⟩
    · refine ⟨_, input₁, hafter, ?_, by omega, ?_, fun closed ↦ absurd closed hopen⟩
      · intro q hq hfirst
        by_cases hpull : q.isPull = true
        · exact absurd hnone (hfirst hpull)
        · obtain rfl := Request.eq_opening hq hpull
          exact ⟨_, _, fun input s ↦ serve_opening_pending input s⟩
      · intro _ e he
        rw [hnone] at he
        cases he
    · refine ⟨b', input', hafter, ?_, by omega, ?_, fun closed ↦ absurd closed hopen⟩
      · intro q hq _
        obtain ⟨answer', b'', -, -, hserve⟩ := serve_spent (σ := σ) hspent hq
        exact ⟨answer', b'', hserve⟩
      · intro _ e he s
        rw [hsome] at he
        obtain ⟨hhasNext, hnext⟩ :=
          serve_of_held_eq_zero hspent (hfailed e (Option.some.inj he)) input' s
        exact ⟨hhasNext, _, hnext, rfl⟩

/-- An insertion whose first pull fails has no row, also if the storage recovers. -/
theorem modify_runs_once_doubling :
    ∃ begun : Operator String, (doubling.serve oneRow .opening).node = begun
      ∧ begun.Stretch [(.hasNext, oneRowMisread)]
      ∧ begun.firstPull [(.hasNext, oneRowMisread)] = some (.error (.storage Outage.badPage))
      ∧ ((begun.after [(.hasNext, oneRowMisread)]).serve oneRow .hasNext).answer
        = .ok (.more false) := by
  have hbegun : (doubling.serve oneRow .opening).node = _ := rfl
  have stretch : (doubling.serve oneRow .opening).node.Stretch
      [(.hasNext, oneRowMisread)] := ⟨nofun, trivial⟩
  have hfirst : (doubling.serve oneRow .opening).node.firstPull
      [(.hasNext, oneRowMisread)] = some (.error (.storage Outage.badPage)) := rfl
  obtain ⟨b', input', hafter, -, -, hfailed, -⟩ :=
    modify_runs_once doublingBatch (.scan (.ofTable "t" doublingBatch.tableSchema)) oneRow
      .opening rfl hbegun stretch
  refine ⟨_, hbegun, stretch, hfirst, ?_⟩
  rw [hafter]
  exact (hfailed nofun _ hfirst oneRow).1

/-- It does not hold of every stretch that `hasNext` answers that there is no row once the first
pull has failed: a closed modification goes on refusing. -/
theorem failed_pull_may_be_refused_again :
    ¬ ∀ (b : Batch String) (input : Operator String) (s₀ s : ContestedHeap) (start : Request)
        (calls : List (Request × ContestedHeap)) (e : QueryError), start.Restarts b.look →
      ((modify b input).serve s₀ start).node.Stretch calls →
      ((modify b input).serve s₀ start).node.firstPull calls = some (.error e) →
      ((((modify b input).serve s₀ start).node.after calls).serve s .hasNext).answer
        = .ok (.more false) := by
  intro h
  have hanswer := h doublingBatch (.scan (.ofTable "t" doublingBatch.tableSchema)) oneRow
    oneRow .closing [(.hasNext, oneRow)] (.notOpen "Insert") trivial
    ⟨nofun, trivial⟩ rfl
  cases hanswer

end Operator

end QueryEngine
