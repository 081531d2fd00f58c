import QueryEngine.Proofs.Operator.Modify

/-!
# Traversals are loops

A traversal is defined by recursion on the tree, and the visitor goes down to the leaves. To whoever
holds the operator it is a loop: a row is taken and visited, and as long as the visitor goes on and
there is a further row, that one is taken (`Operator.Loops`). The operator and the storage pass from
one round to the next, so what the visitor writes is there when the next row is fetched.

A loop has one outcome (`Operator.Loops.unique`), and that is the reply of the traversal
(`Operator.loops_forRows`). The two differ most at filters, where one round of the loop may be
several rounds of the loop over the input.
-/

namespace QueryEngine

variable {σ τ α : Type}

/-- The scan, open before given rows of the page in hand and before a given page. -/
def Scan.standing (c : Scan τ) (nextPage : Nat) (pending : List Row) : Scan τ :=
  { c with nextPage, pending, look := .ready none }

namespace Operator

variable [Storage σ τ]

/-! ## The loop -/

/-- Takes rows one by one and visits each, until the visitor stops or no row can be taken. -/
inductive Loops (visit : Visitor σ α) :
    Operator τ → α → σ → Reply (Operator τ) σ (ForInStep α) → Prop
  | last {op op' : Operator τ} {a : α} {s s' : σ} (pulled : op.pull s = ⟨.ok none, op', s'⟩) :
    Loops visit op a s ⟨.ok (.yield a), op', s'⟩
  | fails {op op' : Operator τ} {a : α} {s s' : σ} {e : QueryError}
    (pulled : op.pull s = ⟨.error e, op', s'⟩) : Loops visit op a s ⟨.error e, op', s'⟩
  | stops {op op' : Operator τ} {a : α} {s s' s'' : σ} {r : Row}
    {answer : Except QueryError (ForInStep α)} (pulled : op.pull s = ⟨.ok (some r), op', s'⟩)
    (visited : visit r a s' = (answer, s'')) (stopped : ∀ a', answer ≠ .ok (.yield a')) :
    Loops visit op a s ⟨answer, op', s''⟩
  | goesOn {op op' : Operator τ} {a a' : α} {s s' s'' : σ} {r : Row}
    {reply : Reply (Operator τ) σ (ForInStep α)} (pulled : op.pull s = ⟨.ok (some r), op', s'⟩)
    (visited : visit r a s' = (.ok (.yield a'), s'')) (rest : Loops visit op' a' s'' reply) :
    Loops visit op a s reply

variable {visit : Visitor σ α}

/-- A loop knows the operator by its rows only. -/
theorem Loops.of_pull_eq {op op' : Operator τ} {a : α} {s s' : σ}
    {reply : Reply (Operator τ) σ (ForInStep α)} (loops : Loops visit op a s reply)
    (same : op'.pull s' = op.pull s) : Loops visit op' a s' reply := by
  cases loops with
  | last pulled => exact .last (same.trans pulled)
  | fails pulled => exact .fails (same.trans pulled)
  | stops pulled visited stopped => exact .stops (same.trans pulled) visited stopped
  | goesOn pulled visited rest => exact .goesOn (same.trans pulled) visited rest

theorem Loops.unique {op : Operator τ} {a : α} {s : σ}
    {reply reply' : Reply (Operator τ) σ (ForInStep α)} (loops : Loops visit op a s reply)
    (loops' : Loops visit op a s reply') : reply = reply' := by
  induction loops with
  | last pulled =>
    cases loops' with
    | last pulled' =>
      cases pulled.symm.trans pulled'
      rfl
    | fails pulled' | stops pulled' | goesOn pulled' => cases pulled.symm.trans pulled'
  | fails pulled =>
    cases loops' with
    | fails pulled' =>
      cases pulled.symm.trans pulled'
      rfl
    | last pulled' | stops pulled' | goesOn pulled' => cases pulled.symm.trans pulled'
  | stops pulled visited stopped =>
    cases loops' with
    | last pulled' | fails pulled' => cases pulled.symm.trans pulled'
    | stops pulled' visited' =>
      cases pulled.symm.trans pulled'
      cases visited.symm.trans visited'
      rfl
    | goesOn pulled' visited' =>
      cases pulled.symm.trans pulled'
      cases visited.symm.trans visited'
      exact absurd rfl (stopped _)
  | goesOn pulled visited rest ih =>
    cases loops' with
    | last pulled' | fails pulled' => cases pulled.symm.trans pulled'
    | stops pulled' visited' stopped' =>
      cases pulled.symm.trans pulled'
      cases visited.symm.trans visited'
      exact absurd rfl (stopped' _)
    | goesOn pulled' visited' rest' =>
      cases pulled.symm.trans pulled'
      cases visited.symm.trans visited'
      exact ih rest'

theorem Loops.round {op op' : Operator τ} {a : α} {s s' : σ} {r : Row}
    (pulled : op.pull s = ⟨.ok (some r), op', s'⟩)
    (rest : ∀ a' s'', Loops visit op' a' s'' (op'.forRows visit a' s'')) :
    Loops visit op a s (match visit r a s' with
      | (.ok (.yield a'), s'') => op'.forRows visit a' s''
      | (answer, s'') => ⟨answer, op', s''⟩) := by
  rcases visited : visit r a s' with ⟨e | ⟨a'⟩ | ⟨a'⟩, s''⟩
  · apply Loops.stops pulled visited
    intro a' h
    cases h
  · apply Loops.stops pulled visited
    intro a' h
    cases h
  · exact .goesOn pulled visited (rest a' s'')

/-- The operator hands out a row first, which it does not need the storage for, and is another one
afterwards. -/
def Precedes (σ : Type) [Storage σ τ] (op : Operator τ) (r : Row) (op' : Operator τ) : Prop :=
  ∀ {α : Type} (visit : Visitor σ α) (a : α) (s : σ), op.forRows visit a s
    = match visit r a s with
      | (.ok (.yield a'), s') => op'.forRows visit a' s'
      | (answer, s') => ⟨answer, op', s'⟩

theorem Loops.cons {op op' : Operator τ} {r : Row} (precedes : op.Precedes σ r op')
    (loops : ∀ a s, Loops visit op' a s (op'.forRows visit a s)) (a : α) (s : σ) :
    Loops visit op a s (op.forRows visit a s) := by
  have pulled : op.pull s = ⟨.ok (some r), op', s⟩ := by
    rw [pull, precedes]
    rfl
  rw [precedes]
  exact .round pulled loops

/-! ## Nodes -/

/-- An open node loops if it does once its buffer is empty. -/
theorem Loops.resume (node : Lookahead → Operator τ) (label : String)
    (hnode : ∀ {β : Type} (look : Lookahead), look ≠ .closed → ∀ (visit : Visitor σ β) (b : β)
      (s : σ), (node look).forRows visit b s
        = look.resume label visit b s node ((node (.ready none)).forRows visit))
    (hrest : ∀ a s, Loops visit (node (.ready none)) a s ((node (.ready none)).forRows visit a s))
    {look : Lookahead} (isOpen : look ≠ .closed) (a : α) (s : σ) :
    Loops visit (node look) a s ((node look).forRows visit a s) := by
  cases look with
  | closed => exact absurd rfl isOpen
  | exhausted =>
    rw [hnode _ isOpen]
    apply Loops.last
    rw [pull, hnode _ isOpen]
    rfl
  | ready buffered =>
    cases buffered with
    | none => exact hrest a s
    | some r =>
      refine .cons (r := r) (fun visit b s ↦ ?_) hrest a s
      rw [hnode _ isOpen]
      rfl

theorem loops_values (wrap : Values → Operator τ)
    (hwrap : ∀ {β : Type} (visit : Visitor σ β) (v : Values) (b : β) (s : σ),
      (wrap v).forRows visit b s = (v.forRows visit b s).mapNode wrap)
    {v : Values} (isOpen : v.look ≠ .closed) (a : α) (s : σ) :
    Loops visit (wrap v) a s ((wrap v).forRows visit a s) := by
  refine Loops.resume (fun look ↦ wrap { v with look }) Values.label
    (fun look isOpen visit b s ↦ ?_) ?_ isOpen a s
  · rw [hwrap]
    refine Lookahead.mapNode_resume isOpen (fun _ _ ↦ rfl) fun a s ↦ ?_
    rw [hwrap]
    rfl
  · obtain ⟨schema, rows, pending, look⟩ := v
    clear isOpen
    induction pending with
    | nil =>
      intro a s
      rw [hwrap]
      apply Loops.last
      rw [pull, hwrap]
      rfl
    | cons r pending ih =>
      refine Loops.cons (r := r) (fun visit b s ↦ ?_) ih
      rw [hwrap, Values.forRows, Lookahead.resume, visitRows]
      rcases visit r b s with ⟨e | ⟨b'⟩ | ⟨b'⟩, s'⟩
      · rfl
      · rfl
      · dsimp only
        rw [hwrap]
        rfl

section

variable (c : Scan τ) {nextPage : Nat}

theorem forRows_standing_nil {left : Nat} (hleft : c.pageCount - nextPage = left + 1) (a : α)
    (s : σ) :
    (scan (c.standing nextPage [])).forRows visit a s
      = match Storage.readPage c.table (UInt32.ofNat nextPage) s with
        | (.ok rows, s') => (scan (c.standing (nextPage + 1) rows)).forRows visit a s'
        | (.error e, s') => ⟨.error (.storage e), scan (c.standing nextPage []), s'⟩ := by
  rw [forRows, Scan.forRows, Scan.standing, Lookahead.resume, visitRows]
  dsimp only
  rw [hleft, visitPages]
  rcases Storage.readPage c.table (UInt32.ofNat nextPage) s with ⟨e | rows, s'⟩
  · rfl
  · have hrest : c.pageCount - (nextPage + 1) = left := by omega
    dsimp only
    rw [forRows, Scan.forRows, Scan.standing, Lookahead.resume, hrest]
    rcases visitRows visit rows a s' with ⟨e | ⟨a'⟩ | ⟨a'⟩, rest, s''⟩ <;> rfl

theorem forRows_standing_end (hleft : c.pageCount - nextPage = 0) (a : α) (s : σ) :
    (scan (c.standing nextPage [])).forRows visit a s
      = ⟨.ok (.yield a), scan { c.standing nextPage [] with look := .exhausted }, s⟩ := by
  rw [forRows, Scan.forRows, Scan.standing, Lookahead.resume, visitRows]
  dsimp only
  rw [hleft]
  rfl

theorem loops_standing
    (hnil : ∀ a s, Loops visit (scan (c.standing nextPage [])) a s
      ((scan (c.standing nextPage [])).forRows visit a s)) (pending : List Row) (a : α) (s : σ) :
    Loops visit (scan (c.standing nextPage pending)) a s
      ((scan (c.standing nextPage pending)).forRows visit a s) := by
  induction pending generalizing a s with
  | nil => exact hnil a s
  | cons r pending ih =>
    refine Loops.cons (r := r) (fun visit b s ↦ ?_) ih a s
    rw [forRows, Scan.forRows, Scan.standing, Lookahead.resume, visitRows]
    rcases visit r b s with ⟨e | ⟨b'⟩ | ⟨b'⟩, s'⟩ <;> rfl

end

theorem loops_scan {c : Scan τ} (isOpen : c.look ≠ .closed) (a : α) (s : σ) :
    Loops visit (scan c) a s ((scan c).forRows visit a s) := by
  have hstanding : ∀ left nextPage, c.pageCount - nextPage = left → ∀ pending a s,
      Loops visit (scan (c.standing nextPage pending)) a s
        ((scan (c.standing nextPage pending)).forRows visit a s) := by
    intro left
    induction left with
    | zero =>
      intro nextPage hleft
      refine loops_standing c fun a s ↦ ?_
      rw [forRows_standing_end c hleft]
      apply Loops.last
      rw [pull, forRows_standing_end c hleft]
      rfl
    | succ left ih =>
      intro nextPage hleft
      refine loops_standing c fun a s ↦ ?_
      rw [forRows_standing_nil c hleft]
      rcases hread : Storage.readPage c.table (UInt32.ofNat nextPage) s with ⟨e | rows, s'⟩
      · apply Loops.fails
        rw [pull, forRows_standing_nil c hleft, hread]
        rfl
      · refine (ih (nextPage + 1) (by omega) rows a s').of_pull_eq ?_
        rw [pull, pull, forRows_standing_nil c hleft, hread]
  refine Loops.resume (fun look ↦ scan { c with look }) Scan.label
    (fun look isOpen visit b s ↦ ?_) (hstanding _ _ rfl _) isOpen a s
  exact Lookahead.mapNode_resume isOpen (fun _ _ ↦ rfl) fun _ _ ↦ rfl

/-- A modification writes its rows before its only round. -/
theorem loops_modify {b : Batch τ} {input : Operator τ} (isOpen : b.look ≠ .closed) (a : α)
    (s : σ) : Loops visit (modify b input) a s ((modify b input).forRows visit a s) := by
  refine Loops.resume (fun look ↦ modify { b with look } input) b.change.label
    (fun look isOpen visit a s ↦ ?_) (fun a s ↦ ?_) isOpen a s
  · rw [forRows_modify]
    congr 1
    funext a s
    rw [forRows_modify]
    rfl
  · obtain ⟨change, table, tableSchema, done, look⟩ := b
    cases done with
    | true =>
      rw [show modify ⟨change, table, tableSchema, true, .ready none⟩ input
        = written change table tableSchema input from rfl]
      exact .last rfl
    | false =>
      change Loops visit (pending change table tableSchema input) a s
        ((pending change table tableSchema input).forRows visit a s)
      have pulled := pull_pending change table tableSchema input s
      rw [forRows_pending]
      rcases hwrite : writeInput ⟨change, table, tableSchema, false, .ready none⟩ input s with
        ⟨e | n, input', s'⟩
      · rw [hwrite] at pulled
        exact .fails pulled
      · rw [hwrite] at pulled
        exact .round pulled fun a' s'' ↦ .last rfl

/-! ## Filters -/

section

variable {p : Predicate} {input : Operator τ} {s : σ}

/-- A filter hands out the first row that the loop over its input finds. -/
theorem pull_filter {reply : Reply (Operator τ) σ (ForInStep (Option Row))}
    (hinput : Loops (p.guard takeFirst) input none s (input.forRows (p.guard takeFirst) none s))
    (loops : Loops (p.guard takeFirst) input none s reply) :
    (filter p (.ready none) input).pull s
      = ⟨reply.answer.map ForInStep.value, filter p (.after reply.answer) reply.node,
        reply.store⟩ := by
  rw [loops.unique hinput]
  rfl

theorem Loops.finds {op op' : Operator τ} {s s' : σ} {r : Row}
    (pulled : op.pull s = ⟨.ok (some r), op', s'⟩) (holds : p.holds r = .ok true) :
    Loops (p.guard takeFirst) op none s ⟨.ok (.done (some r)), op', s'⟩ := by
  apply Loops.stops pulled
  · rw [Predicate.guard, holds, takeFirst]
  · intro a' h
    cases h

/-- A loop over the input in which the predicate is looked at first is one over the filter. -/
theorem Loops.filter (hinput : ∀ op : Operator τ, op.bare = input.bare → ∀ s : σ,
      Loops (p.guard takeFirst) op none s (op.forRows (p.guard takeFirst) none s)) {a : α}
    {reply : Reply (Operator τ) σ (ForInStep α)} (loops : Loops (p.guard visit) input a s reply) :
    Loops visit (filter p (.ready none) input) a s
      ⟨reply.answer, .filter p (.after reply.answer) reply.node, reply.store⟩ := by
  induction loops with
  | last pulled => exact .last (pull_filter (hinput _ rfl _) (.last pulled))
  | fails pulled => exact .fails (pull_filter (hinput _ rfl _) (.fails pulled))
  | @stops op op' a s s' s'' r answer pulled visited stopped =>
    rw [Predicate.guard] at visited
    rcases holds : p.holds r with e | _ | _
    · rw [holds] at visited
      cases visited
      have first : Loops (p.guard takeFirst) op none s ⟨.error e, op', s'⟩ := by
        apply Loops.stops pulled
        · rw [Predicate.guard, holds]
        · intro a' h
          cases h
      exact .fails (pull_filter (hinput _ rfl _) first)
    · rw [holds] at visited
      cases visited
      exact absurd rfl (stopped a)
    · rw [holds] at visited
      have hready : Lookahead.after answer = .ready none := by
        rcases answer with e | ⟨a'⟩ | ⟨a'⟩
        · rfl
        · rfl
        · exact absurd rfl (stopped a')
      rw [hready]
      exact .stops (pull_filter (hinput _ rfl _) (finds pulled holds)) visited stopped
  | @goesOn op op' a a' s s' s'' r reply pulled visited rest ih =>
    have hbare : op'.bare = op.bare := by
      have hpulled : (op.pull s).node.bare = op.bare := op.bare_forRows takeFirst none s
      rwa [pulled] at hpulled
    have hrest := ih fun op'' h ↦ hinput op'' (h.trans hbare)
    rw [Predicate.guard] at visited
    rcases holds : p.holds r with e | _ | _
    · rw [holds] at visited
      cases visited
    · rw [holds] at visited
      cases visited
      -- The row is passed over, so the filter goes on to the row after it at once.
      have passed : p.guard takeFirst r none s' = (.ok (.yield none), s') := by
        rw [Predicate.guard, holds]
      have first := Loops.goesOn pulled passed (hinput op' hbare s')
      exact hrest.of_pull_eq (pull_filter (hinput _ rfl _) first)
    · rw [holds] at visited
      exact .goesOn (pull_filter (hinput _ rfl _) (finds pulled holds)) visited hrest

end

/-! ## Trees -/

theorem loops_of_closed {op : Operator τ} (closed : op.look = .closed) (a : α) (s : σ) :
    Loops visit op a s (op.forRows visit a s) := by
  rw [forRows_of_closed closed]
  apply Loops.fails
  rw [pull, forRows_of_closed closed]
  rfl

/-- **Traversals are loops.** The reply of a traversal is what comes of taking the rows one by one
and visiting each before the next one is taken. -/
theorem loops_forRows (op : Operator τ) (visit : Visitor σ α) (a : α) (s : σ) :
    Loops visit op a s (op.forRows visit a s) := by
  by_cases closed : op.look = .closed
  · exact loops_of_closed closed a s
  -- The input is another operator after each round, but one of the same shape.
  induction hshape : op.bare generalizing op α a s with
  | values shape =>
    cases op with
    | values v => exact loops_values values (fun _ _ _ _ ↦ rfl) closed a s
    | scan c | filter p look input | modify b input | aggregate spec schema groups input =>
      cases hshape
  | scan shape =>
    cases op with
    | scan c => exact loops_scan closed a s
    | values v | filter p look input | modify b input | aggregate spec schema groups input =>
      cases hshape
  | filter q look' shape ih =>
    cases op with
    | filter p look input =>
      have hinput : ∀ op : Operator τ, op.bare = input.bare → ∀ {β : Type} (visit : Visitor σ β)
          (b : β) (s : σ), Loops visit op b s (op.forRows visit b s) := by
        intro op hbare β visit b s
        by_cases closed : op.look = .closed
        · exact loops_of_closed closed b s
        · exact ih op visit b s closed (hbare.trans (Operator.filter.inj hshape).2.2)
      refine Loops.resume (fun look ↦ filter p look input) "Filter"
        (fun look isOpen visit b s ↦ rfl) (fun a s ↦ ?_) closed a s
      exact (hinput input rfl (p.guard visit) a s).filter fun op h s ↦ hinput op h _ _ s
    | values v | scan c | modify b input | aggregate spec schema groups input => cases hshape
  | modify batch shape ih =>
    cases op with
    | modify b input => exact loops_modify closed a s
    | values v | scan c | filter p look input | aggregate spec schema groups input => cases hshape
  | aggregate spec' schema' groups' shape ih =>
    cases op with
    | aggregate spec schema groups input =>
      cases groups with
      | none => exact absurd rfl closed
      | some v =>
        exact loops_values (fun v ↦ aggregate spec schema (some v) input) (fun _ _ _ _ ↦ rfl)
          closed a s
    | values v | scan c | filter p look input | modify b input => cases hshape

end Operator

end QueryEngine
