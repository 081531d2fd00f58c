import QueryEngine.Proofs.Operator.Bare

/-!
# Invariants of a traversal

A traversal keeps an invariant of the running value and of the storage until it fails in a given way
(`Reply.Upholds`), if the visitor does and the page reads do. The visitor has to do so only on rows
of a given kind, if these are the rows in hand and on the pages (`Visitor.Upholds`, `Reads`): so
the rules below also tell what is known of the rows that get to a visitor.
-/

namespace QueryEngine

variable {σ τ ν α : Type}

/-! ## Statements -/

/-- The invariant holds of the last value, or there has been a failure of the given kind. -/
def Ends (inv : α → σ → Prop) (fails : QueryError → σ → Prop) :
    Except QueryError (ForInStep α) → σ → Prop
  | .ok last, s => inv last.value s
  | .error e, s => fails e s

/-- On rows of the given kind the visitor keeps the invariant or fails in the given way. -/
def Visitor.Upholds (visit : Visitor σ α) (kind : Row → Prop) (inv : α → σ → Prop)
    (fails : QueryError → σ → Prop) : Prop :=
  ∀ r a s, kind r → inv a s → Ends inv fails (visit r a s).1 (visit r a s).2

/-- A reply with an operator as described, an invariant that still holds, or a failure of the given
kind. -/
structure Reply.Upholds (reply : Reply ν σ (ForInStep α)) (nodes : ν → Prop) (inv : α → σ → Prop)
    (fails : QueryError → σ → Prop) : Prop where
  node : nodes reply.node
  ends : Ends inv fails reply.answer reply.store

/-- Pages are read that hold rows of the given kind, and the invariant is kept, or reading fails in
the given way. -/
structure Reads [Storage σ τ] (table : τ) (kind : Row → Prop) (inv : α → σ → Prop)
    (fails : QueryError → σ → Prop) : Prop where
  served : ∀ page a s rows s', inv a s → Storage.readPage table page s = (.ok rows, s') →
    inv a s' ∧ ∀ r ∈ rows, kind r
  refused : ∀ page a s e s', inv a s → Storage.readPage table page s = (.error e, s') →
    fails (.storage e) s'

/-- What reading does to one running value may be asked of the storage alone. -/
theorem Reads.at {β : Type} [Storage σ τ] {table : τ} {kind : Row → Prop} {inv : α → σ → Prop}
    {fails : QueryError → σ → Prop} (reads : Reads table kind inv fails) (a : α) :
    Reads table kind (fun _ : β ↦ inv a) fails where
  served := fun page _ ↦ reads.served page a
  refused := fun page _ ↦ reads.refused page a

/-! ## Loops over rows and pages -/

variable {kind : Row → Prop} {visit : Visitor σ α} {inv : α → σ → Prop}
  {fails : QueryError → σ → Prop} {a : α} {s : σ}

theorem visitRows_upholds (upholds : visit.Upholds kind inv fails) {rows : List Row}
    (kinds : ∀ r ∈ rows, kind r) (hinv : inv a s) :
    (visitRows visit rows a s).Upholds (fun rest ↦ ∀ r ∈ rest, kind r) inv fails := by
  induction rows generalizing a s with
  | nil => exact ⟨nofun, hinv⟩
  | cons r rows ih =>
    have hvisit := upholds r a s (kinds r List.mem_cons_self) hinv
    have hrest : ∀ r ∈ rows, kind r := fun r hr ↦ kinds r (List.mem_cons_of_mem _ hr)
    rw [visitRows]
    rcases hvisited : visit r a s with ⟨e | ⟨a'⟩ | ⟨a'⟩, s'⟩
    · rw [hvisited] at hvisit
      exact ⟨hrest, hvisit⟩
    · rw [hvisited] at hvisit
      exact ⟨hrest, hvisit⟩
    · rw [hvisited] at hvisit
      exact ih hrest hvisit

theorem visitPages_upholds [Storage σ τ] {table : τ} (reads : Reads table kind inv fails)
    (upholds : visit.Upholds kind inv fails) (left next : Nat) (hinv : inv a s) :
    (visitPages table visit left next a s).Upholds (fun rest ↦ ∀ r ∈ rest.2, kind r) inv
      fails := by
  induction left generalizing next a s with
  | zero => exact ⟨nofun, hinv⟩
  | succ left ih =>
    rw [visitPages]
    rcases hread : Storage.readPage table (UInt32.ofNat next) s with ⟨e | rows, s'⟩
    · exact ⟨nofun, reads.refused _ a s e s' hinv hread⟩
    · obtain ⟨hinv', kinds⟩ := reads.served _ a s rows s' hinv hread
      have hrows := visitRows_upholds upholds kinds hinv'
      dsimp only
      rcases hvisited : visitRows visit rows a s' with ⟨e | ⟨a'⟩ | ⟨a'⟩, rest, s''⟩
      · rw [hvisited] at hrows
        exact ⟨hrows.node, hrows.ends⟩
      · rw [hvisited] at hrows
        exact ⟨hrows.node, hrows.ends⟩
      · rw [hvisited] at hrows
        exact ih (next + 1) hrows.ends

/-! ## Nodes -/

theorem Lookahead.after_ne_buffered (answer : Except QueryError (ForInStep α)) (r : Row) :
    after answer ≠ ready (some r) := by
  rcases answer with e | ⟨a⟩ | ⟨a⟩ <;> exact fun h ↦ nomatch h

theorem Lookahead.forall_closed {P : Row → Prop} (r : Row) (h : closed = ready (some r)) : P r :=
  nomatch h

theorem Lookahead.forall_ready_none {P : Row → Prop} (r : Row) (h : ready none = ready (some r)) :
    P r :=
  nomatch h

theorem Lookahead.forall_exhausted {P : Row → Prop} (r : Row) (h : exhausted = ready (some r)) :
    P r :=
  nomatch h

/-- A traversal that begins at a row in the buffer, or without one, or fails because the operator is
closed. -/
theorem Lookahead.resume_upholds {look : Lookahead} {label : String} {nodes : ν → Prop}
    {node : Lookahead → ν} {rest : α → σ → Reply ν σ (ForInStep α)}
    (hclosed : look = closed → nodes (node closed) ∧ fails (.notOpen label) s)
    (hready : nodes (node (ready none))) (hexhausted : nodes (node exhausted))
    (buffered : ∀ r, look = ready (some r) → kind r) (upholds : visit.Upholds kind inv fails)
    (hinv : inv a s) (hrest : ∀ a s, inv a s → (rest a s).Upholds nodes inv fails) :
    (look.resume label visit a s node rest).Upholds nodes inv fails := by
  rcases look with _ | (_ | r) | _
  · obtain ⟨hnode, hfails⟩ := hclosed rfl
    exact ⟨hnode, hfails⟩
  · exact hrest a s hinv
  · have hvisit := upholds r a s (buffered r rfl) hinv
    rw [resume]
    rcases hvisited : visit r a s with ⟨e | ⟨a'⟩ | ⟨a'⟩, s'⟩
    · rw [hvisited] at hvisit
      exact ⟨hready, hvisit⟩
    · rw [hvisited] at hvisit
      exact ⟨hready, hvisit⟩
    · rw [hvisited] at hvisit
      exact hrest a' s' hvisit
  · exact ⟨hexhausted, hinv⟩

end QueryEngine
