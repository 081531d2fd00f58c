import QueryEngine.Proofs.Operator.Calls
import QueryEngine.Proofs.Operator.Listing
import QueryEngine.Proofs.Operator.Upholds

/-!
# Filters over a scan

A stack of filters over the scan of a table hands on the rows of the table, and all of them conform
to the schema of the table. This still holds if the table is written to while it is read, or between
two requests to the stack, as no write changes a schema. `Operator.Sifted` says so of the rows that
the stack has in hand.

## Where a predicate can fail

Whether a predicate can be evaluated on a row depends on the schema alone. If all predicates of the
stack suit the schema (`Operator.Suited`), none of them ever fails. If one does not, no row gets
past it, and none has ever got into a buffer above it; so the visitor at the top is not reached, and
what it might do has no bearing (`Sifted.forRows_of_unsuited`).
-/

namespace QueryEngine

variable {σ τ ν α : Type}

variable {schema : Schema} {visit : Visitor σ α} {inv : α → σ → Prop}
  {fails : QueryError → σ → Prop} {a : α} {s : σ}

/-! ## Predicates -/

namespace Predicate

/-- A predicate that can be evaluated on a row of a schema suits the schema. -/
theorem suits_of_holds {p : Predicate} {r : Row} (conforms : r.Conforms schema) {b : Bool}
    (h : p.holds r = .ok b) : p.Suits schema := by
  have htypes : schema.types[p.field]? = r.types[p.field]? :=
    congrArg (·[p.field]?) conforms.symm
  rw [Suits, htypes, Row.types, List.getElem?_map]
  rw [holds, Row.get] at h
  rcases hv : r.values[p.field]? with _ | v
  · rw [hv] at h
    cases h
  · rw [hv] at h
    obtain ⟨field, op, operand⟩ := p
    cases v <;> cases operand <;> first | rfl | (cases op <;> cases h)

/-- The guard of a predicate upholds what the visitor behind it does, if the predicate suits the
schema or if its failure is no harm. -/
theorem guard_upholds {p : Predicate}
    (evaluates : p.Suits schema ∨ ∀ e a s, e.cause? = none → inv a s → fails e s)
    (upholds : visit.Upholds (·.Conforms schema) inv fails) :
    (p.guard visit).Upholds (·.Conforms schema) inv fails := by
  intro r a s conforms hinv
  rw [guard]
  rcases hholds : p.holds r with e | (_ | _)
  · rcases evaluates with suits | harmless
    · obtain ⟨b, hb⟩ := suits.evaluates conforms
      rw [hholds] at hb
      cases hb
    · exact harmless e a s (cause?_eq_none (p.blame_holds r) hholds) hinv
  · exact hinv
  · exact upholds r a s conforms hinv

theorem guard_upholds_of_not_suits {p : Predicate} (unsuited : ¬ p.Suits schema)
    (harmless : ∀ e a s, e.cause? = none → inv a s → fails e s) (visit : Visitor σ α) :
    (p.guard visit).Upholds (·.Conforms schema) inv fails := by
  intro r a s conforms hinv
  rw [guard]
  rcases hholds : p.holds r with e | b
  · exact harmless e a s (cause?_eq_none (p.blame_holds r) hholds) hinv
  · exact absurd (suits_of_holds conforms hholds) unsuited

end Predicate

/-! ## Stacks -/

namespace Operator

def Suited (schema : Schema) : Operator τ → Prop
  | filter p _ input => p.Suits schema ∧ input.Suited schema
  | _ => True

/-- A stack of filters over the scan of a table, with rows in hand that conform to the schema. A row
in the buffer of a filter has got past its predicate and the ones below, and the filters below an
open one are open. -/
def Sifted (table : τ) (schema : Schema) : Operator τ → Prop
  | scan c =>
    c.table = table ∧ (∀ r, c.look = .ready (some r) → r.Conforms schema)
      ∧ ∀ r ∈ c.pending, r.Conforms schema
  | filter p look input =>
    input.Sifted table schema ∧ (look ≠ .closed → input.look ≠ .closed)
      ∧ ∀ r, look = .ready (some r) →
        r.Conforms schema ∧ (filter p look input).Suited schema
  | values _ | modify .. | aggregate .. => False

def Sifting (table : τ) (schema : Schema) (op : Operator τ) : Prop :=
  op.Sifted table schema ∧ op.look ≠ .closed

theorem suited_bare (op : Operator τ) : op.bare.Suited schema ↔ op.Suited schema := by
  induction op with
  | filter p look input ih => exact and_congr_right fun _ ↦ ih
  | values v => rfl
  | scan c => rfl
  | modify b input => rfl
  | aggregate spec schema groups input => rfl

variable [Storage σ τ] {table : τ} {op : Operator τ}

theorem suited_forRows (op : Operator τ) (visit : Visitor σ α) (a : α) (s : σ) :
    (op.forRows visit a s).node.Suited schema ↔ op.Suited schema := by
  rw [← suited_bare, bare_forRows, suited_bare]

/-! ## Traversals -/

private theorem scan_upholds {c : Scan τ} (sifting : (scan c).Sifting table schema)
    (reads : Reads table (·.Conforms schema) inv fails)
    (upholds : visit.Upholds (·.Conforms schema) inv fails) (hinv : inv a s) :
    ((scan c).forRows visit a s).Upholds (Sifting table schema) inv fails := by
  obtain ⟨⟨rfl, buffered, pending⟩, isOpen⟩ := sifting
  have hscan : (c.forRows visit a s).Upholds
      (fun c' ↦ (scan c').Sifting c.table schema) inv fails := by
    refine Lookahead.resume_upholds (fun h ↦ absurd h isOpen) ⟨⟨rfl, nofun, pending⟩, nofun⟩
      ⟨⟨rfl, nofun, pending⟩, nofun⟩ buffered upholds hinv fun a s hinv ↦ ?_
    have hrows := visitRows_upholds upholds pending hinv
    rcases hvisited : visitRows visit c.pending a s with ⟨e | ⟨a'⟩ | ⟨a'⟩, rest, s'⟩
    · rw [hvisited] at hrows
      exact ⟨⟨⟨rfl, nofun, hrows.node⟩, nofun⟩, hrows.ends⟩
    · rw [hvisited] at hrows
      exact ⟨⟨⟨rfl, nofun, hrows.node⟩, nofun⟩, hrows.ends⟩
    · rw [hvisited] at hrows
      have hpages := visitPages_upholds reads upholds (c.pageCount - c.nextPage) c.nextPage
        hrows.ends
      exact ⟨⟨⟨rfl, fun r hr ↦ absurd hr (Lookahead.after_ne_buffered _ r), hpages.node⟩,
        Lookahead.after_ne_closed _⟩, hpages.ends⟩
  exact ⟨hscan.node, hscan.ends⟩

private theorem sifting_filter (p : Predicate) {look : Lookahead} {input : Operator τ}
    (sifting : input.Sifting table schema) (isOpen : look ≠ .closed)
    (empty : ∀ r, look ≠ .ready (some r)) : (filter p look input).Sifting table schema :=
  ⟨⟨sifting.1, fun _ ↦ sifting.2, fun r hr ↦ absurd hr (empty r)⟩, isOpen⟩

omit [Storage σ τ] in
private theorem filter_after_upholds (p : Predicate)
    {reply : Reply (Operator τ) σ (ForInStep α)}
    (h : reply.Upholds (Sifting table schema) inv fails) :
    Reply.Upholds ⟨reply.answer, filter p (.after reply.answer) reply.node, reply.store⟩
      (Sifting table schema) inv fails :=
  ⟨sifting_filter p h.node (Lookahead.after_ne_closed _) (Lookahead.after_ne_buffered _), h.ends⟩

/-- A traversal of an open stack upholds what its visitor does, if the predicates suit the schema or
if their failure is no harm. -/
theorem Sifting.forRows_upholds (sifting : op.Sifting table schema)
    (evaluates : op.Suited schema ∨ ∀ e a s, e.cause? = none → inv a s → fails e s)
    (reads : Reads table (·.Conforms schema) inv fails)
    (upholds : visit.Upholds (·.Conforms schema) inv fails) (hinv : inv a s) :
    (op.forRows visit a s).Upholds (Sifting table schema) inv fails := by
  induction op generalizing a s visit with
  | scan c => exact scan_upholds sifting reads upholds hinv
  | filter p look input ih =>
    obtain ⟨⟨sifted, opens, buffered⟩, isOpen⟩ := sifting
    have hinput : input.Sifting table schema := ⟨sifted, opens isOpen⟩
    have hp : p.Suits schema ∨ ∀ e a s, e.cause? = none → inv a s → fails e s :=
      evaluates.imp_left And.left
    refine Lookahead.resume_upholds (fun h ↦ absurd h isOpen) (sifting_filter p hinput nofun nofun)
      (sifting_filter p hinput nofun nofun) (fun r hr ↦ (buffered r hr).1) upholds hinv
      fun a s hinv ↦ filter_after_upholds p ?_
    exact ih hinput (evaluates.imp_left And.right) (Predicate.guard_upholds hp upholds) hinv
  | values v => exact sifting.1.elim
  | modify b input => exact sifting.1.elim
  | aggregate spec schema groups input => exact sifting.1.elim

/-- If a predicate of an open stack does not suit the schema, a traversal does not reach its
visitor. -/
theorem Sifting.forRows_of_unsuited (sifting : op.Sifting table schema)
    (unsuited : ¬ op.Suited schema)
    (harmless : ∀ e a s, e.cause? = none → inv a s → fails e s)
    (reads : Reads table (·.Conforms schema) inv fails) (visit : Visitor σ α) (hinv : inv a s) :
    (op.forRows visit a s).Upholds (Sifting table schema) inv fails := by
  induction op generalizing a s visit with
  | scan c => exact absurd trivial unsuited
  | filter p look input ih =>
    obtain ⟨⟨sifted, opens, buffered⟩, isOpen⟩ := sifting
    have hinput : input.Sifting table schema := ⟨sifted, opens isOpen⟩
    rcases look with _ | (_ | r) | _
    · exact absurd rfl isOpen
    · refine filter_after_upholds p ?_
      by_cases suits : p.Suits schema
      · exact ih hinput (fun hsuited ↦ unsuited ⟨suits, hsuited⟩) (p.guard visit) hinv
      · exact hinput.forRows_upholds (.inr harmless) reads
          (Predicate.guard_upholds_of_not_suits suits harmless visit) hinv
    · exact absurd (buffered r rfl).2 unsuited
    · exact ⟨sifting_filter p hinput nofun nofun, hinv⟩
  | values v => exact sifting.1.elim
  | modify b input => exact sifting.1.elim
  | aggregate spec schema groups input => exact sifting.1.elim

/-! ## The lifecycle -/

theorem Sifted.openOn (sifted : op.Sifted table schema) (s : σ) :
    (op.openOn s).node.Sifting table schema := by
  by_cases isOpen : op.look = .closed
  · induction op with
    | scan c =>
      obtain ⟨rfl, -, pending⟩ := sifted
      have hlook : c.look = .closed := isOpen
      rw [Operator.openOn, hlook]
      dsimp only [Lookahead.isClosed, Scan.reset]
      rcases (Storage.pageCount c.table s : Except StorageError Nat × σ) with ⟨e | n, s'⟩
      · exact ⟨⟨rfl, Lookahead.forall_ready_none, pending⟩, Lookahead.ready_ne_closed none⟩
      · exact ⟨⟨rfl, Lookahead.forall_ready_none, List.forall_mem_nil _⟩,
          Lookahead.ready_ne_closed none⟩
    | filter p look input ih =>
      have hlook : look = .closed := isOpen
      subst hlook
      refine sifting_filter p ?_ (Lookahead.ready_ne_closed none) Lookahead.forall_ready_none
      by_cases hinput : input.look = .closed
      · exact ih sifted.1 hinput
      · rw [openOn_of_open hinput]
        exact ⟨sifted.1, hinput⟩
    | values v => exact sifted.elim
    | modify b input => exact sifted.elim
    | aggregate spec schema groups input => exact sifted.elim
  · rw [openOn_of_open isOpen]
    exact ⟨sifted, isOpen⟩

theorem Sifting.rewindOn (sifting : op.Sifting table schema) (s : σ) :
    (op.rewindOn s).node.Sifting table schema := by
  induction op with
  | scan c =>
    obtain ⟨⟨rfl, -, pending⟩, isOpen⟩ := sifting
    have hlook : c.look ≠ .closed := isOpen
    rw [Operator.rewindOn, Lookahead.rewound_of_open Scan.label hlook]
    dsimp only [Scan.reset]
    rcases (Storage.pageCount c.table s : Except StorageError Nat × σ) with ⟨e | n, s'⟩
    · exact ⟨⟨rfl, Lookahead.forall_ready_none, pending⟩, Lookahead.ready_ne_closed none⟩
    · exact ⟨⟨rfl, Lookahead.forall_ready_none, List.forall_mem_nil _⟩,
        Lookahead.ready_ne_closed none⟩
  | filter p look input ih =>
    obtain ⟨⟨sifted, opens, -⟩, isOpen⟩ := sifting
    have hlook : look ≠ .closed := isOpen
    rw [Operator.rewindOn, Lookahead.rewound_of_open "Filter" hlook]
    exact sifting_filter p (ih ⟨sifted, opens isOpen⟩) (Lookahead.ready_ne_closed none)
      Lookahead.forall_ready_none
  | values v => exact sifting.1.elim
  | modify b input => exact sifting.1.elim
  | aggregate spec schema groups input => exact sifting.1.elim

theorem Sifted.rewindOn (sifted : op.Sifted table schema) (s : σ) :
    (op.rewindOn s).node.Sifted table schema := by
  by_cases isOpen : op.look = .closed
  · rw [rewindOn_of_closed isOpen]
    exact sifted
  · exact (Sifting.rewindOn ⟨sifted, isOpen⟩ s).1

omit [Storage σ τ] in
theorem Sifted.close (sifted : op.Sifted table schema) : op.close.Sifted table schema := by
  induction op with
  | scan c => exact ⟨sifted.1, nofun, nofun⟩
  | filter p look input ih => exact ⟨ih sifted.1, fun h ↦ absurd rfl h, nofun⟩
  | values v => exact sifted.elim
  | modify b input => exact sifted.elim
  | aggregate spec schema groups input => exact sifted.elim

omit [Storage σ τ] in
theorem Sifting.buffer (sifting : op.Sifting table schema) {r : Row} (conforms : r.Conforms schema)
    (suited : op.Suited schema) : (op.buffer r).Sifting table schema := by
  have hlook : ∀ {r' : Row}, Lookahead.ready (some r) = .ready (some r') → r'.Conforms schema := by
    rintro r' h
    cases h
    exact conforms
  cases op with
  | scan c => exact ⟨⟨sifting.1.1, fun _ ↦ hlook, sifting.1.2.2⟩, nofun⟩
  | filter p look input =>
    exact ⟨⟨sifting.1.1, fun _ ↦ sifting.1.2.1 sifting.2, fun _ h ↦ ⟨hlook h, suited⟩⟩, nofun⟩
  | values v => exact sifting.1.elim
  | modify b input => exact sifting.1.elim
  | aggregate spec schema groups input => exact sifting.1.elim

end Operator

end QueryEngine
