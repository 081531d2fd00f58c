import QueryEngine.Operator.Plan
import QueryEngine.Proofs.Operator.Bare

/-!
# Modifications

A modification writes all rows of its input when it is first asked for a row, whether by `hasNext`
or by `next`, and hands out one row, the number of the rows it wrote. So what it does is told by one
traversal of its input (`Operator.writeInput`).
-/

namespace QueryEngine

variable {σ τ : Type}

def countRow (n : Nat) : Row :=
  .ofValues [.integer (Int64.ofNat n)]

namespace Operator

variable [Storage σ τ]

/-- Asked in either way, the operator hands out a row, and after it no other one. What is left
does not depend on the way, except that a row that was only asked for is in the buffer. -/
structure HandsOut (op : Operator τ) (s : σ) (r : Row) (op' : Operator τ) (s' : σ) : Prop where
  next_eq : op.next s = ⟨.ok r, op', s'⟩
  hasNext_eq : op.hasNext s = ⟨.ok true, op'.buffer r, s'⟩
  buffered_eq : (op'.buffer r).next s' = ⟨.ok r, op', s'⟩
  last : ∃ op'', op'.hasNext s' = ⟨.ok false, op'', s'⟩

structure Fails (op : Operator τ) (s : σ) (e : QueryError) (op' : Operator τ) (s' : σ) : Prop where
  next_eq : op.next s = ⟨.error e, op', s'⟩
  hasNext_eq : op.hasNext s = ⟨.error e, op', s'⟩

def pending (change : Modification) (table : τ) (tableSchema : Schema) (input : Operator τ) :
    Operator τ :=
  modify ⟨change, table, tableSchema, false, .ready none⟩ input

def written (change : Modification) (table : τ) (tableSchema : Schema) (input : Operator τ) :
    Operator τ :=
  modify ⟨change, table, tableSchema, true, .ready none⟩ input

variable {change : Modification} {table : τ} {tableSchema : Schema} {input input' : Operator τ}
  {s s' : σ}

theorem forRows_pending (change : Modification) (table : τ) (tableSchema : Schema)
    (input : Operator τ) {α : Type} (visit : Visitor σ α) (a : α)
    (s : σ) :
    (pending change table tableSchema input).forRows visit a s
      = match writeInput ⟨change, table, tableSchema, false, .ready none⟩ input s with
        | ⟨.error e, input', s'⟩ => ⟨.error e, written change table tableSchema input', s'⟩
        | ⟨.ok n, input', s'⟩ =>
          match visit (countRow n) a s' with
          | (.ok (.yield a'), s'') => (written change table tableSchema input').forRows visit a' s''
          | (answer, s'') => ⟨answer, written change table tableSchema input', s''⟩ := by
  rw [pending, forRows_modify]
  dsimp only [Lookahead.resume]
  rcases writeInput ⟨change, table, tableSchema, false, .ready none⟩ input s with
    ⟨e | n, input', s'⟩
  · rfl
  · dsimp only [countRow]
    rcases visit (.ofValues [.integer (Int64.ofNat n)]) a s' with ⟨e | ⟨a'⟩ | ⟨a'⟩, s''⟩ <;> rfl

theorem pull_pending (change : Modification) (table : τ) (tableSchema : Schema)
    (input : Operator τ) (s : σ) :
    (pending change table tableSchema input).pull s
      = ((writeInput ⟨change, table, tableSchema, false, .ready none⟩ input s).map
          fun n ↦ some (countRow n)).mapNode (written change table tableSchema) := by
  rw [pull, forRows_pending]
  rcases writeInput ⟨change, table, tableSchema, false, .ready none⟩ input s
    with ⟨e | n, input', s'⟩ <;> rfl

theorem handsOut_pending {n : Nat}
    (hwrite : writeInput ⟨change, table, tableSchema, false, .ready none⟩ input s
      = ⟨.ok n, input', s'⟩) :
    (pending change table tableSchema input).HandsOut s (countRow n)
      (written change table tableSchema input') s' := by
  have hpull := pull_pending change table tableSchema input s
  rw [hwrite] at hpull
  refine ⟨?_, ?_, rfl, ⟨_, rfl⟩⟩
  · rw [next, hpull]
    rfl
  · rw [hasNext, hpull]
    rfl

theorem fails_pending {e : QueryError}
    (hwrite : writeInput ⟨change, table, tableSchema, false, .ready none⟩ input s
      = ⟨.error e, input', s'⟩) :
    (pending change table tableSchema input).Fails s e
      (written change table tableSchema input') s' := by
  have hpull := pull_pending change table tableSchema input s
  rw [hwrite] at hpull
  constructor
  · rw [next, hpull]
    rfl
  · rw [hasNext, hpull]
    rfl

/-! ## Building, opening and rewinding -/

theorem build_modify {plan : Plan τ} {op : Operator τ}
    (built : (Plan.modify change table plan).build s = (.ok op, s')) :
    ∃ input tableSchema, plan.build s = (.ok input, s')
      ∧ Storage.tableSchema s' table = .ok tableSchema ∧ input.schema.Fits tableSchema
      ∧ op = modify ⟨change, table, tableSchema, false, .closed⟩ input := by
  rw [Plan.build] at built
  rcases hinput : plan.build s with ⟨e | input, s₁⟩
  · rw [hinput] at built
    cases built
  · rw [hinput] at built
    obtain ⟨hmodify, rfl⟩ := Prod.mk.inj built
    rw [buildModify] at hmodify
    split at hmodify
    · cases hmodify
    · next tableSchema hschema =>
      rw [checkInput] at hmodify
      split at hmodify
      · next fits =>
        cases hmodify
        exact ⟨input, tableSchema, rfl, hschema, fits, rfl⟩
      · cases hmodify

theorem openOn_modify (change : Modification) (table : τ) (tableSchema : Schema)
    (input : Operator τ) (s : σ) :
    (modify ⟨change, table, tableSchema, false, .closed⟩ input).openOn s
      = (input.openOn s).mapNode (pending change table tableSchema) :=
  rfl

/-- Rewinding does not depend on where the modification is, as long as it is open. -/
theorem rewindOn_modify {b : Batch τ} (isOpen : b.look ≠ .closed) (input : Operator τ) (s : σ) :
    (modify b input).rewindOn s
      = (input.rewindOn s).mapNode (pending b.change b.table b.tableSchema) := by
  rw [rewindOn]
  cases hlook : b.look with
  | closed => exact absurd hlook isOpen
  | ready buffered => rfl
  | exhausted => rfl

/-- Once a modification has handed out its row, holds it in its buffer or has come to its end, it is
open, and nothing else tells it from one that was just written. -/
theorem rewindOn_handedOut {asked : Operator τ} {r : Row}
    (hasked : asked = written change table tableSchema input
      ∨ asked = (written change table tableSchema input).buffer r
      ∨ asked = ((written change table tableSchema input).hasNext s').node) (s : σ) :
    asked.rewindOn s = (input.rewindOn s).mapNode (pending change table tableSchema) := by
  have hrewind : ∀ look, look ≠ .closed →
      (modify ⟨change, table, tableSchema, true, look⟩ input).rewindOn s
        = (input.rewindOn s).mapNode (pending change table tableSchema) :=
    fun look isOpen ↦ rewindOn_modify isOpen input s
  rcases hasked with rfl | rfl | rfl
  · exact hrewind (.ready none) nofun
  · exact hrewind (.ready (some r)) nofun
  · exact hrewind .exhausted nofun

end Operator

end QueryEngine
