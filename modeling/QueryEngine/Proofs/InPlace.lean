import QueryEngine.Error

/-!
# Work in place

A definition that answers with the next state, or with an error and no state, cannot leave half of
its work behind. A state that is changed in place, one write after the other, can: a failure keeps
what was written before it. Work in place is told from an attempt at the next state by comparing
what both leave (`InPlace.allOrNothing`).
-/

namespace QueryEngine

/-- Work on a state that may fail. What was written before the failure stays. -/
abbrev InPlace (σ : Type) := ExceptT QueryError (StateM σ)

/-- The answer of work in place, and the state that it leaves. -/
def InPlace.outcome {σ : Type} (work : InPlace σ Unit) (s : σ) : Except QueryError Unit × σ :=
  work.run.run s

/-- The answer and the state that belong to an attempt at the next state. -/
def InPlace.allOrNothing {σ : Type} (next : Except QueryError σ) (s : σ) :
    Except QueryError Unit × σ :=
  match next with
  | .ok s' => (.ok (), s')
  | .error e => (.error e, s)

end QueryEngine
