import QueryEngine.Comparison

/-!
# Predicates on rows

A predicate compares a field of a row with a constant, and a join predicate a field of one row with
a field of another. Either fails when a field does not exist or when the types differ.
-/

namespace QueryEngine

/-- A comparison of one field with a constant. -/
structure Predicate where
  field : Nat
  op : Comparison
  operand : Value
deriving DecidableEq

namespace Predicate

def holds (p : Predicate) (r : Row) : Except QueryError Bool :=
  match r.get p.field with
  | .ok v => p.op.evaluate v p.operand
  | .error e => .error e

def render (p : Predicate) : String :=
  "f" ++ toString p.field ++ " " ++ p.op.render ++ " " ++ p.operand.render

/-- A predicate suits a schema when its field is a column of the type of its operand. -/
def Suits (p : Predicate) (s : Schema) : Prop :=
  s.types[p.field]? = some p.operand.type

instance (p : Predicate) (s : Schema) : Decidable (p.Suits s) :=
  inferInstanceAs (Decidable (s.types[p.field]? = some p.operand.type))

end Predicate

/-- A comparison of a field of a left row with a field of a right row. -/
structure JoinPredicate where
  left : Nat
  op : Comparison
  right : Nat
deriving DecidableEq

/-- Whether the predicate holds between two rows; the left field is looked up first. -/
def JoinPredicate.holds (p : JoinPredicate) (l r : Row) : Except QueryError Bool :=
  match l.get p.left with
  | .ok a =>
    match r.get p.right with
    | .ok b => p.op.evaluate a b
    | .error e => .error e
  | .error e => .error e

end QueryEngine
