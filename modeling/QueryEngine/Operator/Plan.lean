import QueryEngine.Operator.Lifecycle

/-!
# Building trees

A plan says which tree to build. Building it asks the storage for the schemas of the tables it
names, and checks what can be checked before any row is seen: that listed rows conform to their
schema, that the rows to be written are of the schema of their table, and that an aggregation names
columns there are. An aggregation also computes its groups. Inputs are built before the operators
that take them, and operators that exist already may be made part of a new tree.

The inputs of an operator can be exchanged later on (`Operator.replaceChildren`). The new ones
undergo the same checks, and an operator that refuses them keeps its old ones.
-/

namespace QueryEngine

variable {σ τ : Type}

/-- A tree of operators to be built. -/
inductive Plan (τ : Type) where
  | values (schema : Schema) (rows : List Row)
  | scan (table : τ)
  | filter (predicate : Predicate) (input : Plan τ)
  | modify (change : Modification) (table : τ) (input : Plan τ)
  | aggregate (spec : Aggregation) (input : Plan τ)
  /-- An operator that has been built before, in whatever state it is. -/
  | operator (op : Operator τ)

namespace Operator

variable [Storage σ τ]

/-- Accepts an input whose rows are of the schema of the table they are written to. -/
def checkInput (σ : Type) [Storage σ τ] (table : τ) (tableSchema : Schema) (input : Operator τ) :
    Except QueryError Unit :=
  if input.schema.Fits tableSchema then .ok ()
  else .error (.inputMismatch input.schema (Storage.tableName σ table) tableSchema)

def buildModify (change : Modification) (table : τ) (input : Operator τ) (s : σ) :
    Except QueryError (Operator τ) :=
  match Storage.tableSchema s table with
  | .error e => .error (.storage e)
  | .ok schema =>
    (checkInput σ table schema input).map fun _ ↦
      modify ⟨change, table, schema, false, .closed⟩ input

/-- Builds an aggregation. If it cannot be built, its input is lost. -/
def buildAggregate (spec : Aggregation) (input : Operator τ) (s : σ) :
    Except QueryError (Operator τ) × σ :=
  match spec.schema input.schema with
  | .error e => (.error e, s)
  | .ok schema =>
    match input.groupsOf spec schema s with
    | ⟨.ok groups, input', s'⟩ => (.ok (aggregate spec schema (some groups) input'), s')
    | ⟨.error e, _, s'⟩ => (.error e, s')

/-- Exchanges the inputs of an operator for others and answers with the old ones. -/
def replaceChildren (op : Operator τ) (children : List (Operator τ)) (s : σ) :
    Reply (Operator τ) σ (List (Operator τ)) :=
  match op, children with
  | values _, [] | scan _, [] => ⟨.ok [], op, s⟩
  | filter p look input, [child] => ⟨.ok [input], filter p look child, s⟩
  | modify b input, [child] =>
    match checkInput σ b.table b.tableSchema child with
    | .ok () => ⟨.ok [input], modify b child, s⟩
    | .error e => ⟨.error e, op, s⟩
  | aggregate spec _ _ input, [child] =>
    match spec.schema child.schema with
    | .error e => ⟨.error e, op, s⟩
    | .ok schema =>
      match child.groupsOf spec schema s with
      | ⟨.ok groups, child', s'⟩ => ⟨.ok [input], aggregate spec schema (some groups) child', s'⟩
      | ⟨.error e, _, s'⟩ => ⟨.error e, op, s'⟩
  | op, children => ⟨.error (.childCount op.label op.children.length children.length), op, s⟩

end Operator

/-- Builds the tree that a plan describes. -/
def Plan.build [Storage σ τ] : Plan τ → σ → Except QueryError (Operator τ) × σ
  | values schema rows, s => ((Values.ofRows schema rows).map .values, s)
  | scan table, s =>
    match Storage.tableSchema s table with
    | .ok schema => (.ok (.scan (.ofTable table schema)), s)
    | .error e => (.error (.storage e), s)
  | filter p input, s =>
    match input.build s with
    | (.ok op, s') => (.ok (.filter p .closed op), s')
    | (.error e, s') => (.error e, s')
  | modify change table input, s =>
    match input.build s with
    | (.ok op, s') => (op.buildModify change table s', s')
    | (.error e, s') => (.error e, s')
  | aggregate spec input, s =>
    match input.build s with
    | (.ok op, s') => op.buildAggregate spec s'
    | (.error e, s') => (.error e, s')
  | operator op, s => (.ok op, s)

end QueryEngine
