import QueryEngine.Operator.Basic
import QueryEngine.Storage.Interface

/-!
# Iteration

Everything that takes rows out of an operator is one traversal, `Operator.forRows`. It hands the
rows to a visitor, one after the other, until the visitor stops or the rows come to an end. Taking
one row is a visitor that stops at once, and collecting all rows is one that never does. Inside the
tree, a filter passes to its input a visitor that looks at the predicate first, and a delete one
that removes the row; so the traversal is structural recursion on the tree, and the rows of an
operator are fetched exactly when its visitor is waiting for them.

## What is left behind

A traversal may fail in the middle: a page cannot be read, a predicate meets a value of the wrong
type, the visitor itself fails. The reply therefore holds, besides the answer, the operator and the
storage as they are then, with every row handed out so far taken from the one and every write made
so far standing in the other. A later traversal goes on from there.
-/

namespace QueryEngine

variable {σ τ ν α β : Type}

/-! ## Visitors and replies -/

/-- What is done with each row, to a running value and to the storage. The answer tells whether to
go on with the next row. -/
abbrev Visitor (σ α : Type) := Row → α → σ → Except QueryError (ForInStep α) × σ

/-- An answer, with the operator and the storage that are left. -/
structure Reply (ν σ α : Type) where
  answer : Except QueryError α
  node : ν
  store : σ

namespace Reply

def map (f : α → β) (r : Reply ν σ α) : Reply ν σ β :=
  ⟨r.answer.map f, r.node, r.store⟩

def mapNode {ν' : Type} (f : ν → ν') (r : Reply ν σ α) : Reply ν' σ α :=
  ⟨r.answer, f r.node, r.store⟩

end Reply

def takeFirst : Visitor σ (Option Row) :=
  fun r _ s ↦ (.ok (.done (some r)), s)

/-- Keeps every row, the last one foremost. -/
def gather : Visitor σ (List Row) :=
  fun r rows s ↦ (.ok (.yield (r :: rows)), s)

/-- Takes every row into a grouping. -/
def mergeRow : Visitor σ Grouping :=
  fun r g s ↦ ((g.merge r).map .yield, s)

/-- Passes on the rows that satisfy a predicate. -/
def Predicate.guard (p : Predicate) (visit : Visitor σ α) : Visitor σ α :=
  fun r a s ↦
    match p.holds r with
    | .ok true => visit r a s
    | .ok false => (.ok (.yield a), s)
    | .error e => (.error e, s)

/-- Deletes every row from the storage and counts them. -/
def removeRow [Storage σ τ] (table : τ) : Visitor σ Nat :=
  fun r n s ↦
    match Storage.delete table r s with
    | (.ok (), s') => (.ok (.yield (n + 1)), s')
    | (.error e, s') => (.error (.modificationFailed n e), s')

/-- Inserts rows in order and counts them, on top of those counted before. -/
def storeRows [Storage σ τ] (table : τ) : List Row → Nat → σ → Except QueryError Nat × σ
  | [], n, s => (.ok n, s)
  | r :: rest, n, s =>
    match Storage.insert table r s with
    | (.ok _, s') => storeRows table rest (n + 1) s'
    | (.error e, s') => (.error (.modificationFailed n e), s')

/-! ## The traversal of lists and of pages -/

/-- Visits rows in order. The node of the reply is the list of rows not visited. -/
def visitRows (visit : Visitor σ α) : List Row → α → σ → Reply (List Row) σ (ForInStep α)
  | [], a, s => ⟨.ok (.yield a), [], s⟩
  | r :: rest, a, s =>
    match visit r a s with
    | (.ok (.yield a'), s') => visitRows visit rest a' s'
    | (answer, s') => ⟨answer, rest, s'⟩

/-- Visits the rows of a number of pages of a table, from a given page on. The node of the reply is
the page to go on with, after the rows not visited of the page before it. -/
def visitPages [Storage σ τ] (table : τ) (visit : Visitor σ α) :
    Nat → Nat → α → σ → Reply (Nat × List Row) σ (ForInStep α)
  | 0, next, a, s => ⟨.ok (.yield a), (next, []), s⟩
  | left + 1, next, a, s =>
    match Storage.readPage table (UInt32.ofNat next) s with
    | (.error e, s') => ⟨.error (.storage e), (next, []), s'⟩
    | (.ok rows, s') =>
      match visitRows visit rows a s' with
      | ⟨.ok (.yield a'), _, s''⟩ => visitPages table visit left (next + 1) a' s''
      | ⟨answer, rest, s''⟩ => ⟨answer, (next + 1, rest), s''⟩

/-! ## The traversal of trees -/

namespace Lookahead

/-- The state after a traversal: exhausted if it came to the end of the rows. -/
def after : Except QueryError (ForInStep α) → Lookahead
  | .ok (.yield _) => exhausted
  | _ => ready none

/-- Begins a traversal. A closed operator refuses it, an exhausted one has no rows, and a buffered
row comes before those that `rest` fetches; `node` is the operator in a given state. -/
def resume (look : Lookahead) (label : String) (visit : Visitor σ α) (a : α) (s : σ)
    (node : Lookahead → ν) (rest : α → σ → Reply ν σ (ForInStep α)) : Reply ν σ (ForInStep α) :=
  match look with
  | closed => ⟨.error (.notOpen label), node closed, s⟩
  | exhausted => ⟨.ok (.yield a), node exhausted, s⟩
  | ready none => rest a s
  | ready (some r) =>
    match visit r a s with
    | (.ok (.yield a'), s') => rest a' s'
    | (answer, s') => ⟨answer, node (ready none), s'⟩

end Lookahead

def Values.forRows (v : Values) (visit : Visitor σ α) (a : α) (s : σ) :
    Reply Values σ (ForInStep α) :=
  v.look.resume Values.label visit a s (fun look ↦ { v with look }) fun a s ↦
    let r := visitRows visit v.pending a s
    ⟨r.answer, { v with pending := r.node, look := .after r.answer }, r.store⟩

/-- Visits the rows of a table: what is left of the page that was read last, then page after page.
A page that cannot be read is the next one to be read again. -/
def Scan.forRows [Storage σ τ] (c : Scan τ) (visit : Visitor σ α) (a : α) (s : σ) :
    Reply (Scan τ) σ (ForInStep α) :=
  c.look.resume Scan.label visit a s (fun look ↦ { c with look }) fun a s ↦
    match visitRows visit c.pending a s with
    | ⟨.ok (.yield a'), _, s'⟩ =>
      let r := visitPages c.table visit (c.pageCount - c.nextPage) c.nextPage a' s'
      ⟨r.answer,
        { c with nextPage := r.node.1, pending := r.node.2, look := .after r.answer }, r.store⟩
    | ⟨answer, rest, s'⟩ => ⟨answer, { c with pending := rest, look := .after answer }, s'⟩

namespace Operator

variable [Storage σ τ]

/-- Visits the rows of an operator.

A modification writes all rows of its input before it hands out their number, and does so once: if
it fails, the rows are not taken up again. An insert collects its input before it writes, so that it
never reads back what it inserts; a delete removes each row as it comes. -/
def forRows : Operator τ → {α : Type} → Visitor σ α → α → σ → Reply (Operator τ) σ (ForInStep α)
  | values v, _, visit, a, s => (v.forRows visit a s).mapNode values
  | scan c, _, visit, a, s => (c.forRows visit a s).mapNode scan
  | filter p look input, _, visit, a, s =>
    look.resume "Filter" visit a s (fun look ↦ filter p look input) fun a s ↦
      let r := input.forRows (p.guard visit) a s
      ⟨r.answer, filter p (.after r.answer) r.node, r.store⟩
  | modify b input, _, visit, a, s =>
    b.look.resume b.change.label visit a s (fun look ↦ modify { b with look } input) fun a s ↦
      if b.done then ⟨.ok (.yield a), modify { b with look := .exhausted } input, s⟩
      else
        let written : Reply (Operator τ) σ Nat :=
          match b.change with
          | .insert =>
            match input.forRows gather [] s with
            | ⟨.ok rows, input', s'⟩ =>
              let (answer, s'') := storeRows b.table rows.value.reverse 0 s'
              ⟨answer, input', s''⟩
            | ⟨.error e, input', s'⟩ => ⟨.error e, input', s'⟩
          | .delete => (input.forRows (removeRow b.table) 0 s).map ForInStep.value
        match written with
        | ⟨.error e, input', s'⟩ =>
          ⟨.error e, modify { b with done := true, look := .ready none } input', s'⟩
        | ⟨.ok n, input', s'⟩ =>
          let (answer, s'') := visit (.ofValues [.integer (Int64.ofNat n)]) a s'
          ⟨answer, modify { b with done := true, look := .after answer } input', s''⟩
  | aggregate spec schema none input, _, _, _, s =>
    ⟨.error (.notOpen "Aggregate"), aggregate spec schema none input, s⟩
  | aggregate spec schema (some groups) input, _, visit, a, s =>
    (groups.forRows visit a s).mapNode fun groups' ↦ aggregate spec schema (some groups') input

/-! ## Taking rows -/

/-- The operator with a row in its buffer. -/
def buffer (r : Row) : Operator τ → Operator τ
  | values v => values { v with look := .ready (some r) }
  | scan c => scan { c with look := .ready (some r) }
  | filter p _ input => filter p (.ready (some r)) input
  | modify b input => modify { b with look := .ready (some r) } input
  | aggregate spec schema groups input =>
    aggregate spec schema (groups.map fun v ↦ { v with look := .ready (some r) }) input

/-- Takes the next row, if there is one. -/
def pull (op : Operator τ) (s : σ) : Reply (Operator τ) σ (Option Row) :=
  (op.forRows takeFirst none s).map ForInStep.value

/-- Tells whether there is a next row, which stays to be taken. -/
def hasNext (op : Operator τ) (s : σ) : Reply (Operator τ) σ Bool :=
  match op.pull s with
  | ⟨.ok (some r), op', s'⟩ => ⟨.ok true, op'.buffer r, s'⟩
  | ⟨.ok none, op', s'⟩ => ⟨.ok false, op', s'⟩
  | ⟨.error e, op', s'⟩ => ⟨.error e, op', s'⟩

/-- Takes the next row, which has to be there. -/
def next (op : Operator τ) (s : σ) : Reply (Operator τ) σ Row :=
  match op.pull s with
  | ⟨.ok (some r), op', s'⟩ => ⟨.ok r, op', s'⟩
  | ⟨.ok none, op', s'⟩ => ⟨.error (.noMoreRows op.rowLabel), op', s'⟩
  | ⟨.error e, op', s'⟩ => ⟨.error e, op', s'⟩

def collect (op : Operator τ) (s : σ) : Reply (Operator τ) σ (List Row) :=
  (op.forRows gather [] s).map fun rows ↦ rows.value.reverse

end Operator

end QueryEngine
