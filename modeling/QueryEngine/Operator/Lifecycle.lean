import QueryEngine.Operator.Iteration

/-!
# Opening, rewinding and closing

Opening an operator opens its inputs, and so do rewinding and closing. An operator that is open is
left alone by opening it again, its inputs included.

An operator changes its own state before it turns to its inputs or to the storage. When one of these
fails, the operator stays open, with whatever it had fetched before.

## Aggregation

An aggregation is the exception: its groups are computed when it is built, by a pass over its input
that opens the input and closes it again. Opening and rewinding then only set a cursor over the
groups. Closing gives the groups up, and the next opening computes them anew.
-/

namespace QueryEngine

variable {σ τ : Type}

/-! ## Leaves -/

namespace Values

/-- The list, opened at its first row unless it is open. -/
def opened (v : Values) : Values :=
  if v.look.isClosed then { v with pending := v.rows, look := .ready none } else v

def rewound (v : Values) : Except QueryError Values :=
  (v.look.rewound label).map fun look ↦ { v with pending := v.rows, look }

/-- The list, closed. -/
def close (v : Values) : Values :=
  { v with look := .closed }

end Values

namespace Scan

/-- Counts the pages of the table and goes back to the first one. -/
def reset [Storage σ τ] (c : Scan τ) (s : σ) : Reply (Scan τ) σ Unit :=
  match Storage.pageCount c.table s with
  | (.ok n, s') => ⟨.ok (), { c with pageCount := n, nextPage := 0, pending := [] }, s'⟩
  | (.error e, s') => ⟨.error (.storage e), c, s'⟩

/-- The scan, closed; what is left of the page in hand is dropped. -/
def close (c : Scan τ) : Scan τ :=
  { c with pending := [], look := .closed }

end Scan

namespace Operator

/-- The operator, closed, and its inputs with it. -/
def close : Operator τ → Operator τ
  | values v => values v.close
  | scan c => scan c.close
  | filter p _ input => filter p .closed input.close
  | modify b input => modify { b with done := false, look := .closed } input.close
  | aggregate spec schema _ input => aggregate spec schema none input.close

variable [Storage σ τ]

/-- Computes the groups of an aggregation over an input, which `start` opens. The input is closed
again, unless it could not be opened. -/
def groupInput (spec : Aggregation) (schema : Schema) (input : Operator τ)
    (start : σ → Reply (Operator τ) σ Unit) (s : σ) : Reply (Operator τ) σ Values :=
  match Grouping.ofSchema input.schema spec with
  | .error e => ⟨.error e, input, s⟩
  | .ok g =>
    match start s with
    | ⟨.error e, input', s'⟩ => ⟨.error e, input', s'⟩
    | ⟨.ok (), input', s'⟩ =>
      match input'.forRows mergeRow g s' with
      | ⟨.error e, input'', s''⟩ => ⟨.error e, input''.close, s''⟩
      | ⟨.ok last, input'', s''⟩ => ⟨Values.ofRows schema last.value.results, input''.close, s''⟩

/-- Opens an operator. -/
def openOn : Operator τ → σ → Reply (Operator τ) σ Unit
  | values v, s => ⟨.ok (), values v.opened, s⟩
  | scan c, s =>
    if c.look.isClosed then (Scan.reset { c with look := .ready none } s).mapNode scan
    else ⟨.ok (), scan c, s⟩
  | filter p look input, s =>
    if look.isClosed then (input.openOn s).mapNode (filter p (.ready none))
    else ⟨.ok (), filter p look input, s⟩
  | modify b input, s =>
    if b.look.isClosed then
      (input.openOn s).mapNode (modify { b with done := false, look := .ready none })
    else ⟨.ok (), modify b input, s⟩
  | aggregate spec schema (some groups) input, s =>
    ⟨.ok (), aggregate spec schema (some groups.opened) input, s⟩
  | aggregate spec schema none input, s =>
    match groupInput spec schema input (fun s ↦ input.openOn s) s with
    | ⟨.ok groups, input', s'⟩ => ⟨.ok (), aggregate spec schema (some groups.opened) input', s'⟩
    | ⟨.error e, input', s'⟩ => ⟨.error e, aggregate spec schema none input', s'⟩

/-- Takes an operator back to where it was when it was opened. -/
def rewindOn : Operator τ → σ → Reply (Operator τ) σ Unit
  | values v, s =>
    match v.rewound with
    | .ok v' => ⟨.ok (), values v', s⟩
    | .error e => ⟨.error e, values v, s⟩
  | scan c, s =>
    match c.look.rewound Scan.label with
    | .ok look => (Scan.reset { c with look } s).mapNode scan
    | .error e => ⟨.error e, scan c, s⟩
  | filter p look input, s =>
    match look.rewound "Filter" with
    | .ok look => (input.rewindOn s).mapNode (filter p look)
    | .error e => ⟨.error e, filter p look input, s⟩
  | modify b input, s =>
    match b.look.rewound b.change.label with
    | .ok look => (input.rewindOn s).mapNode (modify { b with done := false, look })
    | .error e => ⟨.error e, modify b input, s⟩
  | aggregate spec schema none input, s =>
    ⟨.error (.notOpen "Aggregate"), aggregate spec schema none input, s⟩
  | aggregate spec schema (some groups) input, s =>
    match groups.rewound with
    | .ok groups' => ⟨.ok (), aggregate spec schema (some groups') input, s⟩
    | .error e => ⟨.error e, aggregate spec schema (some groups) input, s⟩

/-- Computes the groups of an aggregation over an input. -/
def groupsOf (spec : Aggregation) (schema : Schema) (input : Operator τ) (s : σ) :
    Reply (Operator τ) σ Values :=
  groupInput spec schema input input.openOn s

/-- Opens an operator, takes all of its rows and closes it, which it does even if taking the rows
fails. -/
def execute (op : Operator τ) (s : σ) : Reply (Operator τ) σ (List Row) :=
  match op.openOn s with
  | ⟨.error e, op', s'⟩ => ⟨.error e, op', s'⟩
  | ⟨.ok (), op', s'⟩ => (op'.collect s').mapNode close

end Operator

end QueryEngine
