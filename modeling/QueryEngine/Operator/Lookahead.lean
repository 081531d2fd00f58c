import QueryEngine.Error

/-!
# The lifecycle of an operator

An operator is closed until it is opened. Once open it is ready to be asked for rows until it has
none left and is exhausted; rewinding makes it ready again, and closing is possible at any time.

Whether there is a next row can only be found out by fetching it. An operator that is asked fetches
the row and keeps it in a buffer, so that asking again answers from the buffer and the row itself is
handed out when it is asked for. Only an operator that is ready has a buffer.
-/

namespace QueryEngine

/-- Where an operator is in its lifecycle. -/
inductive Lookahead where
  | closed
  /-- Open, with the row that has been fetched ahead, if one has. -/
  | ready (buffered : Option Row)
  | exhausted
deriving DecidableEq

namespace Lookahead

def isClosed : Lookahead → Bool
  | closed => true
  | _ => false

/-- The state after opening: a closed operator is ready, any other one stays as it is. -/
def opened : Lookahead → Lookahead
  | closed => ready none
  | look => look

def ensureOpen (operator : String) (look : Lookahead) : Except QueryError Unit :=
  if look.isClosed then .error (.notOpen operator) else .ok ()

/-- The state after rewinding, which is not possible while closed. -/
def rewound (operator : String) (look : Lookahead) : Except QueryError Lookahead :=
  (look.ensureOpen operator).map fun _ ↦ ready none

end Lookahead

end QueryEngine
