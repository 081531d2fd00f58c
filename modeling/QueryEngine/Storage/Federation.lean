import QueryEngine.Storage.Interface

/-!
# Several storages at once

One tree of operators may work on tables of several storages. A federation lines storages up and is
a storage itself: a table is addressed by the number of its member and its address there, and a call
changes that member only.
-/

namespace QueryEngine

/-- A table of a member of a federation. -/
structure Site (τ : Type) where
  member : Nat
  table : τ
deriving DecidableEq

/-- Storages in a row. -/
structure Federation (σ : Type) where
  members : List σ

namespace Federation

variable {σ τ : Type}

/-- The answer to a call on a member that does not exist. -/
def noMember (i : Nat) : StorageError :=
  .unavailable ("no storage " ++ toString i)

def join (f : Federation σ) (s : σ) : Federation σ :=
  ⟨f.members ++ [s]⟩

def set (f : Federation σ) (i : Nat) (s : σ) : Federation σ :=
  ⟨f.members.set i s⟩

/-- Turns to one member with a call. -/
def serve {α : Type} (f : Federation σ) (i : Nat) (call : σ → Served σ α) :
    Served (Federation σ) α :=
  match f.members[i]? with
  | none => (.error (noMember i), f)
  | some s => let (answer, s') := call s; (answer, f.set i s')

/-- The tables of members, the first of which has the given number. -/
def tablesFrom [Storage σ τ] (i : Nat) : List σ → List (Site τ)
  | [] => []
  | s :: rest => (Storage.tables s).map (Site.mk i) ++ tablesFrom (i + 1) rest

instance [Storage σ τ] : Storage (Federation σ) (Site τ) where
  tableName t := Storage.tableName σ t.table
  tables f := tablesFrom 0 f.members
  tableSchema f t :=
    match f.members[t.member]? with
    | none => .error (noMember t.member)
    | some s => Storage.tableSchema s t.table
  pageCount t f := f.serve t.member (Storage.pageCount t.table)
  readPage t page f := f.serve t.member (Storage.readPage t.table page)
  insert t r f := f.serve t.member (Storage.insert t.table r)
  delete t r f := f.serve t.member (Storage.delete t.table r)

end Federation

end QueryEngine
