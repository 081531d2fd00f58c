import QueryEngine.Proofs.Operator.Lives

/-!
# Exchanging inputs

The inputs of an operator can be exchanged in any state of it. An exchange is all or nothing: if it
is refused, the operator is the one that it was before, rows in hand, groups and all, and inputs
that only read have not changed the storage either. There is no state in between, although an
aggregation computes the groups of the new input first, which may fail at any row.

## Exchanging and building

A closed operator over a new input is the operator that would be built over that input
(`Operator.planOver`). This is an equation of operators, so they answer alike ever after. Filters
and aggregations have nothing to check that building them would not check. A modification does not
ask for the schema of its table again but compares the new input with the schema that it remembers,
and keeps its state. So the equation holds of the states that a modification gets into, and not of
all that can be written down: it needs that closed modifications have nothing done, and that the
remembered schema is the schema of the table (`Operator.Lives.current`).
-/

namespace QueryEngine

namespace Operator

variable {σ τ : Type} [Storage σ τ]

/-! ## Refusals -/

theorem node_of_replaceChildren_error {op : Operator τ} {children : List (Operator τ)} {s : σ}
    {e : QueryError} (failed : (op.replaceChildren children s).answer = .error e) :
    (op.replaceChildren children s).node = op := by
  rcases op.replaceChildren_cases children s with
    ⟨e', hrefused⟩ | hmade | ⟨spec, schema, groups, input, child, rfl, rfl⟩
  · rw [hrefused]
  · rw [hmade] at failed
    cases failed
  · rw [replaceChildren_aggregate] at failed ⊢
    generalize child.buildAggregate spec s = built at failed ⊢
    obtain ⟨e' | new, s'⟩ := built
    · rfl
    · cases failed

/-! ## Exchanging and building -/

/-- The plan of an operator of the same kind over another input. -/
def planOver (op child : Operator τ) : Option (Plan τ) :=
  match op with
  | values _ | scan _ => none
  | filter p _ _ => some (.filter p (.operator child))
  | modify b _ => some (.modify b.change b.table (.operator child))
  | aggregate spec _ _ _ => some (.aggregate spec (.operator child))

/-- A closed modification takes a new input if one could be built over it, as long as its table has
the schema that it remembers. -/
theorem replaceChildren_modify {b : Batch τ} (closed : b.look = .closed) (rearmed : b.done = false)
    {s : σ} (hschema : Storage.tableSchema s b.table = .ok b.tableSchema)
    (input child : Operator τ) :
    (modify b input).replaceChildren [child] s
      = match child.buildModify b.change b.table s with
        | .ok new => ⟨.ok [input], new, s⟩
        | .error e => ⟨.error e, modify b input, s⟩ := by
  obtain ⟨change, table, tableSchema, _, _⟩ := b
  subst closed rearmed
  rw [replaceChildren, buildModify, hschema]
  dsimp only
  rcases checkInput σ table tableSchema child with e | _ <;> rfl

/-- A closed operator takes a new input if one of its kind could be built over it, and is that one
then. -/
theorem Current.replaceChildren_eq {op : Operator String} {h : Heap} (current : op.Current h)
    (few : h.tables.length ≤ 2 ^ 32) (closed : op.look = .closed) {child : Operator String}
    {plan : Plan String} (hplan : op.planOver child = some plan) :
    op.replaceChildren [child] h
      = match plan.build h with
        | (.ok new, h') => ⟨.ok op.children, new, h'⟩
        | (.error e, h') => ⟨.error e, op, h'⟩ := by
  cases op with
  | values v => cases hplan
  | scan c => cases hplan
  | filter p look input =>
    cases hplan
    obtain rfl : look = .closed := closed
    rfl
  | modify b input =>
    cases hplan
    -- Building asks for the schema of the table, and is told the one that is remembered.
    obtain ⟨t, ht, hts⟩ := (current.remembers.1 few).found
    have hschema : Storage.tableSchema h b.table = .ok b.tableSchema := by
      change (h.table b.table).map HeapTable.schema = _
      rw [ht, ← hts]
      rfl
    have hbuild : (Plan.modify b.change b.table (.operator child)).build h
        = (child.buildModify b.change b.table h, h) := rfl
    rw [replaceChildren_modify closed (current.rearmed.1 closed) hschema, hbuild]
    rcases child.buildModify b.change b.table h with e | new <;> rfl
  | aggregate spec schema groups input =>
    cases hplan
    have hbuild : (Plan.aggregate spec (.operator child)).build h = child.buildAggregate spec h :=
      rfl
    rw [replaceChildren_aggregate, hbuild]
    rcases child.buildAggregate spec h with ⟨e | new, h'⟩ <;> rfl

/-! ## The exchange -/

/-- **An exchange is all or nothing.** An operator refuses any other number of inputs than its own,
as an invalid argument. Whatever state it is in, a failed exchange for inputs without modifications
leaves the operator and the heap as they were.

If the operator is closed, whatever it has lived through, then an exchange of its one input succeeds
exactly if an operator of its kind with the same parameters can be built over the new input, with
the heap as it is then, and fails as the building does. When it succeeds, the answer is the input
there was, and the operator is the one that the building leads to. The heap must not have more
tables than there are numbers for them. -/
theorem replaceChildren_all_or_nothing (op : Operator String) (h : Heap) :
    (∀ children : List (Operator String), children.length ≠ op.children.length → ∃ e,
        op.replaceChildren children h = ⟨.error e, op, h⟩ ∧ e.kind = .invalidArgument)
      ∧ (∀ children : List (Operator String), (∀ child ∈ children, child.WritesNothing) →
        ∀ e, (op.replaceChildren children h).answer = .error e →
          op.replaceChildren children h = ⟨.error e, op, h⟩)
      ∧ (op.Lives h → h.tables.length ≤ 2 ^ 32 → op.look = .closed →
        ∀ child plan, op.planOver child = some plan →
          op.replaceChildren [child] h
            = match plan.build h with
              | (.ok new, h') => ⟨.ok op.children, new, h'⟩
              | (.error e, h') => ⟨.error e, op, h'⟩) := by
  refine ⟨?_, ?_, ?_⟩
  · intro children hlength
    exact ⟨_, op.replaceChildren_of_length_ne hlength h, rfl⟩
  · intro children readOnly e failed
    have hnode := node_of_replaceChildren_error failed
    have hstore := store_replaceChildren h.closed op (.inl readOnly) rfl
    generalize op.replaceChildren children h = reply at failed hnode hstore
    obtain ⟨answer, node, h'⟩ := reply
    rw [show answer = .error e from failed, show node = op from hnode, show h' = h from hstore]
  · intro lives few closed child plan hplan
    exact lives.current.replaceChildren_eq few closed hplan

def numbers : Schema := ⟨[⟨"n", .integer⟩]⟩

def oneNumber (n : Int64) : Operator String :=
  .values ⟨numbers, [.ofValues [.integer n]], [], .closed⟩

def insertNumbers (input : Operator String) : Operator String :=
  .modify ⟨.insert, "t", numbers, false, .closed⟩ input

def numbersAfter (calls : List Heap.Call) : Heap :=
  ((Heap.ofCapacity 2).run (.create "t" numbers :: calls)).2

/-- An insert that has written its row and was closed takes another row, and is then as it is built
over that. It refuses an input without columns, and it refuses to have no input. -/
theorem replaceChildren_all_or_nothing_insert :
    ∃ (h : Heap) (e : QueryError),
      (insertNumbers (oneNumber 7)).Lives h ∧ h.tables.length ≤ 2 ^ 32
        ∧ (h.table "t").map HeapTable.rows = .ok [⟨[.integer 7], some ⟨1, 0, 0⟩⟩]
        ∧ (insertNumbers (oneNumber 7)).replaceChildren [oneNumber 8] h
          = ⟨.ok [oneNumber 7], insertNumbers (oneNumber 8), h⟩
        ∧ (insertNumbers (oneNumber 7)).replaceChildren [.values ⟨⟨[]⟩, [], [], .closed⟩] h
          = ⟨.error (.inputMismatch ⟨[]⟩ "t" numbers), insertNumbers (oneNumber 7), h⟩
        ∧ (insertNumbers (oneNumber 7)).replaceChildren [] h
          = ⟨.error e, insertNumbers (oneNumber 7), h⟩ ∧ e.kind = .invalidArgument := by
  have built : (insertNumbers (oneNumber 7)).Lives (numbersAfter []) :=
    .build (.modify .insert "t" (.values numbers [.ofValues [.integer 7]]))
      (h := numbersAfter []) ⟨2, _, rfl⟩ (by simp [Plan.parts]) rfl
  have lives : (insertNumbers (oneNumber 7)).Lives
      (numbersAfter [.insert "t" (.ofValues [.integer 7])]) :=
    ((built.serve .opening).serve .next).serve .closing
  obtain ⟨hcount, hrefused, hmade⟩ := replaceChildren_all_or_nothing (insertNumbers (oneNumber 7))
    (numbersAfter [.insert "t" (.ofValues [.integer 7])])
  obtain ⟨e, he, hkind⟩ := hcount [] (by simp [insertNumbers, children])
  refine ⟨_, e, lives, by decide, rfl, ?_, ?_, he, hkind⟩
  · exact hmade lives (by decide) rfl (oneNumber 8) _ rfl
  · exact hrefused _ (by simp [WritesNothing]) _ rfl

end Operator

end QueryEngine
