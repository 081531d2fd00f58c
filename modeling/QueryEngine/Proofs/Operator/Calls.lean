import QueryEngine.Proofs.Operator.Bare

/-!
# The calls behind an answer

An operator turns to the storage call by call. `Storage.Calls` relates the storages before and after
a sequence of calls, of which all are served but the last one, which may be refused.

A refused call ends what the operator is doing, and its cause is in the answer: after a traversal or
an opening, the storage is where calls lead to whose refusal, if there is one, is the one that the
answer blames (`reports_forRows`, `reports_openOn`). So an answer that blames the storage is owed to
the last call, and any other answer tells that all calls were served.
-/

namespace QueryEngine

variable {σ τ ν α β : Type}

/-! ## Blame -/

/-- The refusal that a failure is due to, if the storage is to blame. -/
def QueryError.cause? : QueryError → Option StorageError
  | storage cause | modificationFailed _ cause => some cause
  | _ => none

/-- The refusal that an answer is due to, if the storage is to blame. -/
def blame : Except QueryError α → Option StorageError
  | .ok _ => none
  | .error e => e.cause?

@[simp] theorem blame_map (f : α → β) (answer : Except QueryError α) :
    blame (answer.map f) = blame answer := by
  cases answer <;> rfl

theorem cause?_eq_none {answer : Except QueryError α} (h : blame answer = none) {e : QueryError}
    (he : answer = .error e) : e.cause? = none := by
  subst he
  exact h

theorem Row.blame_get (r : Row) (i : Nat) : blame (r.get i) = none := by
  rw [get]
  split <;> rfl

theorem Value.blame_compare (v w : Value) : blame (v.compare w) = none := by
  cases v <;> cases w <;> rfl

theorem Comparison.blame_evaluate (op : Comparison) (v w : Value) :
    blame (op.evaluate v w) = none := by
  rw [evaluate.eq_def]
  split
  · rfl
  · rw [blame_map, Value.blame_compare]

theorem Predicate.blame_holds (p : Predicate) (r : Row) : blame (p.holds r) = none := by
  rw [holds]
  split
  · exact p.op.blame_evaluate _ _
  · next e he => exact cause?_eq_none (r.blame_get p.field) he

namespace Schema

theorem blame_column (s : Schema) (i : Nat) : blame (s.column i) = none := by
  rw [column]
  split <;> rfl

theorem blame_columnType (s : Schema) (i : Nat) : blame (s.columnType i) = none := by
  rw [columnType, blame_map, blame_column]

end Schema

namespace Accumulator

theorem blame_start (function : AggregateFunction) (v : Value) :
    blame (start function v) = none := by
  rw [start.eq_def]
  split <;> rfl

theorem blame_add (a : Accumulator) (v : Value) : blame (a.add v) = none := by
  rw [add.eq_def]
  split <;> first | rfl | (split <;> rfl)

end Accumulator

theorem Groups.blame_absorb (function : AggregateFunction) (key : Option Value) (v : Value)
    (groups : Groups) : blame (groups.absorb function key v) = none := by
  induction groups with
  | nil => rw [absorb, blame_map, Accumulator.blame_start]
  | cons group rest ih =>
    rw [absorb]
    split
    · rw [blame_map, Accumulator.blame_add]
    · rw [blame_map, ih]

namespace Grouping

theorem blame_ofSchema (input : Schema) (spec : Aggregation) :
    blame (ofSchema input spec) = none := by
  rw [ofSchema]
  split
  · next e he => exact cause?_eq_none (input.blame_column spec.field) he
  · split
    · rfl
    · split
      · rfl
      · rw [blame_map, Schema.blame_columnType]

theorem blame_typedField (r : Row) (i : Nat) (type : ColumnType) :
    blame (typedField r i type) = none := by
  rw [typedField]
  split
  · next e he => exact cause?_eq_none (r.blame_get i) he
  · rw [blame_map, Value.expect]
    split <;> rfl

theorem blame_key (g : Grouping) (r : Row) : blame (g.key r) = none := by
  rw [key]
  split
  · rfl
  · rw [blame_map, blame_typedField]

theorem blame_merge (g : Grouping) (r : Row) : blame (g.merge r) = none := by
  rw [merge]
  split
  · next e he => exact cause?_eq_none (g.blame_key r) he
  · split
    · next e he => exact cause?_eq_none (blame_typedField r g.field g.type) he
    · rw [blame_map, Groups.blame_absorb]

end Grouping

theorem Values.blame_ofRows (schema : Schema) (rows : List Row) :
    blame (ofRows schema rows) = none := by
  rw [ofRows]
  split <;> rfl

/-! ## Calls -/

namespace Storage

variable [Storage σ τ]

/-- The reason why a call is refused, if it is. -/
def reason? : Except StorageError α → Option StorageError
  | .ok _ => none
  | .error cause => some cause

/-- One call for the rows of tables or to write them, the storages before and after it, and the
reason why it is refused, if it is. -/
inductive Call : σ → Option StorageError → σ → Prop
  | pageCount (table : τ) (s : σ) :
    Call s (reason? (Storage.pageCount table s).1) (Storage.pageCount table s).2
  | readPage (table : τ) (page : UInt32) (s : σ) :
    Call s (reason? (Storage.readPage table page s).1) (Storage.readPage table page s).2
  | insert (table : τ) (r : Row) (s : σ) :
    Call s (reason? (Storage.insert table r s).1) (Storage.insert table r s).2
  | delete (table : τ) (r : Row) (s : σ) :
    Call s (reason? (Storage.delete table r s).1) (Storage.delete table r s).2

/-- A sequence of calls that ends with the first refused one, if there is one. -/
inductive Calls : σ → Option StorageError → σ → Prop
  | done (s : σ) : Calls s none s
  | served {s s' s'' : σ} {refused : Option StorageError} (call : Call s none s')
    (calls : Calls s' refused s'') : Calls s refused s''
  | refused {s s' : σ} {cause : StorageError} (call : Call s (some cause) s') :
    Calls s (some cause) s'

theorem Calls.trans {s s' s'' : σ} {refused : Option StorageError} (h : Calls s none s')
    (h' : Calls s' refused s'') : Calls s refused s'' := by
  generalize hnone : none = first at h
  induction h with
  | done s => exact h'
  | served call calls ih => exact .served call (ih h' hnone)
  -- A refused call ends the sequence, and nothing follows it.
  | refused call => cases hnone

theorem Call.calls {s s' : σ} {refused : Option StorageError} (call : Call s refused s') :
    Calls s refused s' := by
  cases refused with
  | none => exact .served call (.done s')
  | some cause => exact .refused call

end Storage

open Storage (Calls)

variable [Storage σ τ]

/-- A visitor that makes calls, and answers with the reason if one is refused. -/
def Visitor.Reports (visit : Visitor σ α) : Prop :=
  ∀ r a s, Calls s (blame (visit r a s).1) (visit r a s).2

/-- A reply after calls that answers with the reason if one is refused. -/
def Reply.Reports (s : σ) (reply : Reply ν σ α) : Prop :=
  Calls s (blame reply.answer) reply.store

theorem reports_gather : (gather (σ := σ)).Reports :=
  fun _ _ s ↦ .done s

theorem reports_mergeRow : (mergeRow (σ := σ)).Reports := by
  intro r g s
  rw [mergeRow, blame_map, g.blame_merge]
  exact .done s

theorem reports_guard {visit : Visitor σ α} (h : visit.Reports) (p : Predicate) :
    (p.guard visit).Reports := by
  intro r a s
  rw [Predicate.guard]
  split
  · exact h r a s
  · exact .done s
  · next e he =>
    rw [blame, cause?_eq_none (p.blame_holds r) he]
    exact .done s

theorem reports_removeRow (table : τ) : (removeRow (σ := σ) table).Reports := by
  intro r n s
  have call := Storage.Call.delete table r s
  rw [removeRow]
  split
  · next s' hdelete =>
    rw [hdelete] at call
    exact call.calls
  · next cause s' hdelete =>
    rw [hdelete] at call
    exact call.calls

theorem calls_storeRows (table : τ) (rows : List Row) (n : Nat) (s : σ) :
    Calls s (blame (storeRows table rows n s).1) (storeRows table rows n s).2 := by
  induction rows generalizing n s with
  | nil => exact .done s
  | cons r rest ih =>
    have call := Storage.Call.insert table r s
    rw [storeRows]
    split
    · next id s' hinsert =>
      rw [hinsert] at call
      exact .served call (ih (n + 1) s')
    · next cause s' hinsert =>
      rw [hinsert] at call
      exact call.calls

/-! ## Traversals -/

theorem reports_visitRows {visit : Visitor σ α} (h : visit.Reports) (rows : List Row) (a : α)
    (s : σ) : (visitRows visit rows a s).Reports s := by
  induction rows generalizing a s with
  | nil => exact .done s
  | cons r rest ih =>
    have hvisit := h r a s
    rw [visitRows]
    split
    · next a' s' hrow =>
      rw [hrow] at hvisit
      exact hvisit.trans (ih a' s')
    · next answer s' _ hrow =>
      rw [hrow] at hvisit
      exact hvisit

theorem reports_visitPages {visit : Visitor σ α} (h : visit.Reports) (table : τ)
    (left next : Nat) (a : α) (s : σ) : (visitPages table visit left next a s).Reports s := by
  induction left generalizing next a s with
  | zero => exact .done s
  | succ left ih =>
    have call := Storage.Call.readPage table (UInt32.ofNat next) s
    rw [visitPages]
    split
    · next cause s' hread =>
      rw [hread] at call
      exact call.calls
    · next rows s' hread =>
      rw [hread] at call
      have hrows := reports_visitRows h rows a s'
      split
      · next a' rest s'' hvisited =>
        rw [hvisited] at hrows
        exact .served call (hrows.trans (ih (next + 1) a' s''))
      · next answer rest s'' _ hvisited =>
        rw [hvisited] at hrows
        exact .served call hrows

theorem Lookahead.reports_resume {visit : Visitor σ α} (h : visit.Reports) {look : Lookahead}
    {label : String} {a : α} {s : σ} {node : Lookahead → ν} {rest : α → σ → Reply ν σ (ForInStep α)}
    (hrest : ∀ a s, (rest a s).Reports s) :
    (look.resume label visit a s node rest).Reports s := by
  rcases look with _ | (_ | r) | _
  · exact .done s
  · exact hrest a s
  · have hvisit := h r a s
    rw [resume]
    split
    · next a' s' hrow =>
      rw [hrow] at hvisit
      exact hvisit.trans (hrest a' s')
    · next answer s' _ hrow =>
      rw [hrow] at hvisit
      exact hvisit
  · exact .done s

namespace Operator

private theorem values_reports {visit : Visitor σ α} (h : visit.Reports) (v : Values) (a : α)
    (s : σ) : (v.forRows visit a s).Reports s :=
  Lookahead.reports_resume h fun a s ↦ reports_visitRows h v.pending a s

private theorem reports_writeInput {b : Batch τ} {input : Operator τ}
    (ih : ∀ {α : Type} {visit : Visitor σ α}, visit.Reports → ∀ (a : α) (s : σ),
      (input.forRows visit a s).Reports s) (s : σ) : (writeInput b input s).Reports s := by
  rw [writeInput]
  split
  · have hrows := ih reports_gather [] s
    rcases hgathered : input.forRows gather [] s with ⟨e | rows, input', s'⟩
    · rw [hgathered] at hrows
      exact hrows
    · rw [hgathered] at hrows
      exact hrows.trans (calls_storeRows b.table rows.value.reverse 0 s')
  · have hrows := ih (reports_removeRow b.table) 0 s
    rw [Reply.Reports, Reply.map, blame_map]
    exact hrows

/-- A traversal answers with the reason for a refused call, if its visitor does. -/
theorem reports_forRows (op : Operator τ) {visit : Visitor σ α} (h : visit.Reports) (a : α)
    (s : σ) : (op.forRows visit a s).Reports s := by
  induction op generalizing α s with
  | values v => exact values_reports h v a s
  | scan c =>
    change (c.forRows visit a s).Reports s
    rw [Scan.forRows]
    refine Lookahead.reports_resume h fun a s ↦ ?_
    have hrows := reports_visitRows h c.pending a s
    split
    · next a' rest s' hvisited =>
      rw [hvisited] at hrows
      exact hrows.trans (reports_visitPages h c.table _ c.nextPage a' s')
    · next answer rest s' _ hvisited =>
      rw [hvisited] at hrows
      exact hrows
  | filter p look input ih =>
    exact Lookahead.reports_resume h fun a s ↦ ih (reports_guard h p) a s
  | modify b input ih =>
    rw [forRows_modify]
    refine Lookahead.reports_resume h fun a s ↦ ?_
    have hwritten := reports_writeInput (b := b) ih s
    split
    · exact .done s
    · rcases hinput : writeInput b input s with ⟨e | n, input', s'⟩
      · rw [hinput] at hwritten
        exact hwritten
      · rw [hinput] at hwritten
        exact hwritten.trans (h _ a s')
  | aggregate spec schema groups input ih =>
    cases groups with
    | none => exact .done s
    | some v => exact values_reports h v a s

/-! ## Opening -/

theorem reports_groupOpened {s : σ} {opened : Reply (Operator τ) σ Unit} (h : opened.Reports s)
    (schema : Schema) (g : Grouping) : (groupOpened schema g opened).Reports s := by
  rcases opened with ⟨e | ⟨⟩, input, s'⟩
  · exact h
  · have hrows := reports_forRows input reports_mergeRow g s'
    rw [groupOpened]
    rcases hmerged : input.forRows mergeRow g s' with ⟨e | last, drained, s''⟩
    · rw [hmerged] at hrows
      exact h.trans hrows
    · rw [hmerged] at hrows
      rw [Reply.Reports, Values.blame_ofRows]
      exact h.trans hrows

theorem reports_openGroups {s : σ} {grouped : Reply (Operator τ) σ Values} (h : grouped.Reports s)
    (spec : Aggregation) (schema : Schema) : (openGroups spec schema grouped).Reports s := by
  rcases grouped with ⟨e | groups, input, s'⟩
  · exact h
  · exact h

/-- Opening an operator answers with the reason for a refused call. -/
theorem reports_openOn (op : Operator τ) (s : σ) : (op.openOn s).Reports s := by
  induction op generalizing s with
  | values v => exact .done s
  | scan c =>
    rw [openOn]
    split
    · have call := Storage.Call.pageCount c.table s
      rw [Scan.reset]
      dsimp only
      split
      · next n s' hcount =>
        rw [hcount] at call
        exact call.calls
      · next cause s' hcount =>
        rw [hcount] at call
        exact call.calls
    · exact .done s
  | filter p look input ih =>
    rw [openOn]
    split
    · exact ih s
    · exact .done s
  | modify b input ih =>
    rw [openOn]
    split
    · exact ih s
    · exact .done s
  | aggregate spec schema groups input ih =>
    cases groups with
    | some v => exact .done s
    | none =>
      rw [openOn_aggregate]
      split
      · next e he =>
        rw [Reply.Reports, blame, cause?_eq_none (Grouping.blame_ofSchema _ _) he]
        exact .done s
      · next g hg => exact reports_openGroups (reports_groupOpened (ih s) schema g) spec schema

end Operator

end QueryEngine
