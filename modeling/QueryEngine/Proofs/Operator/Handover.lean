import QueryEngine.Proofs.Operator.Insert
import QueryEngine.Proofs.Operator.Loop
import QueryEngine.Proofs.Storage.Removal

/-!
# What a deletion deletes

A deletion takes the rows of its input one by one and deletes each of them before it takes the next
one (`Operator.Sheds`). It comes to a halt when there are no more rows, or when the next row cannot
be fetched or cannot be deleted (`Operator.Halts`), and then it reports how many rows it has
deleted, or why it has not come to the end.

On a heap a row is deleted at the place that its record id names, in whichever table this is. If the
input only reads and nobody else writes, then the heap is in the end what comes of deleting in order
the rows that the input handed out, and nothing is kept at their places any more
(`Operator.deletesHanded_pending`).
-/

namespace QueryEngine

namespace Operator

variable {σ τ : Type} [Storage σ τ]

/-! ## Any storage -/

/-- The operator hands out rows, and each is deleted before the next one is asked for. -/
inductive Sheds (table : τ) : Operator τ → σ → List Row → Operator τ → σ → Prop
  | nil (op : Operator τ) (s : σ) : Sheds table op s [] op s
  | cons {op op' op'' : Operator τ} {s s' s'' s''' : σ} {r : Row} {rows : List Row}
    (handed : op.next s = ⟨.ok r, op', s'⟩) (deleted : Storage.delete table r s' = (.ok (), s''))
    (rest : Sheds table op' s'' rows op'' s''') : Sheds table op s (r :: rows) op'' s'''

/-- After the given number of rows there are no more, or the next one cannot be fetched, or the
storage refuses to delete it. -/
inductive Halts (table : τ) (n : Nat) (op : Operator τ) (s : σ) : Reply (Operator τ) σ Nat → Prop
  | last {op' : Operator τ} {s' : σ} (ended : op.hasNext s = ⟨.ok false, op', s'⟩) :
    Halts table n op s ⟨.ok n, op', s'⟩
  | unread {op' : Operator τ} {s' : σ} {e : QueryError}
    (failed : op.hasNext s = ⟨.error e, op', s'⟩) : Halts table n op s ⟨.error e, op', s'⟩
  | refused {op' : Operator τ} {s' s'' : σ} {r : Row} {cause : StorageError}
    (handed : op.next s = ⟨.ok r, op', s'⟩)
    (refused : Storage.delete table r s' = (.error cause, s'')) :
    Halts table n op s ⟨.error (.modificationFailed n cause), op', s''⟩

variable {table : τ} {op op' : Operator τ} {s s' : σ}

theorem next_of_pull {r : Row} (pulled : op.pull s = ⟨.ok (some r), op', s'⟩) :
    op.next s = ⟨.ok r, op', s'⟩ := by
  rw [next, pulled]

theorem removeRow_cases (table : τ) (r : Row) (n : Nat) (s : σ) :
    (∃ s', Storage.delete table r s = (.ok (), s')
        ∧ removeRow table r n s = (.ok (.yield (n + 1)), s'))
      ∨ ∃ cause s', Storage.delete table r s = (.error cause, s')
        ∧ removeRow table r n s = (.error (.modificationFailed n cause), s') := by
  rcases hdelete : Storage.delete table r s with ⟨cause | ⟨⟩, s'⟩
  · refine .inr ⟨cause, s', rfl, ?_⟩
    rw [removeRow, hdelete]
  · refine .inl ⟨s', rfl, ?_⟩
    rw [removeRow, hdelete]

/-- The loop that deletes what it takes sheds rows until it halts. -/
theorem Loops.sheds {n : Nat} {reply : Reply (Operator τ) σ (ForInStep Nat)}
    (loops : Loops (removeRow table) op n s reply) :
    ∃ rows op' s', op.Sheds table s rows op' s'
      ∧ op'.Halts table (n + rows.length) s' (reply.map ForInStep.value) := by
  induction loops with
  | @last op op' n s s' pulled =>
    refine ⟨[], op, s, .nil op s, .last ?_⟩
    rw [hasNext, pulled]
  | @fails op op' n s s' e pulled =>
    refine ⟨[], op, s, .nil op s, .unread ?_⟩
    rw [hasNext, pulled]
  | @stops op op' n s s' s'' r answer pulled visited stopped =>
    rcases removeRow_cases table r n s' with ⟨s₁, -, hvisit⟩ | ⟨cause, s₁, hdelete, hvisit⟩
    · obtain ⟨rfl, -⟩ := Prod.mk.inj (visited.symm.trans hvisit)
      exact absurd rfl (stopped (n + 1))
    · obtain ⟨rfl, rfl⟩ := Prod.mk.inj (visited.symm.trans hvisit)
      exact ⟨[], op, s, .nil op s, .refused (next_of_pull pulled) hdelete⟩
  | @goesOn op op' n n' s s' s'' r reply pulled visited rest ih =>
    rcases removeRow_cases table r n s' with ⟨s₁, hdelete, hvisit⟩ | ⟨cause, s₁, -, hvisit⟩
    · cases visited.symm.trans hvisit
      obtain ⟨rows, op'', s''', sheds, halts⟩ := ih
      refine ⟨r :: rows, op'', s''', .cons (next_of_pull pulled) hdelete sheds, ?_⟩
      rwa [List.length_cons, Nat.add_comm rows.length, ← Nat.add_assoc]
    · cases visited.symm.trans hvisit

/-- Asked in either way, the operator hands out the number of the rows it wrote, or fails. -/
inductive Reports (op : Operator τ) (s : σ) : Reply (Operator τ) σ Nat → Prop
  | count {n : Nat} {op' : Operator τ} {s' : σ} (handsOut : op.HandsOut s (countRow n) op' s') :
    Reports op s ⟨.ok n, op', s'⟩
  | failure {e : QueryError} {op' : Operator τ} {s' : σ} (fails : op.Fails s e op' s') :
    Reports op s ⟨.error e, op', s'⟩

theorem reports_pending (change : Modification) (table : τ) (schema : Schema) (input : Operator τ)
    (s : σ) : (pending change table schema input).Reports s
      ((writeInput ⟨change, table, schema, false, .ready none⟩ input s).mapNode
        (written change table schema)) := by
  rcases hwrite : writeInput ⟨change, table, schema, false, .ready none⟩ input s with
    ⟨e | n, input', s'⟩
  · exact .failure (fails_pending hwrite)
  · exact .count (handsOut_pending hwrite)

/-- A deletion that is asked for its row reports how it has come to a halt. -/
theorem pending_delete_sheds (table : τ) (schema : Schema) (input : Operator τ) (s : σ) :
    ∃ rows input' s' reply, input.Sheds table s rows input' s'
      ∧ input'.Halts table rows.length s' reply
      ∧ (pending .delete table schema input).Reports s
          (reply.mapNode (written .delete table schema)) := by
  obtain ⟨rows, input', s', sheds, halts⟩ := (loops_forRows input (removeRow table) 0 s).sheds
  rw [Nat.zero_add] at halts
  exact ⟨rows, input', s', _, sheds, halts, reports_pending .delete table schema input s⟩

/-! ## Heaps -/

section

variable {table : String} {op op' : Operator String} {c c' : ContestedHeap} {rows : List Row}

theorem alone_pull (writesNothing : op.WritesNothing) (alone : ∀ n, c.edits n = []) :
    (op.pull c).node.WritesNothing
      ∧ ContestedHeap.Alone c.heap c.writes (op.pull c).store := by
  constructor
  · exact writesNothing.of_bare_eq (op.bare_forRows takeFirst none c)
  · exact writesNothing.pull (ContestedHeap.closed_alone c.heap c.writes) ⟨alone, rfl, rfl⟩

theorem Sheds.deleteAll (sheds : op.Sheds table c rows op' c') (writesNothing : op.WritesNothing)
    (alone : ∀ n, c.edits n = []) :
    c.heap.deleteAll rows = .ok c'.heap ∧ op'.WritesNothing ∧ ∀ n, c'.edits n = [] := by
  induction sheds with
  | nil op c => exact ⟨rfl, writesNothing, alone⟩
  | @cons op op' op'' c c₁ c₂ c' r rows handed deleted rest ih =>
    obtain ⟨hnode, alone₁, hheap, -⟩ := alone_pull writesNothing alone
    rw [← store_next, handed] at alone₁ hheap
    rw [← node_next, handed] at hnode
    rw [← hheap]
    rcases ContestedHeap.delete_cases table r c₁ with ⟨heap, hdelete, hserved⟩ | ⟨e, hrefused⟩
    · rw [hserved] at deleted
      obtain ⟨-, rfl⟩ := Prod.mk.inj deleted
      obtain ⟨hrest, hlast⟩ := ih hnode alone₁
      exact ⟨Heap.deleteAll_cons_eq_ok_iff.mpr ⟨heap, hdelete, hrest⟩, hlast⟩
    · rw [hrefused] at deleted
      cases deleted

theorem Halts.heap_eq {n : Nat} {reply : Reply (Operator String) ContestedHeap Nat}
    (halts : op.Halts table n c reply) (writesNothing : op.WritesNothing)
    (alone : ∀ n, c.edits n = []) : reply.store.heap = c.heap := by
  obtain ⟨-, -, hheap, -⟩ := alone_pull writesNothing alone
  cases halts with
  | last ended =>
    rwa [← store_hasNext, ended] at hheap
  | unread failed =>
    rwa [← store_hasNext, failed] at hheap
  | @refused op' c₁ c₂ r cause handed refused =>
    rw [← store_next, handed] at hheap
    rcases ContestedHeap.delete_cases table r c₁ with ⟨heap, hdelete, hserved⟩ | ⟨e, hrefused⟩
    · rw [hserved] at refused
      cases refused
    · rw [hrefused] at refused
      obtain ⟨-, rfl⟩ := Prod.mk.inj refused
      exact hheap

/-- The deletion over the input, when it is asked for its row: the rows that the input hands out are
deleted one after the other until it halts, and the deletion reports how it has halted. The heap is
the one before with these rows deleted, and nothing is kept any more at the places that their record
ids name. -/
def DeletesHanded (table : String) (schema : Schema) (input : Operator String)
    (c : ContestedHeap) : Prop :=
  ∃ rows input' c' reply, input.Sheds table c rows input' c'
    ∧ input'.Halts table rows.length c' reply
    ∧ (pending .delete table schema input).Reports c
        (reply.mapNode (written .delete table schema))
    ∧ c.heap.deleteAll rows = .ok reply.store.heap
    ∧ ∀ r ∈ rows, ∃ id, r.id? = some id ∧ reply.store.heap.Vacant id

/-- **A deletion deletes what its input hands out**, in whichever table it is. -/
theorem deletesHanded_pending (table : String) (schema : Schema) {input : Operator String}
    (writesNothing : input.WritesNothing) (orderly : c.heap.Orderly)
    (alone : ∀ n, c.edits n = []) : input.DeletesHanded table schema c := by
  obtain ⟨rows, input', c', reply, sheds, halts, reports⟩ :=
    pending_delete_sheds table schema input c
  obtain ⟨hdeleted, writesNothing', alone'⟩ := sheds.deleteAll writesNothing alone
  rw [← halts.heap_eq writesNothing' alone'] at hdeleted
  exact ⟨rows, input', c', reply, sheds, halts, reports, hdeleted,
    Heap.vacant_of_deleteAll orderly hdeleted⟩

end

end Operator

end QueryEngine
