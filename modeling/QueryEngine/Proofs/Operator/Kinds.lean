import QueryEngine.Proofs.Operator.InOrder
import QueryEngine.Proofs.Operator.Modify
import QueryEngine.Proofs.Operator.Upholds

/-!
# Kinds of rows

Something may be known of all rows that an operator hands out, by what it was built from: their
types, or the tables that they may have come from. `kind op r` says that the row is of the kind of
the operator, which is asked of bare operators only; `Kinds` says that rows keep to their kinds on
the way up the tree.

## The invariant

A tree that `Carries` rows of their kinds has only such rows in hand, at every node. If the storage
answers with rows of the kind of the scan, and if writes and groupings keep to what is given
(`Operator.Admits`), then no other rows get to a visitor (`Carries.yields`), and every request
leaves a tree that carries rows of their kinds (`Carries.serve`). The storage stays among given
states all the while, and failures are of a given sort.
-/

namespace QueryEngine

variable {σ τ ν α : Type}

/-! ## Statements -/

abbrev Within (good : α → Prop) (states : σ → Prop) : α → σ → Prop :=
  fun a s ↦ good a ∧ states s

abbrev FailsWithin (fails : QueryError → Prop) (states : σ → Prop) : QueryError → σ → Prop :=
  fun e s ↦ fails e ∧ states s

/-- The node is as described, the storage is among the given states, and the answer is fine or a
failure of the given sort. -/
structure Reply.Stays (reply : Reply ν σ α) (nodes : ν → Prop) (states : σ → Prop)
    (fine : α → Prop) (fails : QueryError → Prop) : Prop where
  node : nodes reply.node
  store : states reply.store
  answer : ∀ a, reply.answer = .ok a → fine a
  error : ∀ e, reply.answer = .error e → fails e

theorem Reply.stays_ok {nodes : ν → Prop} {states : σ → Prop} {fine : α → Prop}
    {fails : QueryError → Prop} {a : α} {node : ν} {s : σ} (hnode : nodes node) (hs : states s)
    (ha : fine a) : (⟨.ok a, node, s⟩ : Reply ν σ α).Stays nodes states fine fails :=
  ⟨hnode, hs, fun _ h ↦ Except.ok.inj h ▸ ha, nofun⟩

theorem Reply.stays_error {nodes : ν → Prop} {states : σ → Prop} {fine : α → Prop}
    {fails : QueryError → Prop} {e : QueryError} {node : ν} {s : σ} (hnode : nodes node)
    (hs : states s) (he : fails e) :
    (⟨.error e, node, s⟩ : Reply ν σ α).Stays nodes states fine fails :=
  ⟨hnode, hs, nofun, fun _ h ↦ Except.error.inj h ▸ he⟩

theorem Reply.Upholds.stays {reply : Reply ν σ (ForInStep α)} {nodes : ν → Prop}
    {good : α → Prop} {states : σ → Prop} {fails : QueryError → Prop}
    (h : reply.Upholds nodes (Within good states) (FailsWithin fails states)) :
    (reply.map ForInStep.value).Stays nodes states good fails := by
  obtain ⟨hnode, hends⟩ := h
  obtain ⟨e | last, node, s⟩ := reply
  · exact stays_error hnode hends.2 hends.1
  · exact stays_ok hnode hends.2 hends.1

theorem Reply.Stays.map {β : Type} {reply : Reply ν σ α} {nodes : ν → Prop} {states : σ → Prop}
    {fine : α → Prop} {fine' : β → Prop} {fails : QueryError → Prop}
    (h : reply.Stays nodes states fine fails) {f : α → β} (hf : ∀ a, fine a → fine' (f a)) :
    (reply.map f).Stays nodes states fine' fails := by
  obtain ⟨e | a, node, s⟩ := reply
  · exact stays_error h.node h.store (h.error e rfl)
  · exact stays_ok h.node h.store (hf a (h.answer a rfl))

theorem Reads.within [Storage σ τ] {table : τ} {kind : Row → Prop} {states : σ → Prop}
    {fails : QueryError → Prop}
    (reads : Reads table kind (fun _ : Unit ↦ states) (FailsWithin fails states))
    (good : α → Prop) : Reads table kind (Within good states) (FailsWithin fails states) where
  served page _ s rows s' hinv hread :=
    have hserved := reads.served page () s rows s' hinv.2 hread
    ⟨⟨hinv.1, hserved.1⟩, hserved.2⟩
  refused page _ s e s' hinv hread := reads.refused page () s e s' hinv.2 hread

/-- The rows that an operator hands out keep to the kinds of the operators on their way. -/
structure Kinds (kind : Operator τ → Row → Prop) : Prop where
  filter : ∀ p input r, kind input r → kind (.filter p .closed input) r
  count : ∀ b input n, kind (.modify b input) (countRow n)
  group : ∀ spec schema input r, r.Conforms schema → r.id? = none →
    kind (.aggregate spec schema none input) r

/-- Writing rows of the kind stays among the given states, and a write fails in the given way. -/
def Batch.Writes [Storage σ τ] (b : Batch τ) (kind : Row → Prop) (states : σ → Prop)
    (fails : QueryError → Prop) : Prop :=
  match b.change with
  | .insert => ∀ r s, kind r → states s → states (Storage.insert b.table r s).2
      ∧ ∀ e n, (Storage.insert b.table r s).1 = .error e → fails (.modificationFailed n e)
  | .delete => ∀ r s, kind r → states s → states (Storage.delete b.table r s).2
      ∧ ∀ e n, (Storage.delete b.table r s).1 = .error e → fails (.modificationFailed n e)

/-- Rows of the kind are taken into a grouping that stays good, and the results conform to the
schema, but for failures of the given sort. -/
structure Aggregation.Handles (a : Aggregation) (input output : Schema) (kind : Row → Prop)
    (fails : QueryError → Prop) (good : Grouping → Prop) : Prop where
  start : ∀ g, Grouping.ofSchema input a = .ok g → good g
  start_error : ∀ e, Grouping.ofSchema input a = .error e → fails e
  merge : ∀ g r g', good g → kind r → g.merge r = .ok g' → good g'
  merge_error : ∀ g r e, good g → kind r → g.merge r = .error e → fails e
  results : ∀ g r, good g → r ∈ g.results → r.Conforms output ∨ fails (.rowMismatch r output)

def Values.Carries (v : Values) (kind : Row → Prop) : Prop :=
  ∀ r, r ∈ v.rows ∨ r ∈ v.pending ∨ v.look = .ready (some r) → kind r

namespace Operator

/-- The rows in hand are of the kinds of the nodes. -/
def Carries (kind : Operator τ → Row → Prop) : Operator τ → Prop
  | values v => v.Carries (kind (values v).bare)
  | scan c => ∀ r, r ∈ c.pending ∨ c.look = .ready (some r) → kind (scan c).bare r
  | filter p look input =>
    (∀ r, look = .ready (some r) → kind (filter p look input).bare r) ∧ input.Carries kind
  | modify b input =>
    (∀ r, b.look = .ready (some r) → kind (modify b input).bare r) ∧ input.Carries kind
  | aggregate spec schema groups input =>
    (∀ v, groups = some v → v.Carries (kind (aggregate spec schema groups input).bare))
      ∧ input.Carries kind

/-- What the storage, the predicates and the groupings do keeps to the kinds and the states, but for
failures of the given sort. -/
def Admits [Storage σ τ] (kind : Operator τ → Row → Prop) (states : σ → Prop)
    (fails : QueryError → Prop) : Operator τ → Prop
  | values _ => True
  | scan c =>
    (∀ s, states s → states (Storage.pageCount c.table s).2
      ∧ ∀ e, (Storage.pageCount c.table s).1 = .error e → fails (.storage e))
    ∧ Reads c.table (kind (scan c).bare) (fun _ : Unit ↦ states) (FailsWithin fails states)
  | filter p _ input =>
    (∀ r e, kind input.bare r → p.holds r = .error e → fails e) ∧ input.Admits kind states fails
  | modify b input => b.Writes (kind input.bare) states fails ∧ input.Admits kind states fails
  | aggregate spec schema _ input =>
    (∃ good, spec.Handles input.schema schema (kind input.bare) fails good)
      ∧ input.Admits kind states fails

/-- Only rows of the given kind get to a visitor: what it keeps up on rows of the kind, the
traversal keeps up. -/
def Yields [Storage σ τ] (op : Operator τ) (kind : Row → Prop) (nodes : Operator τ → Prop)
    (states : σ → Prop) (fails : QueryError → Prop) : Prop :=
  ∀ (α : Type) (visit : Visitor σ α) (good : α → Prop) (a : α) (s : σ),
    visit.Upholds kind (Within good states) (FailsWithin fails states) → good a → states s →
      (op.forRows visit a s).Upholds nodes (Within good states) (FailsWithin fails states)

theorem bare_bare (op : Operator τ) : op.bare.bare = op.bare := by
  induction op with
  | values v => rfl
  | scan c => rfl
  | filter p look input ih => exact congrArg (filter p .closed) ih
  | modify b input ih => exact congrArg (modify { b with done := false, look := .closed }) ih
  | aggregate spec schema groups input ih => exact congrArg (aggregate spec schema none) ih

section

variable [Storage σ τ] {kind : Operator τ → Row → Prop} {states : σ → Prop}
  {fails : QueryError → Prop} {op : Operator τ}

theorem admits_bare (op : Operator τ) :
    op.bare.Admits kind states fails ↔ op.Admits kind states fails := by
  induction op with
  | values v => rfl
  | scan c => rfl
  | filter p look input ih => rw [bare, Admits, Admits, bare_bare, ih]
  | modify b input ih => rw [bare, Admits, Admits, bare_bare, ih]; rfl
  | aggregate spec schema groups input ih =>
    rw [bare, Admits, Admits, bare_bare, schema_bare, ih]

theorem Admits.of_bare_eq {op' : Operator τ} (admits : op.Admits kind states fails)
    (h : op'.bare = op.bare) : op'.Admits kind states fails := by
  rwa [← admits_bare, h, admits_bare]

/-! ## Traversals -/

/-- A traversal may come upon a closed operator only if that is a failure of the given sort. -/
def Runs (op : Operator τ) (fails : QueryError → Prop) : Prop :=
  (∀ label, fails (.notOpen label)) ∨ op.InOrder ∧ op.look ≠ .closed

/-- A closed operator refuses the traversal, so that only an open one has to be looked at. -/
private theorem yields_of_open {P : Row → Prop} (carries : op.Carries kind) (runs : op.Runs fails)
    (yields : op.look ≠ .closed → op.Yields P (Carries kind) states fails) :
    op.Yields P (Carries kind) states fails := by
  by_cases isClosed : op.look = .closed
  · intro α visit good a s _ _ hs
    rw [forRows_of_closed isClosed]
    exact ⟨carries, runs.resolve_right (fun h ↦ h.2 isClosed) _, hs⟩
  · exact yields isClosed

private theorem values_yields {v : Values} {P : Row → Prop} (carries : v.Carries P)
    (isOpen : v.look ≠ .closed) {visit : Visitor σ α} {good : α → Prop} {a : α} {s : σ}
    (upholds : visit.Upholds P (Within good states) (FailsWithin fails states)) (ha : good a)
    (hs : states s) :
    (v.forRows visit a s).Upholds (fun v' ↦ v'.Carries P) (Within good states)
      (FailsWithin fails states) := by
  have hnode : ∀ look : Lookahead, (∀ r, look ≠ .ready (some r)) →
      ({ v with look } : Values).Carries P := by
    rintro look empty r (hr | hr | hr)
    · exact carries r (.inl hr)
    · exact carries r (.inr (.inl hr))
    · exact absurd hr (empty r)
  rw [Values.forRows]
  refine Lookahead.resume_upholds (fun isClosed ↦ absurd isClosed isOpen)
    (hnode _ Lookahead.forall_ready_none) (hnode _ Lookahead.forall_exhausted)
    (fun r hr ↦ carries r (.inr (.inr hr))) upholds ⟨ha, hs⟩ fun a s hinv ↦ ?_
  have hrows := visitRows_upholds upholds (fun r hr ↦ carries r (.inr (.inl hr))) hinv
  refine ⟨?_, hrows.ends⟩
  rintro r (hr | hr | hr)
  · exact carries r (.inl hr)
  · exact hrows.node r hr
  · exact absurd hr (Lookahead.after_ne_buffered _ r)

private theorem scan_yields {c : Scan τ} {P : Row → Prop}
    (reads : Reads c.table P (fun _ : Unit ↦ states) (FailsWithin fails states))
    (carries : ∀ r, r ∈ c.pending ∨ c.look = .ready (some r) → P r)
    (isOpen : c.look ≠ .closed) {visit : Visitor σ α} {good : α → Prop} {a : α} {s : σ}
    (upholds : visit.Upholds P (Within good states) (FailsWithin fails states)) (ha : good a)
    (hs : states s) :
    (c.forRows visit a s).Upholds (fun c' ↦ ∀ r, r ∈ c'.pending ∨ c'.look = .ready (some r) → P r)
      (Within good states) (FailsWithin fails states) := by
  have hnode : ∀ look : Lookahead, (∀ r, look ≠ .ready (some r)) →
      ∀ r, r ∈ c.pending ∨ look = .ready (some r) → P r := by
    rintro look empty r (hr | hr)
    · exact carries r (.inl hr)
    · exact absurd hr (empty r)
  rw [Scan.forRows]
  refine Lookahead.resume_upholds (fun isClosed ↦ absurd isClosed isOpen)
    (hnode _ Lookahead.forall_ready_none) (hnode _ Lookahead.forall_exhausted)
    (fun r hr ↦ carries r (.inr hr)) upholds ⟨ha, hs⟩ fun a s hinv ↦ ?_
  have hrows := visitRows_upholds upholds (fun r hr ↦ carries r (.inl hr)) hinv
  rcases hvisited : visitRows visit c.pending a s with ⟨e | ⟨a'⟩ | ⟨a'⟩, rest, s'⟩
  · rw [hvisited] at hrows
    exact ⟨fun r hr ↦ hr.elim (hrows.node r) (Lookahead.forall_ready_none r), hrows.ends⟩
  · rw [hvisited] at hrows
    exact ⟨fun r hr ↦ hr.elim (hrows.node r) (Lookahead.forall_ready_none r), hrows.ends⟩
  · rw [hvisited] at hrows
    have hpages := visitPages_upholds (reads.within good) upholds (c.pageCount - c.nextPage)
      c.nextPage hrows.ends
    exact ⟨fun r hr ↦ hpages.node r (hr.resolve_right (Lookahead.after_ne_buffered _ r)),
      hpages.ends⟩

private theorem guard_upholds_of_kinds {p : Predicate} {P Q : Row → Prop} (kinds : ∀ r, P r → Q r)
    (admits : ∀ r e, P r → p.holds r = .error e → fails e) {visit : Visitor σ α} {good : α → Prop}
    (upholds : visit.Upholds Q (Within good states) (FailsWithin fails states)) :
    (p.guard visit).Upholds P (Within good states) (FailsWithin fails states) := by
  intro r a s hr hinv
  rw [Predicate.guard]
  rcases hholds : p.holds r with e | _ | _
  · exact ⟨admits r e hr hholds, hinv.2⟩
  · exact hinv
  · exact upholds r a s (kinds r hr) hinv

private theorem storeRows_stays {b : Batch τ} {P : Row → Prop} (writes : b.Writes P states fails)
    (insert : b.change = .insert) {rows : List Row} (hrows : ∀ r ∈ rows, P r) (n : Nat) {s : σ}
    (hs : states s) :
    states (storeRows b.table rows n s).2
      ∧ ∀ e, (storeRows b.table rows n s).1 = .error e → fails e := by
  rw [Batch.Writes, insert] at writes
  induction rows generalizing n s with
  | nil => exact ⟨hs, nofun⟩
  | cons r rest ih =>
    obtain ⟨hstore, hfails⟩ := writes r s (hrows r List.mem_cons_self) hs
    rw [storeRows]
    rcases hinsert : Storage.insert b.table r s with ⟨e | id, s'⟩
    · rw [hinsert] at hstore hfails
      refine ⟨hstore, fun e' he ↦ ?_⟩
      cases he
      exact hfails e n rfl
    · rw [hinsert] at hstore
      exact ih (fun r hr ↦ hrows r (List.mem_cons_of_mem _ hr)) (n + 1) hstore

private theorem upholds_removeRow {b : Batch τ} {P : Row → Prop} (writes : b.Writes P states fails)
    (delete : b.change = .delete) :
    (removeRow b.table).Upholds P (Within (fun _ ↦ True) states) (FailsWithin fails states) := by
  rw [Batch.Writes, delete] at writes
  intro r n s hr hinv
  obtain ⟨hstore, hfails⟩ := writes r s hr hinv.2
  rw [removeRow]
  rcases hdelete : Storage.delete b.table r s with ⟨e | ⟨⟩, s'⟩
  · rw [hdelete] at hstore hfails
    exact ⟨hfails e n rfl, hstore⟩
  · rw [hdelete] at hstore
    exact ⟨trivial, hstore⟩

private theorem writeInput_stays {b : Batch τ} {input : Operator τ} {P : Row → Prop}
    (writes : b.Writes P states fails) (yields : input.Yields P (Carries kind) states fails)
    {s : σ} (hs : states s) :
    (writeInput b input s).Stays (Carries kind) states (fun _ ↦ True) fails := by
  rw [writeInput]
  cases hchange : b.change with
  | insert =>
    have hrows := yields _ gather (fun rows ↦ ∀ r ∈ rows, P r) [] s
      (fun r rows s hr hinv ↦ ⟨fun r' hr' ↦ (List.mem_cons.mp hr').elim (fun h ↦ h ▸ hr)
        (hinv.1 r'), hinv.2⟩) (List.forall_mem_nil P) hs
    dsimp only
    generalize input.forRows gather [] s = gathered at hrows
    obtain ⟨e | rows, input', s'⟩ := gathered
    · exact Reply.stays_error hrows.node hrows.ends.2 hrows.ends.1
    · obtain ⟨hstore, hfails⟩ := storeRows_stays writes hchange
        (fun r hr ↦ hrows.ends.1 r (List.mem_reverse.mp hr)) 0 hrows.ends.2
      exact ⟨hrows.node, hstore, fun _ _ ↦ trivial, hfails⟩
  | delete =>
    exact (yields _ (removeRow b.table) (fun _ ↦ True) 0 s (upholds_removeRow writes hchange)
      trivial hs).stays

/-- No row gets to a visitor that is not of the kind of the operator. -/
theorem Carries.yields (kinds : Kinds kind) (admits : op.Admits kind states fails)
    (carries : op.Carries kind) (runs : op.Runs fails) :
    op.Yields (kind op.bare) (Carries kind) states fails := by
  induction op with
  | values v =>
    refine yields_of_open carries runs fun isOpen α visit good a s upholds ha hs ↦ ?_
    obtain ⟨hnode, hends⟩ := values_yields carries isOpen upholds ha hs
    refine ⟨?_, hends⟩
    change Values.Carries _ (kind ((values v).forRows visit a s).node.bare)
    rw [bare_forRows]
    exact hnode
  | scan c =>
    refine yields_of_open carries runs fun isOpen α visit good a s upholds ha hs ↦ ?_
    obtain ⟨hnode, hends⟩ := scan_yields admits.2 carries isOpen upholds ha hs
    refine ⟨fun r hr ↦ ?_, hends⟩
    change kind ((scan c).forRows visit a s).node.bare r
    rw [bare_forRows]
    exact hnode r hr
  | filter p look input ih =>
    refine yields_of_open carries runs fun isOpen α visit good a s upholds ha hs ↦ ?_
    have yields := ih admits.2 carries.2 (runs.imp_right fun h ↦ ⟨h.1.2, h.1.1 isOpen⟩)
    rw [forRows]
    refine Lookahead.resume_upholds (fun isClosed ↦ absurd isClosed isOpen)
      ⟨Lookahead.forall_ready_none, carries.2⟩ ⟨Lookahead.forall_exhausted, carries.2⟩ carries.1
      upholds ⟨ha, hs⟩ fun a s hinv ↦ ?_
    have hinput := yields α (p.guard visit) good a s
      (guard_upholds_of_kinds (kinds.filter p input.bare) admits.1 upholds) hinv.1 hinv.2
    exact ⟨⟨fun r hr ↦ absurd hr (Lookahead.after_ne_buffered _ r), hinput.node⟩, hinput.ends⟩
  | modify b input ih =>
    refine yields_of_open carries runs fun isOpen α visit good a s upholds ha hs ↦ ?_
    have yields := ih admits.2 carries.2 (runs.imp_right fun h ↦ ⟨h.1.2, h.1.1 isOpen⟩)
    rw [forRows_modify]
    refine Lookahead.resume_upholds (fun isClosed ↦ absurd isClosed isOpen)
      ⟨Lookahead.forall_ready_none, carries.2⟩ ⟨Lookahead.forall_exhausted, carries.2⟩ carries.1
      upholds ⟨ha, hs⟩ fun a s hinv ↦ ?_
    split
    · exact ⟨⟨Lookahead.forall_exhausted, carries.2⟩, hinv⟩
    · have hwritten := writeInput_stays admits.1 yields hinv.2
      dsimp only
      split
      · next e he =>
        exact ⟨⟨Lookahead.forall_ready_none, hwritten.node⟩, hwritten.error e he, hwritten.store⟩
      · next n hn =>
        have hvisit := upholds (countRow n) a (writeInput b input s).store
          (kinds.count _ input.bare n) ⟨hinv.1, hwritten.store⟩
        exact ⟨⟨fun r hr ↦ absurd hr (Lookahead.after_ne_buffered _ r), hwritten.node⟩, hvisit⟩
  | aggregate spec schema groups input ih =>
    refine yields_of_open carries runs fun isOpen α visit good a s upholds ha hs ↦ ?_
    cases groups with
    | none => exact absurd rfl isOpen
    | some v =>
      obtain ⟨hnode, hends⟩ := values_yields (carries.1 v rfl) isOpen upholds ha hs
      refine ⟨⟨fun v' hv' ↦ ?_, carries.2⟩, hends⟩
      cases hv'
      exact hnode

theorem Carries.pull (kinds : Kinds kind) (admits : op.Admits kind states fails)
    (carries : op.Carries kind) (runs : op.Runs fails) {s : σ} (hs : states s) :
    (op.pull s).Stays (Carries kind) states (fun row? ↦ ∀ r, row? = some r → kind op.bare r)
      fails := by
  refine (carries.yields kinds admits runs _ takeFirst
    (fun row? ↦ ∀ r, row? = some r → kind op.bare r) none s (fun r _ s hr hinv ↦ ?_) nofun hs).stays
  refine ⟨fun r' hr' ↦ ?_, hinv.2⟩
  cases hr'
  exact hr

/-! ## The lifecycle -/

omit [Storage σ τ] in
theorem carries_closed_scan {c : Scan τ} (pending : c.pending = []) (look : c.look = .closed) :
    (scan c).Carries kind := by
  rintro r (hr | hr)
  · rw [pending] at hr
    cases hr
  · rw [look] at hr
    cases hr

omit [Storage σ τ] in
theorem Carries.close (carries : op.Carries kind) : op.close.Carries kind := by
  induction op with
  | values v =>
    rintro r (hr | hr | hr)
    · exact carries r (.inl hr)
    · exact carries r (.inr (.inl hr))
    · cases hr
  | scan c => exact carries_closed_scan rfl rfl
  | filter p look input ih => exact ⟨Lookahead.forall_closed, ih carries.2⟩
  | modify b input ih => exact ⟨Lookahead.forall_closed, ih carries.2⟩
  | aggregate spec schema groups input ih => exact ⟨nofun, ih carries.2⟩

private theorem carries_buffer_values {v : Values} {P : Row → Prop} (carries : v.Carries P)
    {r : Row} (hr : P r) : ({ v with look := .ready (some r) } : Values).Carries P := by
  rintro r' (hr' | hr' | hr')
  · exact carries r' (.inl hr')
  · exact carries r' (.inr (.inl hr'))
  · cases hr'
    exact hr

omit [Storage σ τ] in
theorem Carries.buffer (carries : op.Carries kind) {r : Row} (hr : kind op.bare r) :
    (op.buffer r).Carries kind := by
  cases op with
  | values v => exact carries_buffer_values carries hr
  | scan c =>
    rintro r' (hr' | hr')
    · exact carries r' (.inl hr')
    · cases hr'
      exact hr
  | filter p look input =>
    refine ⟨fun r' hr' ↦ ?_, carries.2⟩
    cases hr'
    exact hr
  | modify b input =>
    refine ⟨fun r' hr' ↦ ?_, carries.2⟩
    cases hr'
    exact hr
  | aggregate spec schema groups input =>
    cases groups with
    | none => exact carries
    | some v =>
      refine ⟨fun v' hv' ↦ ?_, carries.2⟩
      cases hv'
      exact carries_buffer_values (carries.1 v rfl) hr

private theorem id?_of_mem_results {g : Grouping} {r : Row} (hr : r ∈ g.results) :
    r.id? = none := by
  obtain ⟨group, -, rfl⟩ := List.mem_map.mp hr
  rfl

omit [Storage σ τ] in
private theorem mergeRow_upholds {spec : Aggregation} {input output : Schema} {P : Row → Prop}
    {good : Grouping → Prop} (handles : spec.Handles input output P fails good) :
    (mergeRow : Visitor σ Grouping).Upholds P (Within good states) (FailsWithin fails states) := by
  intro r g s hr hinv
  rw [mergeRow]
  cases hmerge : g.merge r with
  | error e => exact ⟨handles.merge_error g r e hinv.1 hr hmerge, hinv.2⟩
  | ok g' => exact ⟨handles.merge g r g' hinv.1 hr hmerge, hinv.2⟩

theorem Carries.groupsOf {spec : Aggregation} {schema : Schema} {input : Operator τ}
    (kinds : Kinds kind) (admits : (aggregate spec schema none input).Admits kind states fails)
    (carries : input.Carries kind) (runs : (∀ label, fails (.notOpen label)) ∨ input.InOrder)
    {s : σ} (opens : (input.openOn s).Stays (Carries kind) states (fun _ ↦ True) fails)
    (hs : states s) :
    (input.groupsOf spec schema s).Stays (Carries kind) states
      (fun v ↦ v.Carries (kind (aggregate spec schema none input.bare))) fails := by
  obtain ⟨⟨good, handles⟩, admits⟩ := admits
  rw [Operator.groupsOf, groupInput_eq]
  cases hg : Grouping.ofSchema input.schema spec with
  | error e => exact Reply.stays_error carries hs (handles.start_error e hg)
  | ok g =>
    have hbare := input.bare_openOn s
    dsimp only
    rcases hopened : input.openOn s with ⟨e | ⟨⟩, input', s'⟩
    · rw [hopened] at opens
      exact Reply.stays_error opens.node opens.store (opens.error e rfl)
    · rw [hopened] at opens hbare
      have runs' : input'.Runs fails :=
        runs.imp_right fun order ↦ ⟨order.openOn hopened, look_openOn_ne_closed hopened⟩
      have hrows := opens.node.yields kinds (admits.of_bare_eq hbare) runs' _ mergeRow good g s'
        (hbare ▸ mergeRow_upholds handles) (handles.start g hg) opens.store
      rw [groupOpened]
      generalize input'.forRows mergeRow g s' = merged at hrows ⊢
      obtain ⟨e | last, input'', s''⟩ := merged
      · exact Reply.stays_error hrows.node.close hrows.ends.2 hrows.ends.1
      · refine ⟨hrows.node.close, hrows.ends.2, fun v hv ↦ ?_, fun e he ↦ ?_⟩
        · obtain ⟨hconforms, rfl⟩ := Values.ofRows_eq_ok_iff.mp hv
          rintro r (hr | hr | hr)
          · exact kinds.group spec schema input.bare r (hconforms r hr) (id?_of_mem_results hr)
          · cases hr
          · cases hr
        · obtain ⟨r, hr, hconforms, rfl⟩ := Values.ofRows_eq_error he
          exact (handles.results _ r hrows.ends.1 hr).resolve_left hconforms

private theorem carries_restarted {v : Values} {P : Row → Prop} (carries : v.Carries P) :
    ({ v with pending := v.rows, look := .ready none } : Values).Carries P := by
  rintro r (hr | hr | hr)
  · exact carries r (.inl hr)
  · exact carries r (.inl hr)
  · cases hr

private theorem carries_opened {v : Values} {P : Row → Prop} (carries : v.Carries P) :
    v.opened.Carries P := by
  rw [Values.opened]
  split
  · exact carries_restarted carries
  · exact carries

private theorem reset_stays {c : Scan τ} {P : Row → Prop} {s : σ}
    (counts : states (Storage.pageCount c.table s).2
      ∧ ∀ e, (Storage.pageCount c.table s).1 = .error e → fails (.storage e))
    (carries : ∀ r ∈ c.pending, P r) :
    (Scan.reset { c with look := .ready none } s).Stays
      (fun c' ↦ ∀ r, r ∈ c'.pending ∨ c'.look = .ready (some r) → P r) states (fun _ ↦ True)
      fails := by
  rw [Scan.reset]
  rcases hcount : Storage.pageCount c.table s with ⟨e | n, s'⟩
  · rw [hcount] at counts
    refine Reply.stays_error (fun r hr ↦ ?_) counts.1 (counts.2 e rfl)
    exact hr.elim (carries r) (Lookahead.forall_ready_none r)
  · rw [hcount] at counts
    refine Reply.stays_ok (fun r hr ↦ ?_) counts.1 trivial
    exact hr.elim (absurd · List.not_mem_nil) (Lookahead.forall_ready_none r)

/-- Opening leaves an open operator alone, so that only a closed one has to be looked at. -/
private theorem openOn_stays_of_closed (carries : op.Carries kind) {s : σ} (hs : states s)
    (opens : op.look = .closed → (op.openOn s).Stays (Carries kind) states (fun _ ↦ True) fails) :
    (op.openOn s).Stays (Carries kind) states (fun _ ↦ True) fails := by
  by_cases isClosed : op.look = .closed
  · exact opens isClosed
  · rw [openOn_of_open isClosed]
    exact Reply.stays_ok carries hs trivial

theorem Carries.openOn (kinds : Kinds kind) (admits : op.Admits kind states fails)
    (carries : op.Carries kind) (runs : (∀ label, fails (.notOpen label)) ∨ op.InOrder) {s : σ}
    (hs : states s) : (op.openOn s).Stays (Carries kind) states (fun _ ↦ True) fails := by
  induction op generalizing s with
  | values v =>
    refine Reply.stays_ok ?_ hs trivial
    change Values.Carries _ (kind ((values v).openOn s).node.bare)
    rw [bare_openOn]
    exact carries_opened carries
  | scan c =>
    refine openOn_stays_of_closed carries hs fun isClosed ↦ ?_
    have hreset := reset_stays (admits.1 s hs) fun r hr ↦ carries r (.inl hr)
    have hopen : (scan c).openOn s = (Scan.reset { c with look := .ready none } s).mapNode scan :=
      if_pos (congrArg Lookahead.isClosed isClosed)
    have hbare := (scan c).bare_openOn s
    rw [hopen] at hbare ⊢
    refine ⟨fun r hr ↦ ?_, hreset.store, hreset.answer, hreset.error⟩
    change kind ((Scan.reset { c with look := .ready none } s).mapNode scan).node.bare r
    rw [hbare]
    exact hreset.node r hr
  | filter p look input ih =>
    refine openOn_stays_of_closed carries hs fun isClosed ↦ ?_
    obtain rfl : look = .closed := isClosed
    have hinput := ih admits.2 carries.2 (runs.imp_right And.right) hs
    exact ⟨⟨Lookahead.forall_ready_none, hinput.node⟩, hinput.store, hinput.answer, hinput.error⟩
  | modify b input ih =>
    refine openOn_stays_of_closed carries hs fun isClosed ↦ ?_
    have hopen : (modify b input).openOn s
        = (input.openOn s).mapNode (modify { b with done := false, look := .ready none }) :=
      if_pos (congrArg Lookahead.isClosed isClosed)
    have hinput := ih admits.2 carries.2 (runs.imp_right And.right) hs
    rw [hopen]
    exact ⟨⟨Lookahead.forall_ready_none, hinput.node⟩, hinput.store, hinput.answer, hinput.error⟩
  | aggregate spec schema groups input ih =>
    refine openOn_stays_of_closed carries hs fun _ ↦ ?_
    cases groups with
    | some v =>
      refine Reply.stays_ok ⟨fun v' hv' ↦ ?_, carries.2⟩ hs trivial
      cases hv'
      exact carries_opened (carries.1 v rfl)
    | none =>
      have hinput := ih admits.2 carries.2 runs hs
      have hgroups := Carries.groupsOf kinds admits carries.2 runs hinput hs
      have hbare := bare_groupInput spec schema input input.bare_openOn s
      rw [Operator.openOn]
      rw [Operator.groupsOf] at hgroups
      generalize groupInput spec schema input (fun s ↦ input.openOn s) s = grouped
        at hgroups hbare ⊢
      obtain ⟨e | v, input', s'⟩ := grouped
      · refine Reply.stays_error ⟨fun v' hv' ↦ ?_, hgroups.node⟩ hgroups.store
          (hgroups.error e rfl)
        cases hv'
      · refine Reply.stays_ok ⟨fun v' hv' ↦ ?_, hgroups.node⟩ hgroups.store trivial
        cases hv'
        have hcarries := carries_opened (hgroups.answer v rfl)
        rwa [← hbare] at hcarries

/-- A closed operator refuses to be rewound, so that only an open one has to be looked at. -/
private theorem rewindOn_stays_of_open (carries : op.Carries kind)
    (closed : ∀ label, fails (.notOpen label)) {s : σ} (hs : states s)
    (rewinds : op.look ≠ .closed →
      (op.rewindOn s).Stays (Carries kind) states (fun _ ↦ True) fails) :
    (op.rewindOn s).Stays (Carries kind) states (fun _ ↦ True) fails := by
  by_cases isClosed : op.look = .closed
  · rw [rewindOn_of_closed isClosed]
    exact Reply.stays_error carries hs (closed _)
  · exact rewinds isClosed

theorem Carries.rewindOn (admits : op.Admits kind states fails) (carries : op.Carries kind)
    (closed : ∀ label, fails (.notOpen label)) {s : σ} (hs : states s) :
    (op.rewindOn s).Stays (Carries kind) states (fun _ ↦ True) fails := by
  induction op generalizing s with
  | values v =>
    refine rewindOn_stays_of_open carries closed hs fun isOpen ↦ ?_
    have hlook : v.look ≠ .closed := isOpen
    rw [Operator.rewindOn, Values.rewound, Lookahead.rewound_of_open _ hlook]
    exact Reply.stays_ok (carries_restarted carries) hs trivial
  | scan c =>
    refine rewindOn_stays_of_open carries closed hs fun isOpen ↦ ?_
    have hlook : c.look ≠ .closed := isOpen
    have hreset := reset_stays (admits.1 s hs) fun r hr ↦ carries r (.inl hr)
    have hbare := (scan c).bare_rewindOn s
    rw [Operator.rewindOn, Lookahead.rewound_of_open _ hlook] at hbare ⊢
    refine ⟨fun r hr ↦ ?_, hreset.store, hreset.answer, hreset.error⟩
    change kind ((Scan.reset { c with look := .ready none } s).mapNode scan).node.bare r
    rw [hbare]
    exact hreset.node r hr
  | filter p look input ih =>
    refine rewindOn_stays_of_open carries closed hs fun isOpen ↦ ?_
    have hlook : look ≠ .closed := isOpen
    have hinput := ih admits.2 carries.2 hs
    rw [Operator.rewindOn, Lookahead.rewound_of_open _ hlook]
    exact ⟨⟨Lookahead.forall_ready_none, hinput.node⟩, hinput.store, hinput.answer, hinput.error⟩
  | modify b input ih =>
    refine rewindOn_stays_of_open carries closed hs fun isOpen ↦ ?_
    have hlook : b.look ≠ .closed := isOpen
    have hinput := ih admits.2 carries.2 hs
    rw [Operator.rewindOn, Lookahead.rewound_of_open _ hlook]
    exact ⟨⟨Lookahead.forall_ready_none, hinput.node⟩, hinput.store, hinput.answer, hinput.error⟩
  | aggregate spec schema groups input ih =>
    refine rewindOn_stays_of_open carries closed hs fun isOpen ↦ ?_
    cases groups with
    | none => exact absurd rfl isOpen
    | some v =>
      have hlook : v.look ≠ .closed := isOpen
      rw [Operator.rewindOn, Values.rewound, Lookahead.rewound_of_open _ hlook]
      refine Reply.stays_ok ⟨fun v' hv' ↦ ?_, carries.2⟩ hs trivial
      cases hv'
      exact carries_restarted (carries.1 v rfl)

/-! ## Requests -/

/-- What can go wrong with any operator is a failure of the given sort: that it is closed, or has no
more rows. -/
structure Usual (fails : QueryError → Prop) : Prop where
  closed : ∀ label, fails (.notOpen label)
  exhausted : ∀ label, fails (.noMoreRows label)

theorem Usual.univ : Usual fun _ ↦ True :=
  ⟨fun _ ↦ trivial, fun _ ↦ trivial⟩

/-- **One request.** Rows of the kind are handed out, rows of their kinds are in hand after that,
and the storage stays among the given states. -/
theorem Carries.serve (kinds : Kinds kind) (admits : op.Admits kind states fails)
    (carries : op.Carries kind) (usual : Usual fails) {s : σ} (hs : states s) (q : Request) :
    (op.serve s q).Stays (Carries kind) states (fun a ↦ ∀ r, a = .row r → kind op.bare r)
      fails := by
  have hpull := carries.pull kinds admits (.inl usual.closed) hs
  have hbare : (op.pull s).node.bare = op.bare := op.bare_forRows takeFirst none s
  have hdone : ∀ r, Response.done = .row r → kind op.bare r := by
    intro r hr
    cases hr
  cases q with
  | opening => exact (carries.openOn kinds admits (.inl usual.closed) hs).map fun _ _ ↦ hdone
  | hasNext =>
    have hmore : (op.hasNext s).Stays (Carries kind) states (fun _ ↦ True) fails := by
      rw [hasNext]
      generalize op.pull s = pulled at hpull hbare ⊢
      obtain ⟨e | _ | r, op', s'⟩ := pulled
      · exact Reply.stays_error hpull.node hpull.store (hpull.error e rfl)
      · exact Reply.stays_ok hpull.node hpull.store trivial
      · have hr : kind op'.bare r := hbare ▸ hpull.answer _ rfl r rfl
        exact Reply.stays_ok (hpull.node.buffer hr) hpull.store trivial
    refine hmore.map fun more _ r hr ↦ ?_
    cases hr
  | next =>
    have hnext : (op.next s).Stays (Carries kind) states (kind op.bare) fails := by
      rw [next]
      generalize op.pull s = pulled at hpull ⊢
      obtain ⟨e | _ | r, op', s'⟩ := pulled
      · exact Reply.stays_error hpull.node hpull.store (hpull.error e rfl)
      · exact Reply.stays_error hpull.node hpull.store (usual.exhausted _)
      · exact Reply.stays_ok hpull.node hpull.store (hpull.answer _ rfl r rfl)
    refine hnext.map fun r hr r' hr' ↦ ?_
    cases hr'
    exact hr
  | rewinding => exact (carries.rewindOn admits usual.closed hs).map fun _ _ ↦ hdone
  | closing => exact Reply.stays_ok carries.close hs hdone

/-- **A run.** What holds of one request holds of the requests in order. -/
theorem Carries.serveAll (kinds : Kinds kind) (admits : op.Admits kind states fails)
    (carries : op.Carries kind) (usual : Usual fails) {s : σ} (hs : states s)
    (requests : List Request) :
    (op.serveAll s requests).2.1.Carries kind ∧ states (op.serveAll s requests).2.2
      ∧ ∀ a ∈ (op.serveAll s requests).1,
        (∀ r, a = .ok (.row r) → kind op.bare r) ∧ ∀ e, a = .error e → fails e := by
  induction requests generalizing op s with
  | nil => exact ⟨carries, hs, nofun⟩
  | cons q rest ih =>
    have hserve := carries.serve kinds admits usual hs q
    have hbare := op.bare_serve s q
    obtain ⟨hnode, hstore, hanswers⟩ := ih (admits.of_bare_eq hbare) hserve.node hserve.store
    refine ⟨hnode, hstore, fun a ha ↦ ?_⟩
    rcases List.mem_cons.mp ha with rfl | ha
    · exact ⟨fun r hr ↦ hserve.answer _ hr r rfl, hserve.error⟩
    · exact hbare ▸ hanswers a ha

/-! ## Building an aggregation -/

theorem bare_buildAggregate {spec : Aggregation} {input : Operator τ} {s : σ}
    (built : (input.buildAggregate spec s).1 = .ok op) :
    ∃ schema g, spec.schema input.schema = .ok schema
      ∧ Grouping.ofSchema input.schema spec = .ok g
      ∧ op.bare = (aggregate spec schema none input).bare := by
  obtain ⟨schema, groups, input', hschema, hgroups, rfl, hbare⟩ :=
    aggregate_of_buildAggregate (Prod.ext built rfl)
  rw [Operator.groupsOf, groupInput_eq] at hgroups
  cases hg : Grouping.ofSchema input.schema spec with
  | error e =>
    rw [hg] at hgroups
    cases hgroups
  | ok g => exact ⟨schema, g, hschema, rfl, congrArg (aggregate spec schema none) hbare⟩

/-- An aggregation that is built carries rows of their kinds, or its schema or its groups fail. -/
theorem Carries.buildAggregate {spec : Aggregation} {input : Operator τ} (kinds : Kinds kind)
    (admits : ∀ schema, spec.schema input.schema = .ok schema →
      (aggregate spec schema none input).Admits kind states fails) (carries : input.Carries kind)
    (runs : (∀ label, fails (.notOpen label)) ∨ input.InOrder) {s : σ} (hs : states s) :
    states (input.buildAggregate spec s).2
      ∧ (∀ op, (input.buildAggregate spec s).1 = .ok op → op.Carries kind)
      ∧ ∀ e, (input.buildAggregate spec s).1 = .error e →
        spec.schema input.schema = .error e ∨ fails e := by
  rw [Operator.buildAggregate]
  cases hschema : spec.schema input.schema with
  | error e =>
    refine ⟨hs, fun op hop ↦ ?_, fun e' he ↦ ?_⟩
    · cases hop
    · cases he
      exact .inl rfl
  | ok schema =>
    have admits := admits schema hschema
    have hgroups :=
      Carries.groupsOf kinds admits carries runs (carries.openOn kinds admits.2 runs hs) hs
    have hbare := bare_groupInput spec schema input input.bare_openOn s
    rw [Operator.groupsOf] at hgroups
    dsimp only [Operator.groupsOf]
    generalize groupInput spec schema input input.openOn s = grouped at hgroups hbare ⊢
    obtain ⟨e | v, input', s'⟩ := grouped
    · refine ⟨hgroups.store, fun op hop ↦ ?_, fun e' he ↦ ?_⟩
      · cases hop
      · cases he
        exact .inr (hgroups.error e rfl)
    · refine ⟨hgroups.store, fun op hop ↦ ?_, fun e he ↦ ?_⟩
      · cases hop
        refine ⟨fun v' hv' ↦ ?_, hgroups.node⟩
        cases hv'
        have hcarries := hgroups.answer v rfl
        rwa [← hbare] at hcarries
      · cases he

end

end Operator

end QueryEngine
