import QueryEngine.Proofs.Operator.History

/-!
# Trees in order

An operator that is open below a closed one does no harm, but a closed one below an open filter or
modification refuses the traversals of the other. In a tree that is `Operator.InOrder` this does not
occur. Trees are in order once they are closed, and a request leaves them in order unless it is an
opening that fails (`InOrder.serve`): that may leave a filter open over an aggregation that could
not be opened.
-/

namespace QueryEngine

namespace Operator

variable {σ τ α : Type}

/-- Below every filter and every modification that is open, the input is open. -/
def InOrder : Operator τ → Prop
  | values _ | scan _ => True
  | filter _ look input => (look ≠ .closed → input.look ≠ .closed) ∧ input.InOrder
  | modify b input => (b.look ≠ .closed → input.look ≠ .closed) ∧ input.InOrder
  | aggregate _ _ _ input => input.InOrder

theorem inOrder_close (op : Operator τ) : op.close.InOrder := by
  induction op with
  | values v => trivial
  | scan c => trivial
  | filter p look input ih => exact ⟨fun h ↦ absurd rfl h, ih⟩
  | modify b input ih => exact ⟨fun h ↦ absurd rfl h, ih⟩
  | aggregate spec schema groups input ih => exact ih

variable {op : Operator τ}

theorem InOrder.buffer (order : op.InOrder) (isOpen : op.look ≠ .closed) (r : Row) :
    (op.buffer r).InOrder := by
  cases op with
  | values v => trivial
  | scan c => trivial
  | filter p look input => exact ⟨fun _ ↦ order.1 isOpen, order.2⟩
  | modify b input => exact ⟨fun _ ↦ order.1 isOpen, order.2⟩
  | aggregate spec schema groups input => exact order

variable [Storage σ τ]

/-! ## Traversals -/

theorem InOrder.forRows (order : op.InOrder) (visit : Visitor σ α) (a : α) (s : σ) :
    (op.forRows visit a s).node.InOrder := by
  by_cases isClosed : op.look = .closed
  · rw [forRows_of_closed isClosed]
    exact order
  induction op generalizing α s with
  | values v => trivial
  | scan c => trivial
  | filter p look input ih =>
    have hinput := order.1 isClosed
    rw [Operator.forRows]
    refine Lookahead.node_resume (P := InOrder) (fun _ ↦ ⟨fun _ ↦ hinput, order.2⟩)
      fun a s ↦ ?_
    have hlook : (input.forRows (p.guard visit) a s).node.look ≠ .closed :=
      look_forRows_ne_closed hinput (p.guard visit) a s
    exact ⟨fun _ ↦ hlook, ih order.2 (p.guard visit) a s hinput⟩
  | modify b input ih =>
    have hinput := order.1 isClosed
    have hwritten : ∀ s : σ, (writeInput b input s).node.look ≠ .closed
        ∧ (writeInput b input s).node.InOrder := by
      intro s
      rw [writeInput]
      split
      · dsimp only
        split
        · exact ⟨look_forRows_ne_closed hinput gather [] s, ih order.2 gather [] s hinput⟩
        · exact ⟨look_forRows_ne_closed hinput gather [] s, ih order.2 gather [] s hinput⟩
      · exact ⟨look_forRows_ne_closed hinput (removeRow b.table) 0 s,
          ih order.2 (removeRow b.table) 0 s hinput⟩
    rw [forRows_modify]
    refine Lookahead.node_resume (P := InOrder) (fun look' ↦ ⟨fun _ ↦ hinput, order.2⟩)
      fun a s ↦ ?_
    split
    · exact ⟨fun _ ↦ hinput, order.2⟩
    · dsimp only
      split
      · exact ⟨fun _ ↦ (hwritten s).1, (hwritten s).2⟩
      · exact ⟨fun _ ↦ (hwritten s).1, (hwritten s).2⟩
  | aggregate spec schema groups input ih =>
    cases groups with
    | none => exact order
    | some v => exact order

theorem InOrder.pull (order : op.InOrder) (s : σ) : (op.pull s).node.InOrder :=
  order.forRows takeFirst none s

/-! ## The lifecycle -/

theorem look_openOn_ne_closed {s s' : σ} {op' : Operator τ}
    (opens : op.openOn s = ⟨.ok (), op', s'⟩) : op'.look ≠ .closed := by
  by_cases isClosed : op.look = .closed
  · cases op with
    | values v =>
      have hlook : v.look = .closed := isClosed
      rw [openOn, Values.opened, hlook] at opens
      cases opens
      exact Lookahead.ready_ne_closed none
    | scan c =>
      have hlook : c.look = .closed := isClosed
      rw [openOn, hlook] at opens
      dsimp only [Lookahead.isClosed, Scan.reset] at opens
      generalize (Storage.pageCount c.table s : Except StorageError Nat × σ) = counted at opens
      obtain ⟨e | n, s₁⟩ := counted <;> cases opens
      exact Lookahead.ready_ne_closed none
    | filter p look input =>
      obtain rfl : look = .closed := isClosed
      obtain rfl : filter p (.ready none) (input.openOn s).node = op' := congrArg Reply.node opens
      exact Lookahead.ready_ne_closed none
    | modify b input =>
      have hlook : b.look = .closed := isClosed
      rw [openOn, hlook, Lookahead.isClosed, if_pos rfl] at opens
      obtain rfl :
          modify { b with done := false, look := .ready none } (input.openOn s).node = op' :=
        congrArg Reply.node opens
      exact Lookahead.ready_ne_closed none
    | aggregate spec schema groups input =>
      have hopened : ∀ v : Values, v.opened.look ≠ .closed := by
        intro v
        rw [Values.opened]
        split
        · exact Lookahead.ready_ne_closed none
        · next h => exact fun hclosed ↦ h (congrArg Lookahead.isClosed hclosed)
      cases groups with
      | some v =>
        cases opens
        exact hopened v
      | none =>
        rw [openOn] at opens
        split at opens
        · cases opens
          exact hopened _
        · cases opens
  · rw [openOn_of_open isClosed] at opens
    cases opens
    exact isClosed

omit [Storage σ τ] in
private theorem of_mapNode_eq {ν : Type} {reply : Reply ν σ α} {f : ν → Operator τ}
    {answer : Except QueryError α} {op : Operator τ} {s : σ}
    (h : reply.mapNode f = ⟨answer, op, s⟩) :
    ∃ node, reply = ⟨answer, node, s⟩ ∧ op = f node := by
  cases h
  exact ⟨reply.node, rfl, rfl⟩

theorem InOrder.openOn (order : op.InOrder) {s s' : σ} {op' : Operator τ}
    (opens : op.openOn s = ⟨.ok (), op', s'⟩) : op'.InOrder := by
  induction op generalizing op' s s' with
  | values v =>
    cases opens
    trivial
  | scan c =>
    rw [Operator.openOn] at opens
    split at opens
    · obtain ⟨c', -, rfl⟩ := of_mapNode_eq opens
      trivial
    · cases opens
      trivial
  | filter p look input ih =>
    rw [Operator.openOn] at opens
    split at opens
    · obtain ⟨input', hinput, rfl⟩ := of_mapNode_eq opens
      exact ⟨fun _ ↦ look_openOn_ne_closed hinput, ih order.2 hinput⟩
    · cases opens
      exact order
  | modify b input ih =>
    rw [Operator.openOn] at opens
    split at opens
    · obtain ⟨input', hinput, rfl⟩ := of_mapNode_eq opens
      exact ⟨fun _ ↦ look_openOn_ne_closed hinput, ih order.2 hinput⟩
    · cases opens
      exact order
  | aggregate spec schema groups input ih =>
    cases groups with
    | some v =>
      cases opens
      exact order
    | none =>
      rw [openOn_aggregate] at opens
      split at opens
      · cases opens
      · next g hg =>
        rcases hinput : input.openOn s with ⟨e | ⟨⟩, input', s₁⟩
        · rw [hinput] at opens
          cases opens
        · rw [hinput] at opens
          -- The pass over the input has closed it.
          obtain ⟨drained, -, hdrained⟩ := node_groupOpened schema g input' s₁
          generalize groupOpened schema g ⟨.ok (), input', s₁⟩ = grouped at opens hdrained
          obtain ⟨e | groups, closed, s₂⟩ := grouped
          · cases opens
          · cases opens
            obtain rfl : closed = drained.close := hdrained
            exact drained.inOrder_close

theorem look_rewindOn_ne_closed (isOpen : op.look ≠ .closed) (s : σ) :
    (op.rewindOn s).node.look ≠ .closed := by
  cases op with
  | values v =>
    have hlook : v.look ≠ .closed := isOpen
    rw [rewindOn, Values.rewound, Lookahead.rewound_of_open _ hlook]
    exact Lookahead.ready_ne_closed none
  | scan c =>
    have hlook : c.look ≠ .closed := isOpen
    rw [rewindOn, Lookahead.rewound_of_open _ hlook]
    dsimp only [Scan.reset]
    rcases (Storage.pageCount c.table s : Except StorageError Nat × σ) with ⟨e | n, s'⟩ <;>
      exact Lookahead.ready_ne_closed none
  | filter p look input =>
    have hlook : look ≠ .closed := isOpen
    rw [rewindOn, Lookahead.rewound_of_open _ hlook]
    exact Lookahead.ready_ne_closed none
  | modify b input =>
    have hlook : b.look ≠ .closed := isOpen
    rw [rewindOn, Lookahead.rewound_of_open _ hlook]
    exact Lookahead.ready_ne_closed none
  | aggregate spec schema groups input =>
    cases groups with
    | none => exact absurd rfl isOpen
    | some v =>
      have hlook : v.look ≠ .closed := isOpen
      rw [rewindOn, Values.rewound, Lookahead.rewound_of_open _ hlook]
      exact Lookahead.ready_ne_closed none

theorem InOrder.rewindOn (order : op.InOrder) (s : σ) : (op.rewindOn s).node.InOrder := by
  by_cases isClosed : op.look = .closed
  · rw [rewindOn_of_closed isClosed]
    exact order
  induction op generalizing s with
  | values v =>
    rw [Operator.rewindOn]
    split <;> trivial
  | scan c =>
    rw [Operator.rewindOn]
    split <;> trivial
  | filter p look input ih =>
    have hlook : look ≠ .closed := isClosed
    rw [Operator.rewindOn, Lookahead.rewound_of_open _ hlook]
    exact ⟨fun _ ↦ look_rewindOn_ne_closed (order.1 hlook) s, ih order.2 s (order.1 hlook)⟩
  | modify b input ih =>
    have hlook : b.look ≠ .closed := isClosed
    rw [Operator.rewindOn, Lookahead.rewound_of_open _ hlook]
    exact ⟨fun _ ↦ look_rewindOn_ne_closed (order.1 hlook) s, ih order.2 s (order.1 hlook)⟩
  | aggregate spec schema groups input ih =>
    cases groups with
    | none => exact order
    | some v =>
      rw [Operator.rewindOn]
      split <;> exact order

/-- A request leaves a tree in order, unless it is an opening that fails. -/
theorem InOrder.serve (order : op.InOrder) (s : σ) {q : Request}
    (opens : q = .opening → ∀ e, (op.serve s q).answer ≠ .error e) :
    (op.serve s q).node.InOrder := by
  have hpulled : q.isPull = true → (op.serve s q).node.InOrder := by
    intro hq
    rcases op.node_of_isPull s hq with hnode | ⟨r, hr, hnode⟩
    · rw [hnode]
      exact order.pull s
    · have isOpen : op.look ≠ .closed := by
        intro isClosed
        rw [Operator.pull, forRows_of_closed isClosed] at hr
        cases hr
      rw [hnode]
      exact (order.pull s).buffer (look_forRows_ne_closed isOpen takeFirst none s) r
  cases q with
  | opening =>
    have hopens := opens rfl
    rw [Operator.serve] at hopens ⊢
    rcases hopened : op.openOn s with ⟨e | ⟨⟩, op', s'⟩
    · rw [hopened] at hopens
      exact absurd rfl (hopens e)
    · exact order.openOn hopened
  | hasNext => exact hpulled rfl
  | next => exact hpulled rfl
  | rewinding => exact order.rewindOn s
  | closing => exact op.inOrder_close

/-! ## Building -/

/-- The pass of an aggregation over its input closes it, so that the aggregation is in order. -/
theorem inOrder_of_buildAggregate {spec : Aggregation} {input : Operator τ} {s : σ}
    (built : (input.buildAggregate spec s).1 = .ok op) : op.InOrder := by
  obtain ⟨schema, groups, input', -, hgroups, rfl, -⟩ :=
    aggregate_of_buildAggregate (Prod.ext built rfl)
  rw [groupsOf, groupInput_eq] at hgroups
  split at hgroups
  · cases hgroups
  · next g hg =>
    rcases hopened : input.openOn s with ⟨e | ⟨⟩, opened, s₁⟩
    · rw [hopened] at hgroups
      cases hgroups
    · rw [hopened] at hgroups
      obtain ⟨drained, -, hdrained⟩ := node_groupOpened schema g opened s₁
      rw [hgroups] at hdrained
      obtain rfl : input' = drained.close := hdrained
      exact drained.inOrder_close

theorem InOrder.buildModify {change : Modification} {table : τ} {input : Operator τ}
    (order : input.InOrder) {s : σ} (built : input.buildModify change table s = .ok op) :
    op.InOrder := by
  rw [Operator.buildModify] at built
  split at built
  · cases built
  · rw [checkInput] at built
    split at built
    · cases built
      exact ⟨fun h ↦ absurd rfl h, order⟩
    · cases built

/-- How a tree gets in order, and stays so. -/
structure KeepsOrder (op : Operator τ) (s : σ) : Prop where
  close : op.close.InOrder
  serve : op.InOrder → ∀ q, (q = .opening → ∀ e, (op.serve s q).answer ≠ .error e) →
    (op.serve s q).node.InOrder
  filter : op.InOrder → ∀ p, (filter p .closed op).InOrder
  modify : op.InOrder → ∀ change table built, op.buildModify change table s = .ok built →
    built.InOrder
  aggregate : ∀ spec built, (op.buildAggregate spec s).1 = .ok built → built.InOrder

/-- A tree is in order once it is closed. It stays so on every request but an opening that fails,
and when it is made part of a tree that is built. -/
theorem keepsOrder (op : Operator τ) (s : σ) : op.KeepsOrder s where
  close := op.inOrder_close
  serve order _ := order.serve s
  filter order _ := ⟨fun h ↦ absurd rfl h, order⟩
  modify order _ _ _ := order.buildModify
  aggregate _ _ := inOrder_of_buildAggregate

end Operator

end QueryEngine
