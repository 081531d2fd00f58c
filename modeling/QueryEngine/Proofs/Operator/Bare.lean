import QueryEngine.Operator.Plan

/-!
# Operators without their state

`Operator.bare` keeps of an operator what it was built from and drops all that the calls on it
change: the rows in hand, the page counts, the groups and the states of the lifecycle. No call
changes the bare operator, whatever it is answered and whatever the storage does. So facts that can
be read off the bare operator, the schema first of all, are facts about every state that an operator
gets into.

## The root

How an operator answers depends first of all on its root (`Operator.look`). A closed root refuses to
be traversed or rewound, an open one is left alone by opening, and in either case the whole operator
stays as it is.
-/

namespace QueryEngine

variable {σ τ ν α : Type}

/-! ## Traversals and the lifecycle -/

namespace Lookahead

theorem exhausted_ne_closed : exhausted ≠ closed :=
  fun h ↦ nomatch h

theorem ready_ne_closed (buffered : Option Row) : ready buffered ≠ closed :=
  fun h ↦ nomatch h

theorem after_ne_closed (answer : Except QueryError (ForInStep α)) : after answer ≠ closed := by
  rcases answer with e | ⟨a⟩ | ⟨a⟩ <;> exact fun h ↦ nomatch h

variable {look : Lookahead} {label : String} {visit : Visitor σ α} {a : α} {s : σ}
  {node : Lookahead → ν} {rest : α → σ → Reply ν σ (ForInStep α)}

/-- What holds of the four ways to begin a traversal holds of the reply. -/
theorem resume_cases {P : Reply ν σ (ForInStep α) → Prop}
    (hclosed : look = closed → P ⟨.error (.notOpen label), node closed, s⟩)
    (hexhausted : P ⟨.ok (.yield a), node exhausted, s⟩)
    (hbuffered : ∀ answer s', P ⟨answer, node (ready none), s'⟩)
    (hrest : ∀ a s, P (rest a s)) : P (look.resume label visit a s node rest) := by
  rcases look with _ | (_ | r) | _
  · exact hclosed rfl
  · exact hrest a s
  · rw [resume]
    split
    · exact hrest _ _
    · exact hbuffered _ _
  · exact hexhausted

/-- What holds of the node in every state, and of the nodes that the traversal goes on to, holds of
the node of the reply. -/
theorem node_resume {P : ν → Prop} (hnode : ∀ look, P (node look))
    (hrest : ∀ a s, P (rest a s).node) : P (look.resume label visit a s node rest).node :=
  resume_cases (P := fun reply ↦ P reply.node) (fun _ ↦ hnode _) (hnode _) (fun _ _ ↦ hnode _) hrest

/-- A change of the nodes that the traversal goes on to is a change of the node of the reply. -/
theorem mapNode_resume {ν' : Type} {f : ν → ν'} {node' : Lookahead → ν'}
    {rest' : α → σ → Reply ν' σ (ForInStep α)} (isOpen : look ≠ closed)
    (hnode : ∀ look, look ≠ closed → f (node look) = node' look)
    (hrest : ∀ a s, (rest a s).mapNode f = rest' a s) :
    (look.resume label visit a s node rest).mapNode f
      = look.resume label visit a s node' rest' := by
  rcases look with _ | (_ | r) | _
  · exact absurd rfl isOpen
  · exact hrest a s
  · rw [resume, resume]
    rcases visit r a s with ⟨e | ⟨a'⟩ | ⟨a'⟩, s'⟩
    · exact congrArg (Reply.mk _ · s') (hnode _ nofun)
    · exact congrArg (Reply.mk _ · s') (hnode _ nofun)
    · exact hrest a' s'
  · exact congrArg (Reply.mk _ · s) (hnode _ nofun)

theorem isClosed_eq_false (h : look ≠ closed) : look.isClosed = false := by
  cases look with
  | closed => exact absurd rfl h
  | ready buffered => rfl
  | exhausted => rfl

theorem rewound_eq (label : String) (look : Lookahead) :
    look.rewound label = if look.isClosed then .error (.notOpen label) else .ok (ready none) := by
  cases look <;> rfl

theorem rewound_of_open (label : String) (h : look ≠ closed) :
    look.rewound label = .ok (ready none) := by
  rw [rewound_eq, isClosed_eq_false h]
  rfl

end Lookahead

theorem Values.opened_of_open {v : Values} (h : v.look ≠ .closed) : v.opened = v :=
  if_neg (ne_true_of_eq_false (Lookahead.isClosed_eq_false h))

/-! ## The bare operator -/

namespace Operator

/-- The operator as it was built, but for the groups of aggregations. -/
def bare : Operator τ → Operator τ
  | values v => values { v with pending := [], look := .closed }
  | scan c => scan (.ofTable c.table c.schema)
  | filter p _ input => filter p .closed input.bare
  | modify b input => modify { b with done := false, look := .closed } input.bare
  | aggregate spec schema _ input => aggregate spec schema none input.bare

theorem schema_bare (op : Operator τ) : op.bare.schema = op.schema := by
  induction op with
  | values v => rfl
  | scan c => rfl
  | filter p look input ih => exact ih
  | modify b input ih => rfl
  | aggregate spec schema groups input ih => rfl

theorem schema_eq_of_bare_eq {op op' : Operator τ} (h : op.bare = op'.bare) :
    op.schema = op'.schema := by
  rw [← op.schema_bare, h, op'.schema_bare]

theorem bare_close (op : Operator τ) : op.close.bare = op.bare := by
  induction op with
  | values v => rfl
  | scan c => rfl
  | filter p look input ih => rw [close, bare, bare, ih]
  | modify b input ih => rw [close, bare, bare, ih]
  | aggregate spec schema groups input ih => rw [close, bare, bare, ih]

theorem bare_buffer (r : Row) (op : Operator τ) : (op.buffer r).bare = op.bare := by
  cases op <;> rfl

variable [Storage σ τ]

/-! ## Traversals -/

/-- Writes the rows of an input and counts them. -/
def writeInput (b : Batch τ) (input : Operator τ) (s : σ) : Reply (Operator τ) σ Nat :=
  match b.change with
  | .insert =>
    let r := input.forRows gather [] s
    match r.answer with
    | .ok rows =>
      let w := storeRows b.table rows.value.reverse 0 r.store
      ⟨w.1, r.node, w.2⟩
    | .error e => ⟨.error e, r.node, r.store⟩
  | .delete => (input.forRows (removeRow b.table) 0 s).map ForInStep.value

/-- A modification that has not written its rows yet writes them and hands out their number. -/
theorem forRows_modify (b : Batch τ) (input : Operator τ) (visit : Visitor σ α) (a : α) (s : σ) :
    (modify b input).forRows visit a s
      = b.look.resume b.change.label visit a s (fun look ↦ modify { b with look } input)
        fun a s ↦
          if b.done then ⟨.ok (.yield a), modify { b with look := .exhausted } input, s⟩
          else
            let w := writeInput b input s
            match w.answer with
            | .error e =>
              ⟨.error e, modify { b with done := true, look := .ready none } w.node, w.store⟩
            | .ok n =>
              let v := visit (.ofValues [.integer (Int64.ofNat n)]) a w.store
              ⟨v.1, modify { b with done := true, look := .after v.1 } w.node, v.2⟩ := by
  rw [forRows]
  congr 1
  funext a s
  rw [writeInput]
  cases hdone : b.done with
  | true => rfl
  | false =>
    cases b.change with
    | insert =>
      rcases input.forRows gather [] s with ⟨e | rows, input', s'⟩
      · rfl
      · rcases hstored : storeRows b.table rows.value.reverse 0 s' with ⟨e | n, s''⟩ <;>
          simp [hstored]
    | delete => rcases input.forRows (removeRow b.table) 0 s with ⟨e | n, input', s'⟩ <;> rfl

theorem bare_forRows (op : Operator τ) (visit : Visitor σ α) (a : α) (s : σ) :
    (op.forRows visit a s).node.bare = op.bare := by
  induction op generalizing α s with
  | values v =>
    rw [forRows, Reply.mapNode, Values.forRows]
    exact Lookahead.node_resume
      (P := fun v' : Values ↦ (values v' : Operator τ).bare = (values v).bare)
      (fun _ ↦ rfl) (fun _ _ ↦ rfl)
  | scan c =>
    rw [forRows, Reply.mapNode, Scan.forRows]
    refine Lookahead.node_resume (P := fun c' : Scan τ ↦ (scan c').bare = (scan c).bare)
      (fun _ ↦ rfl) (fun a' s' ↦ ?_)
    split <;> rfl
  | filter p look input ih =>
    rw [forRows]
    refine Lookahead.node_resume (P := fun op ↦ bare op = (filter p look input).bare)
      (fun _ ↦ rfl) (fun a' s' ↦ ?_)
    exact congrArg (filter p .closed) (ih (p.guard visit) a' s')
  | modify b input ih =>
    -- Collecting the rows and deleting them are two visitors of the same input.
    have hwritten : ∀ s' : σ, (writeInput b input s').node.bare = input.bare := by
      intro s'
      rw [writeInput]
      split
      · dsimp only
        split
        · exact ih gather [] s'
        · exact ih gather [] s'
      · exact ih (removeRow b.table) 0 s'
    rw [forRows_modify]
    refine Lookahead.node_resume (P := fun op ↦ bare op = (modify b input).bare)
      (fun _ ↦ rfl) (fun a' s' ↦ ?_)
    split
    · rfl
    · simp only
      split <;> exact congrArg (modify _) (hwritten s')
  | aggregate spec schema groups input ih =>
    cases groups with
    | none => rfl
    | some v => rfl

/-! ## The lifecycle of the root -/

/-- Where an operator is in its lifecycle; an aggregation is where the list of its groups is. -/
def look : Operator τ → Lookahead
  | values v => v.look
  | scan c => c.look
  | filter _ look _ => look
  | modify b _ => b.look
  | aggregate _ _ none _ => .closed
  | aggregate _ _ (some v) _ => v.look

/-- The name under which a closed operator complains. -/
def closedLabel : Operator τ → String
  | aggregate _ _ none _ => "Aggregate"
  | op => op.rowLabel

theorem forRows_of_closed {op : Operator τ} (h : op.look = .closed) (visit : Visitor σ α) (a : α)
    (s : σ) : op.forRows visit a s = ⟨.error (.notOpen op.closedLabel), op, s⟩ := by
  cases op with
  | values v =>
    obtain ⟨schema, rows, pending, look⟩ := v
    obtain rfl : look = .closed := h
    rfl
  | scan c =>
    obtain ⟨table, schema, pageCount, nextPage, pending, look⟩ := c
    obtain rfl : look = .closed := h
    rfl
  | filter p look input =>
    obtain rfl : look = .closed := h
    rfl
  | modify b input =>
    obtain ⟨change, table, schema, done, look⟩ := b
    obtain rfl : look = .closed := h
    rfl
  | aggregate spec schema groups input =>
    rcases groups with _ | ⟨schema', rows, pending, look⟩
    · rfl
    · obtain rfl : look = .closed := h
      rfl

theorem rewindOn_of_closed {op : Operator τ} (h : op.look = .closed) (s : σ) :
    op.rewindOn s = ⟨.error (.notOpen op.closedLabel), op, s⟩ := by
  cases op with
  | values v =>
    have hlook : v.look = .closed := h
    rw [rewindOn, Values.rewound, hlook]
    rfl
  | scan c =>
    have hlook : c.look = .closed := h
    rw [rewindOn, hlook]
    rfl
  | filter p look input =>
    have hlook : look = .closed := h
    rw [rewindOn, hlook]
    rfl
  | modify b input =>
    have hlook : b.look = .closed := h
    rw [rewindOn, hlook]
    rfl
  | aggregate spec schema groups input =>
    cases groups with
    | none => rfl
    | some v =>
      have hlook : v.look = .closed := h
      rw [rewindOn, Values.rewound, hlook]
      rfl

theorem openOn_of_open {op : Operator τ} (h : op.look ≠ .closed) (s : σ) :
    op.openOn s = ⟨.ok (), op, s⟩ := by
  have hclosed := Lookahead.isClosed_eq_false h
  cases op with
  | values v => rw [openOn, Values.opened_of_open h]
  | scan c => exact if_neg (ne_true_of_eq_false hclosed)
  | filter p look input => exact if_neg (ne_true_of_eq_false hclosed)
  | modify b input => exact if_neg (ne_true_of_eq_false hclosed)
  | aggregate spec schema groups input =>
    cases groups with
    | none => exact absurd rfl h
    | some v =>
      have hlook : v.look ≠ .closed := h
      rw [openOn, Values.opened_of_open hlook]

private theorem values_look_of_done {v : Values} {visit : Visitor σ α} {a a' : α} {s : σ}
    (h : (v.forRows visit a s).answer = .ok (.done a')) :
    (v.forRows visit a s).node.look = .ready none := by
  revert h
  rw [Values.forRows]
  refine Lookahead.resume_cases (P := fun reply : Reply Values σ (ForInStep α) ↦
    reply.answer = .ok (.done a') → reply.node.look = .ready none)
    (fun _ h ↦ nomatch h) (fun h ↦ nomatch h) (fun _ _ _ ↦ rfl) fun a s h ↦ ?_
  exact congrArg Lookahead.after h

theorem look_forRows_of_done {op : Operator τ} {visit : Visitor σ α} {a a' : α} {s : σ}
    (h : (op.forRows visit a s).answer = .ok (.done a')) :
    (op.forRows visit a s).node.look = .ready none := by
  revert h
  cases op with
  | values v => exact values_look_of_done
  | scan c =>
    rw [forRows, Reply.mapNode, Scan.forRows]
    refine Lookahead.resume_cases (P := fun reply : Reply (Scan τ) σ (ForInStep α) ↦
      reply.answer = .ok (.done a') → reply.node.look = .ready none)
      (fun _ h ↦ nomatch h) (fun h ↦ nomatch h) (fun _ _ _ ↦ rfl) fun a s ↦ ?_
    split
    · exact fun h ↦ congrArg Lookahead.after h
    · exact fun h ↦ congrArg Lookahead.after h
  | filter p look input =>
    rw [forRows]
    refine Lookahead.resume_cases (P := fun reply : Reply (Operator τ) σ (ForInStep α) ↦
      reply.answer = .ok (.done a') → reply.node.look = .ready none)
      (fun _ h ↦ nomatch h) (fun h ↦ nomatch h) (fun _ _ _ ↦ rfl) fun a s h ↦ ?_
    exact congrArg Lookahead.after h
  | modify b input =>
    rw [forRows_modify]
    refine Lookahead.resume_cases (P := fun reply : Reply (Operator τ) σ (ForInStep α) ↦
      reply.answer = .ok (.done a') → reply.node.look = .ready none)
      (fun _ h ↦ nomatch h) (fun h ↦ nomatch h) (fun _ _ _ ↦ rfl) fun a s ↦ ?_
    split
    · exact fun h ↦ nomatch h
    · dsimp only
      split
      · exact fun h ↦ nomatch h
      · exact fun h ↦ congrArg Lookahead.after h
  | aggregate spec schema groups input =>
    cases groups with
    | none => exact fun h ↦ nomatch h
    | some v => exact values_look_of_done

private theorem values_look_ne_closed {v : Values} (h : v.look ≠ .closed) (visit : Visitor σ α)
    (a : α) (s : σ) : (v.forRows visit a s).node.look ≠ .closed := by
  rw [Values.forRows]
  exact Lookahead.resume_cases
    (P := fun reply : Reply Values σ (ForInStep α) ↦ reply.node.look ≠ .closed)
    (fun hclosed ↦ absurd hclosed h) (fun h ↦ nomatch h)
    (fun _ _ ↦ Lookahead.ready_ne_closed none) fun _ _ ↦ Lookahead.after_ne_closed _

theorem look_forRows_ne_closed {op : Operator τ} (h : op.look ≠ .closed) (visit : Visitor σ α)
    (a : α) (s : σ) : (op.forRows visit a s).node.look ≠ .closed := by
  have hready := Lookahead.ready_ne_closed none
  cases op with
  | values v => exact values_look_ne_closed h visit a s
  | scan c =>
    rw [forRows, Reply.mapNode, Scan.forRows]
    refine Lookahead.resume_cases
      (P := fun reply : Reply (Scan τ) σ (ForInStep α) ↦ reply.node.look ≠ .closed)
      (fun hclosed ↦ absurd hclosed h) (fun h ↦ nomatch h) (fun _ _ ↦ hready) fun a s ↦ ?_
    split
    · exact Lookahead.after_ne_closed _
    · exact Lookahead.after_ne_closed _
  | filter p look input =>
    rw [forRows]
    exact Lookahead.resume_cases
      (P := fun reply : Reply (Operator τ) σ (ForInStep α) ↦ reply.node.look ≠ .closed)
      (fun hclosed ↦ absurd hclosed h) (fun h ↦ nomatch h) (fun _ _ ↦ hready)
      fun _ _ ↦ Lookahead.after_ne_closed _
  | modify b input =>
    rw [forRows_modify]
    refine Lookahead.resume_cases
      (P := fun reply : Reply (Operator τ) σ (ForInStep α) ↦ reply.node.look ≠ .closed)
      (fun hclosed ↦ absurd hclosed h) (fun h ↦ nomatch h) (fun _ _ ↦ hready) fun a s ↦ ?_
    split
    · exact fun h ↦ nomatch h
    · dsimp only
      split
      · exact hready
      · exact Lookahead.after_ne_closed _
  | aggregate spec schema groups input =>
    cases groups with
    | none => exact absurd rfl h
    | some v => exact values_look_ne_closed h visit a s

/-! ## Opening and rewinding -/

/-- The pass of an aggregation over its input, once that is opened. -/
def groupOpened (schema : Schema) (g : Grouping) (opened : Reply (Operator τ) σ Unit) :
    Reply (Operator τ) σ Values :=
  match opened with
  | ⟨.error e, input, s⟩ => ⟨.error e, input, s⟩
  | ⟨.ok (), input, s⟩ =>
    match input.forRows mergeRow g s with
    | ⟨.error e, input', s'⟩ => ⟨.error e, input'.close, s'⟩
    | ⟨.ok last, input', s'⟩ => ⟨Values.ofRows schema last.value.results, input'.close, s'⟩

theorem groupInput_eq (spec : Aggregation) (schema : Schema) (input : Operator τ)
    (start : σ → Reply (Operator τ) σ Unit) (s : σ) :
    groupInput spec schema input start s
      = match Grouping.ofSchema input.schema spec with
        | .error e => ⟨.error e, input, s⟩
        | .ok g => groupOpened schema g (start s) := by
  rw [groupInput]
  rcases Grouping.ofSchema input.schema spec with e | g
  · rfl
  · rcases start s with ⟨e | ⟨⟩, input', s'⟩ <;> rfl

/-- A pass closes the input again, whether or not it succeeds. -/
theorem node_groupOpened (schema : Schema) (g : Grouping) (input : Operator τ) (s : σ) :
    ∃ drained : Operator τ, drained.bare = input.bare
      ∧ (groupOpened schema g ⟨.ok (), input, s⟩).node = drained.close := by
  have hbare := input.bare_forRows mergeRow g s
  refine ⟨_, hbare, ?_⟩
  rw [groupOpened]
  split
  · next e drained s' hrows => rw [hrows]
  · next last drained s' hrows => rw [hrows]

/-- An aggregation with the groups that were computed, opened, or without groups. -/
def openGroups (spec : Aggregation) (schema : Schema) (grouped : Reply (Operator τ) σ Values) :
    Reply (Operator τ) σ Unit :=
  match grouped with
  | ⟨.ok groups, input, s⟩ => ⟨.ok (), aggregate spec schema (some groups.opened) input, s⟩
  | ⟨.error e, input, s⟩ => ⟨.error e, aggregate spec schema none input, s⟩

theorem openOn_aggregate (spec : Aggregation) (schema : Schema) (input : Operator τ) (s : σ) :
    (aggregate spec schema none input).openOn s
      = match Grouping.ofSchema input.schema spec with
        | .error e => ⟨.error e, aggregate spec schema none input, s⟩
        | .ok g => openGroups spec schema (groupOpened schema g (input.openOn s)) := by
  rw [openOn, groupInput_eq]
  rcases Grouping.ofSchema input.schema spec with e | g <;> rfl

theorem bare_groupInput (spec : Aggregation) (schema : Schema) (input : Operator τ)
    {start : σ → Reply (Operator τ) σ Unit} (hstart : ∀ s, (start s).node.bare = input.bare)
    (s : σ) : (groupInput spec schema input start s).node.bare = input.bare := by
  have hbare := hstart s
  rw [groupInput_eq]
  split
  · rfl
  · next g hg =>
    generalize start s = opened at hbare ⊢
    rcases opened with ⟨e | ⟨⟩, input', s'⟩
    · exact hbare
    · obtain ⟨drained, hdrained, hnode⟩ := node_groupOpened schema g input' s'
      rw [hnode, bare_close, hdrained]
      exact hbare

theorem bare_openOn (op : Operator τ) (s : σ) : (op.openOn s).node.bare = op.bare := by
  induction op generalizing s with
  | values v =>
    rw [openOn, Values.opened]
    split <;> rfl
  | scan c =>
    rw [openOn]
    split
    · rw [Scan.reset]
      split <;> rfl
    · rfl
  | filter p look input ih =>
    rw [openOn]
    split
    · exact congrArg (filter p .closed) (ih s)
    · rfl
  | modify b input ih =>
    rw [openOn]
    split
    · exact congrArg (modify { b with done := false, look := .closed }) (ih s)
    · rfl
  | aggregate spec schema groups input ih =>
    cases groups with
    | some v => rfl
    | none =>
      have hgroups := bare_groupInput spec schema input ih s
      rw [openOn]
      rcases hgrouped : groupInput spec schema input (fun s ↦ input.openOn s) s with
        ⟨e | v, input', s'⟩
      · rw [hgrouped] at hgroups
        exact congrArg (aggregate spec schema none) hgroups
      · rw [hgrouped] at hgroups
        exact congrArg (aggregate spec schema none) hgroups

/-- What an aggregation that is built is made of: the groups computed over its input, and the input
as this leaves it. -/
theorem aggregate_of_buildAggregate {spec : Aggregation} {input op : Operator τ} {s s' : σ}
    (built : input.buildAggregate spec s = (.ok op, s')) :
    ∃ schema groups input', spec.schema input.schema = .ok schema
      ∧ input.groupsOf spec schema s = ⟨.ok groups, input', s'⟩
      ∧ op = aggregate spec schema (some groups) input' ∧ input'.bare = input.bare := by
  rw [buildAggregate] at built
  split at built
  · cases built
  · next schema hschema =>
    have hbare := bare_groupInput spec schema input input.bare_openOn s
    rw [← groupsOf] at hbare
    split at built
    · next groups input' s'' hgroups =>
      cases built
      rw [hgroups] at hbare
      exact ⟨schema, groups, input', hschema, hgroups, rfl, hbare⟩
    · cases built

theorem bare_rewindOn (op : Operator τ) (s : σ) : (op.rewindOn s).node.bare = op.bare := by
  induction op generalizing s with
  | values v =>
    rw [rewindOn]
    split
    · next v' hv' =>
      rw [Values.rewound, Lookahead.rewound_eq] at hv'
      split at hv'
      · cases hv'
      · cases hv'
        rfl
    · rfl
  | scan c =>
    rw [rewindOn]
    split
    · rw [Scan.reset]
      split <;> rfl
    · rfl
  | filter p look input ih =>
    rw [rewindOn]
    split
    · exact congrArg (filter p .closed) (ih s)
    · rfl
  | modify b input ih =>
    rw [rewindOn]
    split
    · exact congrArg (modify { b with done := false, look := .closed }) (ih s)
    · rfl
  | aggregate spec schema groups input ih =>
    cases groups with
    | none => rfl
    | some v =>
      rw [rewindOn]
      split <;> rfl

end Operator

end QueryEngine
