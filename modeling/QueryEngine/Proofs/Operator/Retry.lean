import QueryEngine.Proofs.Operator.Calls
import QueryEngine.Proofs.Operator.Cursor
import QueryEngine.Proofs.Operator.Settled
import QueryEngine.Storage.Contested

/-!
# Opening again after a refusal

When the storage refuses a call, opening a tree of closed operators fails. What the failure leaves
depends on where the call came from. A node marks itself as open before it turns to its input or to
the storage, so the nodes that were on the way stay open, and the next opening takes them to be set
up. Only an aggregation stays closed while its input is opened, and if the call is refused while it
takes the rows of its input, it closes the input again.

So the tree is closed again exactly if the call is refused during the pass of an aggregation that
has nothing but aggregations above it (`Operator.ReachesPass`). Then opening it again is like
opening an operator that has just been built.

## Building

An aggregation computes its groups when it is built, and the opening that follows finds them there.
For the storage this is as if the groups were computed by the opening (`build_alike`). That is why
an operator without groups can be compared with one that has just been built.
-/

namespace QueryEngine

variable {σ τ : Type}

/-! ## Building -/

def Plan.Fresh : Plan τ → Prop
  | values _ _ | scan _ => True
  | filter _ input | modify _ _ input | aggregate _ input => input.Fresh
  | operator _ => False

namespace Operator

variable [Storage σ τ]

/-- An aggregation that holds the groups of its input is opened as one that computes them is. -/
theorem openOn_groupsOf {spec : Aggregation} {schema : Schema} {op input : Operator τ}
    {s s' s'' : σ} {groups : Values}
    (hgroups : op.groupsOf spec schema s' = ⟨.ok groups, input, s''⟩)
    (halike : Alike (op.openOn s') (op.bare.openOn s)) :
    Alike ((aggregate spec schema (some groups) input).openOn s'')
      ((aggregate spec schema none op.bare).openOn s) := by
  -- Opening groups that are there changes neither the input nor the storage.
  change Alike (openGroups spec schema ⟨.ok groups, input, s''⟩) _
  rw [← hgroups, groupsOf, groupInput_eq, openOn_aggregate, schema_bare]
  rw [groupsOf, groupInput_eq] at hgroups
  rcases hg : Grouping.ofSchema op.schema spec with e | g
  · rw [hg] at hgroups
    cases hgroups
  · exact openGroups_alike (groupOpened_alike halike schema g) spec schema

/-- Opening an operator that has just been built is like opening it bare before it was built. -/
theorem build_alike {plan : Plan τ} (fresh : plan.Fresh) {s s' : σ} {op : Operator τ}
    (built : plan.build s = (.ok op, s')) : Alike (op.openOn s') (op.bare.openOn s) := by
  induction plan generalizing s' op with
  | values schema rows =>
    rw [Plan.build, Prod.mk.injEq] at built
    obtain ⟨hvalues, rfl⟩ := built
    rcases hlist : Values.ofRows schema rows with e | v
    · rw [hlist] at hvalues
      cases hvalues
    · rw [hlist] at hvalues
      cases hvalues
      obtain ⟨-, rfl⟩ := Values.ofRows_eq_ok_iff.mp hlist
      exact ⟨rfl, rfl, fun _ _ ↦ rfl⟩
  | scan table =>
    rw [Plan.build] at built
    split at built
    · cases built
      exact openOn_alike rfl s
    · cases built
  | filter p input ih =>
    rw [Plan.build] at built
    split at built
    · next op' s'' hinput =>
      cases built
      exact (ih fresh hinput).mapNode fun _ _ hsettled ↦ congrArg (filter p _) hsettled
    · cases built
  | modify change table input ih =>
    rw [Plan.build] at built
    split at built
    · next op' s'' hinput =>
      rw [Prod.mk.injEq, buildModify] at built
      obtain ⟨hmodify, rfl⟩ := built
      split at hmodify
      · cases hmodify
      · next schema hschema =>
        rcases hcheck : checkInput σ table schema op' with e | ⟨⟩
        · rw [hcheck] at hmodify
          cases hmodify
        · rw [hcheck] at hmodify
          cases hmodify
          exact (ih fresh hinput).mapNode fun _ _ hsettled ↦ congrArg (modify _) hsettled
    · cases built
  | aggregate spec input ih =>
    rw [Plan.build] at built
    split at built
    · next op' s'' hinput =>
      obtain ⟨schema, groups, input', -, hgroups, rfl, hbare⟩ :=
        aggregate_of_buildAggregate built
      rw [bare, hbare]
      exact openOn_groupsOf hgroups (ih fresh hinput)
    · cases built
  | operator op => exact fresh.elim

theorem execute_alike {op op' : Operator τ} {s s' : σ} (h : Alike (op.openOn s) (op'.openOn s')) :
    (op.execute s).answer = (op'.execute s').answer
      ∧ (op.execute s).store = (op'.execute s').store := by
  rw [execute, execute]
  generalize op.openOn s = opened, op'.openOn s' = opened' at h ⊢
  obtain ⟨answer, input, s₁⟩ := opened
  obtain ⟨answer', input', s₁'⟩ := opened'
  obtain ⟨rfl, rfl, hsettled⟩ := h
  rcases answer with e | ⟨⟩
  · exact ⟨rfl, rfl⟩
  · have hrows : (input.forRows gather [] s₁).mapNode settled
        = (input'.forRows gather [] s₁).mapNode settled :=
      forRows_eq_of_settled_eq (hsettled () rfl) gather [] s₁
    simp only [collect]
    generalize input.forRows gather [] s₁ = rows, input'.forRows gather [] s₁ = rows' at hrows ⊢
    obtain ⟨hanswer, -, hstore⟩ := Reply.mk.inj hrows
    rw [Reply.mapNode, Reply.mapNode, Reply.map, Reply.map, hanswer, hstore]
    exact ⟨rfl, rfl⟩

/-! ## Refused openings -/

def AllClosed : Operator τ → Prop
  | values v => v.look = .closed
  | scan c => c.look = .closed
  | filter _ look input => look = .closed ∧ input.AllClosed
  | modify b input => b.look = .closed ∧ input.AllClosed
  | aggregate _ _ groups input => (∀ v ∈ groups, v.look = .closed) ∧ input.AllClosed

def IsAggregation : Operator τ → Prop
  | aggregate .. => True
  | _ => False

/-- The first operator from the root on that is no aggregation. -/
def base : Operator τ → Operator τ
  | aggregate _ _ _ input => input.base
  | op => op

/-- Whether opening the operator gets as far as to a pass of an aggregation: the aggregation has no
groups, its input is opened, and above it there are only aggregations without groups. -/
def ReachesPass : Operator τ → σ → Prop
  | aggregate _ _ none input, s => (input.openOn s).answer = .ok () ∨ input.ReachesPass s
  | _, _ => False

omit [Storage σ τ] in
theorem allClosed_close (op : Operator τ) : op.close.AllClosed := by
  induction op with
  | values v => rfl
  | scan c => rfl
  | filter p look input ih => exact ⟨rfl, ih⟩
  | modify b input ih => exact ⟨rfl, ih⟩
  | aggregate spec schema groups input ih => exact ⟨nofun, ih⟩

omit [Storage σ τ] in
theorem AllClosed.look_base {op : Operator τ} (closed : op.AllClosed) : op.base.look = .closed := by
  induction op with
  | values v => exact closed
  | scan c => exact closed
  | filter p look input ih => exact closed.1
  | modify b input ih => exact closed.1
  | aggregate spec schema groups input ih => exact ih closed.2

/-- An aggregation whose pass fails has all nodes closed, and no memory of the pass. -/
theorem openGroups_eq_error {spec : Aggregation} {schema : Schema} {g : Grouping}
    {input op' : Operator τ} {s s' : σ} {e : QueryError}
    (failed : openGroups spec schema (groupOpened schema g ⟨.ok (), input, s⟩)
      = ⟨.error e, op', s'⟩) :
    op'.AllClosed ∧ op'.settled = aggregate spec schema none input.bare := by
  obtain ⟨drained, hdrained, hnode⟩ := node_groupOpened schema g input s
  rcases hgrouped : groupOpened schema g ⟨.ok (), input, s⟩ with ⟨e' | groups, last, s''⟩
  · rw [hgrouped] at failed hnode
    cases failed
    obtain rfl : last = drained.close := hnode
    refine ⟨⟨nofun, drained.allClosed_close⟩, ?_⟩
    rw [settled, settled_close, hdrained]
    rfl
  · rw [hgrouped] at failed
    cases failed

/-- A refusal leaves all nodes closed if it comes during a pass. Otherwise the first node that is no
aggregation stays open. -/
theorem openOn_refused {op op' : Operator τ} (closed : op.AllClosed) {s s' : σ} {e : QueryError}
    (failed : op.openOn s = ⟨.error e, op', s'⟩) (refused : e.cause? ≠ none) :
    op.ReachesPass s ∧ op'.AllClosed ∧ op'.settled = op.bare
      ∨ ¬ op.ReachesPass s ∧ op'.base.look ≠ .closed := by
  induction op generalizing op' s' e with
  | values v => cases failed
  | scan c =>
    have hlook : c.look = .closed := closed
    rw [openOn, hlook] at failed
    dsimp only [Lookahead.isClosed, Scan.reset] at failed
    refine .inr ⟨id, ?_⟩
    rcases hcount : Storage.pageCount c.table s with ⟨cause | n, s''⟩
    · rw [hcount] at failed
      cases failed
      exact Lookahead.ready_ne_closed none
    · rw [hcount] at failed
      cases failed
  | filter p look input ih =>
    obtain ⟨rfl, -⟩ := closed
    obtain ⟨-, rfl, -⟩ := Reply.mk.inj failed
    exact .inr ⟨id, Lookahead.ready_ne_closed none⟩
  | modify b input ih =>
    rw [openOn, closed.1] at failed
    obtain ⟨-, rfl, -⟩ := Reply.mk.inj failed
    exact .inr ⟨id, Lookahead.ready_ne_closed none⟩
  | aggregate spec schema groups input ih =>
    cases groups with
    | some v => cases failed
    | none =>
      rw [openOn_aggregate] at failed
      split at failed
      · next e' he =>
        cases failed
        exact absurd (cause?_eq_none (Grouping.blame_ofSchema _ _) he) refused
      · next g hg =>
        rcases hopened : input.openOn s with ⟨e' | ⟨⟩, input', s₁⟩
        -- The input cannot be opened, and the aggregation leaves it as it is.
        · rw [hopened] at failed
          cases failed
          have hinput : (input.openOn s).answer ≠ .ok () := by
            rw [hopened]
            exact fun h ↦ by cases h
          rcases ih closed.2 hopened refused with ⟨reaches, hclosed, hsettled⟩ | ⟨reaches, hbase⟩
          · refine .inl ⟨.inr reaches, ⟨fun v hv ↦ ?_, hclosed⟩,
              congrArg (aggregate spec schema none) hsettled⟩
            cases hv
          · exact .inr ⟨fun h ↦ h.elim hinput reaches, hbase⟩
        -- The input was opened, so the refusal belongs to the pass.
        · have hinput : (input.openOn s).answer = .ok () := by rw [hopened]
          have hbare := input.bare_openOn s
          rw [hopened] at failed hbare
          obtain ⟨hclosed, hsettled⟩ := openGroups_eq_error failed
          refine .inl ⟨.inl hinput, hclosed, ?_⟩
          rw [hsettled, bare, hbare]

/-! ## What a failed opening leaves -/

omit [Storage σ τ] in
theorem isAggregation_bare (op : Operator τ) : op.bare.IsAggregation ↔ op.IsAggregation := by
  cases op <;> rfl

omit [Storage σ τ] in
theorem base_eq_self {op : Operator τ} (h : ¬ op.IsAggregation) : op.base = op := by
  cases op with
  | aggregate spec schema groups input => exact absurd trivial h
  | _ => rfl

theorem look_of_openOn_eq_error {op op' : Operator τ} (isAggregation : op.IsAggregation) {s s' : σ}
    {e : QueryError} (failed : op.openOn s = ⟨.error e, op', s'⟩) : op'.look = .closed := by
  cases op with
  | aggregate spec schema groups input =>
    cases groups with
    | some v => cases failed
    | none =>
      rw [openOn] at failed
      split at failed
      · cases failed
      · cases failed
        rfl
  | _ => exact isAggregation.elim

theorem look_of_openOn_refused {op op' : Operator τ} (closed : op.AllClosed) {s s' : σ}
    {e : QueryError} (failed : op.openOn s = ⟨.error e, op', s'⟩) (refused : e.cause? ≠ none) :
    op'.look = .closed ↔ op.IsAggregation := by
  constructor
  · intro hclosed
    by_contra isOther
    -- The root is its own base then, and a pass is out of reach.
    have hbare : op'.bare = op.bare := by
      rw [← op.bare_openOn s, failed]
    have hbase : op'.base = op' := by
      refine base_eq_self ?_
      rw [← isAggregation_bare, hbare, isAggregation_bare]
      exact isOther
    rcases openOn_refused closed failed refused with ⟨reaches, -, -⟩ | ⟨-, hopen⟩
    · cases op with
      | aggregate spec schema groups input => exact isOther trivial
      | _ => exact reaches
    · rw [hbase] at hopen
      exact hopen hclosed
  · exact fun isAggregation ↦ look_of_openOn_eq_error isAggregation failed

variable (σ) in
/-- Whether one operator can be opened as if it was the other one, built just then. -/
def OpensAnew (op' op : Operator τ) : Prop :=
  ∀ (plan : Plan τ) (built : Operator τ) (s s' : σ),
    plan.Fresh → plan.build s = (.ok built, s') → built.bare = op.bare →
      Alike (op'.openOn s) (built.openOn s')
        ∧ (op'.execute s).answer = (built.execute s').answer
        ∧ (op'.execute s).store = (built.execute s').store

theorem opensAnew_of_settled {op op' : Operator τ} (h : op'.settled = op.bare) :
    op'.OpensAnew σ op := by
  intro plan built s s' fresh hbuild hbare
  have halike : Alike (op'.openOn s) (built.openOn s') := by
    rw [← hbare, ← settled_bare] at h
    exact (openOn_alike h s).trans (build_alike fresh hbuild).symm
  exact ⟨halike, execute_alike halike⟩

/-- **Opening after a refusal.** Let every node of an operator be closed. A call that the storage
refuses while the operator is opened ends the opening, and the refusal is the answer.

The root is closed afterwards exactly if it is an aggregation, and refuses all requests then. The
operator can be opened again, as if it had just been built, if the refused call belongs to the pass
of an aggregation that has only aggregations above it, and exactly then every node is closed again.
Otherwise the first node that is no aggregation stays open, and opening it has no effect. -/
theorem openOn_after_refusal {op : Operator τ} (closed : op.AllClosed) (s : σ) :
    (op.openOn s).Reports s
      ∧ ∀ e op' s', op.openOn s = ⟨.error e, op', s'⟩ → e.cause? ≠ none →
        op.execute s = ⟨.error e, op', s'⟩
          ∧ (op'.look = .closed ↔ op.IsAggregation)
          ∧ (op.IsAggregation → ∀ (s₁ : σ) q, q ≠ .opening → q ≠ .closing →
              op'.serve s₁ q = ⟨.error (.notOpen op'.closedLabel), op', s₁⟩)
          ∧ (op'.AllClosed ↔ op.ReachesPass s)
          ∧ (op.ReachesPass s → op'.OpensAnew σ op)
          ∧ (¬ op.ReachesPass s → op'.base.look ≠ .closed
              ∧ ∀ s₁ : σ, op'.base.openOn s₁ = ⟨.ok (), op'.base, s₁⟩) := by
  refine ⟨op.reports_openOn s, fun e op' s' failed refused ↦ ?_⟩
  have hleft := openOn_refused closed failed refused
  have hlook := look_of_openOn_refused closed failed refused
  refine ⟨?_, hlook, ?_, ?_, ?_, ?_⟩
  · rw [execute, failed]
  · intro isAggregation s₁ q hopening hclosing
    exact serve_of_closed (hlook.mpr isAggregation) s₁ hopening hclosing
  · constructor
    · intro hclosed
      rcases hleft with ⟨reaches, -, -⟩ | ⟨-, hopen⟩
      · exact reaches
      · exact absurd hclosed.look_base hopen
    · intro reaches
      rcases hleft with ⟨-, hclosed, -⟩ | ⟨hnot, -⟩
      · exact hclosed
      · exact absurd reaches hnot
  · intro reaches
    rcases hleft with ⟨-, -, hsettled⟩ | ⟨hnot, -⟩
    · exact opensAnew_of_settled hsettled
    · exact absurd reaches hnot
  · intro hnot
    rcases hleft with ⟨reaches, -, -⟩ | ⟨-, hopen⟩
    · exact absurd reaches hnot
    · exact ⟨hopen, fun s₁ ↦ openOn_of_open hopen s₁⟩

def oneRow : ContestedHeap :=
  .ofHeap ((Heap.ofCapacity 2).run
    [.create "t" ⟨[⟨"n", .integer⟩]⟩, .insert "t" (.ofValues [.integer 7])]).2

/-- The first time its page is read, the read fails. -/
def oneRowMisread : ContestedHeap :=
  { oneRow with reads := .ofList [(0, Outage.badPage)] }

/-- The first time its pages are counted, the count fails. -/
def oneRowMiscounted : ContestedHeap :=
  { oneRow with counts := .ofList [(0, Outage.outOfService)] }

def countPlan : Plan String :=
  .aggregate ⟨.count, 0, none⟩ (.scan "t")

/-- A count of the rows of the table that was closed. -/
def closedCount : Operator String :=
  .aggregate ⟨.count, 0, none⟩ ⟨[⟨"COUNT(n)", .integer⟩]⟩ none
    (.scan (.ofTable "t" ⟨[⟨"n", .integer⟩]⟩))

/-- A count cannot be opened while pages are not served, and counts the row when it is opened again,
as a count built just then does. -/
theorem openOn_after_refusal_count :
    ∃ (op built : Operator String) (s s' : ContestedHeap),
      closedCount.AllClosed
        ∧ closedCount.openOn oneRowMisread = ⟨.error (.storage Outage.badPage), op, s⟩
        ∧ closedCount.ReachesPass oneRowMisread
        ∧ countPlan.Fresh ∧ countPlan.build s = (.ok built, s') ∧ built.bare = closedCount.bare
        ∧ (op.execute s).answer = (built.execute s').answer
        ∧ (built.execute s').answer = .ok [.ofValues [.integer 1]] := by
  have closed : closedCount.AllClosed := ⟨nofun, rfl⟩
  have failed : closedCount.openOn oneRowMisread = ⟨.error (.storage Outage.badPage), _, _⟩ := rfl
  have reaches : closedCount.ReachesPass oneRowMisread := .inl rfl
  obtain ⟨-, hrefused⟩ := openOn_after_refusal closed oneRowMisread
  obtain ⟨-, -, -, -, hanew, -⟩ := hrefused _ _ _ failed nofun
  have hbuild : countPlan.build (closedCount.openOn oneRowMisread).store = (.ok _, _) := rfl
  obtain ⟨-, hanswer, -⟩ := hanew reaches countPlan _ _ _ trivial hbuild rfl
  exact ⟨_, _, _, _, closed, failed, reaches, trivial, hbuild, rfl, hanswer, rfl⟩

/-- A scan that cannot be opened, as the page count is not served to it, is open all the same. It
finds no rows then, and again none when it is opened a second time, where a scan built just then
finds one. -/
theorem refused_scan_is_empty :
    ∃ (scan leftOpen : Operator String) (s s' : ContestedHeap),
      (Plan.scan "t").build oneRowMiscounted = (.ok scan, s)
        ∧ scan.AllClosed
        ∧ scan.openOn s = ⟨.error (.storage Outage.outOfService), leftOpen, s'⟩
        ∧ leftOpen.look ≠ .closed
        ∧ (leftOpen.hasNext s').answer = .ok false
        ∧ (leftOpen.openOn s').answer = .ok ()
        ∧ (leftOpen.execute s').answer = .ok []
        ∧ (Plan.scan "t").build s' = (.ok scan, s')
        ∧ (scan.execute s').answer = .ok [⟨[.integer 7], some ⟨1, 0, 0⟩⟩] :=
  ⟨_, _, _, _, rfl, rfl, rfl, nofun, rfl, rfl, rfl, rfl, rfl⟩

end Operator

end QueryEngine
