import QueryEngine.Proofs.Operator.Walk
import QueryEngine.Storage.Heap

/-!
# What reading leaves alone

An operator without modifications only counts and reads pages. So the storage stays among given
states if these calls do not lead out of them (`Storage.Closed`), whatever they are answered: a
refused call ends what the operator is doing, but it changes no more than a served one. The states
with a given heap in them are an example.
-/

namespace QueryEngine

variable {σ τ ν α : Type} [Storage σ τ] {states : σ → Prop}

/-- Counting and reading pages does not lead out of the given states. -/
structure Storage.Closed (states : σ → Prop) : Prop where
  pageCount : ∀ table s, states s → states (Storage.pageCount table s).2
  readPage : ∀ table page s, states s → states (Storage.readPage table page s).2

theorem Storage.Closed.univ : Storage.Closed (fun _ : σ ↦ True) :=
  ⟨fun _ _ _ ↦ trivial, fun _ _ _ _ ↦ trivial⟩

theorem Heap.closed (h : Heap) : Storage.Closed (· = h) :=
  ⟨fun _ _ hs ↦ hs, fun _ _ _ hs ↦ hs⟩

/-! ## Traversals -/

theorem Storage.Closed.visitPages (closed : Storage.Closed states) (table : τ) (step : Step α)
    (left next : Nat) (a : α) {s : σ} (hs : states s) :
    states (visitPages table step.visitor left next a s).store := by
  induction left generalizing next a s with
  | zero => exact hs
  | succ left ih =>
    have hread := closed.readPage table (UInt32.ofNat next) s hs
    rw [QueryEngine.visitPages]
    rcases hpage : Storage.readPage table (UInt32.ofNat next) s with ⟨e | rows, s'⟩
    · rwa [hpage] at hread
    · rw [hpage] at hread
      simp only [visitRows_visitor]
      rcases (walk step rows a).1 with e | ⟨a'⟩ | ⟨a'⟩
      · exact hread
      · exact hread
      · exact ih (next + 1) a' hread

theorem Lookahead.store_resume {look : Lookahead} {label : String} {step : Step α} {a : α} {s : σ}
    {node : Lookahead → ν} {rest : α → σ → Reply ν σ (ForInStep α)} (hs : states s)
    (hrest : ∀ a s, states s → states (rest a s).store) :
    states (look.resume label step.visitor a s node rest).store := by
  rcases look with _ | (_ | r) | _
  · exact hs
  · exact hrest a s hs
  · rw [resume, Step.visitor]
    rcases step r a with e | ⟨a'⟩ | ⟨a'⟩
    · exact hs
    · exact hs
    · exact hrest a' s hs
  · exact hs

namespace Operator

def WritesNothing : Operator τ → Prop
  | values _ | scan _ => True
  | filter _ _ input | aggregate _ _ _ input => input.WritesNothing
  | modify .. => False

theorem writesNothing_bare (op : Operator τ) : op.bare.WritesNothing ↔ op.WritesNothing := by
  induction op with
  | values v => rfl
  | scan c => rfl
  | filter p look input ih => exact ih
  | modify b input ih => rfl
  | aggregate spec schema groups input ih => exact ih

theorem WritesNothing.of_bare_eq {op op' : Operator τ} (h : op.WritesNothing)
    (hbare : op'.bare = op.bare) : op'.WritesNothing := by
  rwa [← op'.writesNothing_bare, hbare, op.writesNothing_bare]

private theorem values_store (v : Values) (step : Step α) (a : α) {s : σ} (hs : states s) :
    states (v.forRows step.visitor a s).store := by
  refine Lookahead.store_resume hs fun a s hs ↦ ?_
  rw [visitRows_visitor]
  exact hs

theorem WritesNothing.forRows {op : Operator τ} (h : op.WritesNothing)
    (closed : Storage.Closed states) (step : Step α) (a : α) {s : σ} (hs : states s) :
    states (op.forRows step.visitor a s).store := by
  induction op generalizing α s with
  | values v => exact values_store v step a hs
  | scan c =>
    change states (c.forRows step.visitor a s).store
    refine Lookahead.store_resume hs fun a s hs ↦ ?_
    simp only [visitRows_visitor]
    rcases (walk step c.pending a).1 with e | ⟨a'⟩ | ⟨a'⟩
    · exact hs
    · exact hs
    · exact closed.visitPages c.table step _ _ a' hs
  | filter p look input ih =>
    refine Lookahead.store_resume hs fun a s hs ↦ ?_
    rw [p.guard_visitor step]
    exact ih h (p.guardStep step) a hs
  | modify b input ih => exact h.elim
  | aggregate spec schema groups input ih =>
    cases groups with
    | none => exact hs
    | some v => exact values_store v step a hs

theorem WritesNothing.pull {op : Operator τ} (h : op.WritesNothing)
    (closed : Storage.Closed states) {s : σ} (hs : states s) : states (op.pull s).store :=
  h.forRows closed firstStep none hs

theorem store_hasNext (op : Operator τ) (s : σ) : (op.hasNext s).store = (op.pull s).store := by
  rw [hasNext]
  rcases op.pull s with ⟨e | _ | r, op', s'⟩ <;> rfl

theorem store_next (op : Operator τ) (s : σ) : (op.next s).store = (op.pull s).store := by
  rw [next]
  rcases op.pull s with ⟨e | _ | r, op', s'⟩ <;> rfl

theorem node_next (op : Operator τ) (s : σ) : (op.next s).node = (op.pull s).node := by
  rw [next]
  rcases op.pull s with ⟨e | _ | r, op', s'⟩ <;> rfl

/-! ## Opening and rewinding -/

private theorem store_groupOpened {opened : Reply (Operator τ) σ Unit} (hs : states opened.store)
    (h : opened.node.WritesNothing) (closed : Storage.Closed states) (schema : Schema)
    (g : Grouping) : states (groupOpened schema g opened).store := by
  rcases opened with ⟨e | ⟨⟩, input, s⟩
  · exact hs
  · have hrows := h.forRows closed mergeStep g hs
    rw [groupOpened, mergeRow_eq]
    rcases hmerged : input.forRows mergeStep.visitor g s with ⟨e | last, input', s'⟩
    · rwa [hmerged] at hrows
    · rwa [hmerged] at hrows

omit [Storage σ τ] in
private theorem store_openGroups (spec : Aggregation) (schema : Schema)
    (grouped : Reply (Operator τ) σ Values) :
    (openGroups spec schema grouped).store = grouped.store := by
  rcases grouped with ⟨e | groups, input, s⟩ <;> rfl

theorem WritesNothing.openOn {op : Operator τ} (h : op.WritesNothing)
    (closed : Storage.Closed states) {s : σ} (hs : states s) : states (op.openOn s).store := by
  induction op generalizing s with
  | values v => exact hs
  | scan c =>
    have hcount := closed.pageCount c.table s hs
    rw [Operator.openOn, Scan.reset]
    split
    · dsimp only
      rcases hpages : Storage.pageCount c.table s with ⟨e | n, s'⟩
      · rwa [hpages] at hcount
      · rwa [hpages] at hcount
    · exact hs
  | filter p look input ih =>
    rw [Operator.openOn]
    split
    · exact ih h hs
    · exact hs
  | modify b input ih => exact h.elim
  | aggregate spec schema groups input ih =>
    cases groups with
    | some v => exact hs
    | none =>
      rw [openOn_aggregate]
      split
      · exact hs
      · have hinput : input.WritesNothing := h
        rw [store_openGroups]
        exact store_groupOpened (ih h hs) (hinput.of_bare_eq (input.bare_openOn s)) closed schema _

theorem WritesNothing.rewindOn {op : Operator τ} (h : op.WritesNothing)
    (closed : Storage.Closed states) {s : σ} (hs : states s) : states (op.rewindOn s).store := by
  induction op generalizing s with
  | values v =>
    rw [Operator.rewindOn]
    split <;> exact hs
  | scan c =>
    have hcount := closed.pageCount c.table s hs
    rw [Operator.rewindOn]
    split
    · dsimp only [Scan.reset]
      rcases hpages : Storage.pageCount c.table s with ⟨e | n, s'⟩
      · rwa [hpages] at hcount
      · rwa [hpages] at hcount
    · exact hs
  | filter p look input ih =>
    rw [Operator.rewindOn]
    split
    · exact ih h hs
    · exact hs
  | modify b input ih => exact h.elim
  | aggregate spec schema groups input ih =>
    cases groups with
    | none => exact hs
    | some v =>
      rw [Operator.rewindOn]
      split <;> exact hs

end Operator

end QueryEngine
