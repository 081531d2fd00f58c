import QueryEngine.Proofs.Operator.Bare

/-!
# What closed nodes leave behind

A node that is closed may still hold a page count, a page number or rows of its last opening. They
have no effect: opening sets them anew before they are looked at. `Operator.settled` drops them, and
operators with the same settled form answer alike, for good.

## Failing halfway

Opening is the delicate case. When it fails, some nodes have been set anew and others have not, and
what is left behind shows. So opening agrees on answers and storages in any case, but on the
operators only if it succeeds (`openOn_alike`).
-/

namespace QueryEngine

variable {σ τ ν α : Type}

/-! ## Settled operators -/

/-- The list without the rows that were not handed out before it was closed. -/
def Values.settled (v : Values) : Values :=
  if v.look.isClosed then { v with pending := [] } else v

/-- The scan without the pages that it found before it was closed. -/
def Scan.settled (c : Scan τ) : Scan τ :=
  if c.look.isClosed then .ofTable c.table c.schema else c

/-- The modification without the memory of having written before it was closed. -/
def Batch.settled (b : Batch τ) : Batch τ :=
  if b.look.isClosed then { b with done := false } else b

theorem Values.settled_of_open {v : Values} (h : v.look ≠ .closed) : v.settled = v :=
  if_neg (ne_true_of_eq_false (Lookahead.isClosed_eq_false h))

theorem Scan.settled_of_open {c : Scan τ} (h : c.look ≠ .closed) : c.settled = c :=
  if_neg (ne_true_of_eq_false (Lookahead.isClosed_eq_false h))

theorem Batch.settled_of_open {b : Batch τ} (h : b.look ≠ .closed) : b.settled = b :=
  if_neg (ne_true_of_eq_false (Lookahead.isClosed_eq_false h))

theorem Values.settled_of_closed {v : Values} (h : v.look = .closed) :
    v.settled = { v with pending := [] } := by
  rw [settled, h]
  rfl

theorem Scan.settled_of_closed {c : Scan τ} (h : c.look = .closed) :
    c.settled = .ofTable c.table c.schema := by
  rw [settled, h]
  rfl

theorem Batch.settled_of_closed {b : Batch τ} (h : b.look = .closed) :
    b.settled = { b with done := false } := by
  rw [settled, h]
  rfl

namespace Operator

/-- The operator without what its closed nodes hold. -/
def settled : Operator τ → Operator τ
  | values v => values v.settled
  | scan c => scan c.settled
  | filter p look input => filter p look input.settled
  | modify b input => modify b.settled input.settled
  | aggregate spec schema groups input =>
    aggregate spec schema (groups.map Values.settled) input.settled

theorem look_settled (op : Operator τ) : op.settled.look = op.look := by
  have hvalues : ∀ v : Values, v.settled.look = v.look := fun v ↦ by
    rw [Values.settled]
    split <;> rfl
  cases op with
  | values v => exact hvalues v
  | scan c =>
    by_cases h : c.look = .closed
    · rw [settled, Scan.settled_of_closed h]
      exact h.symm
    · rw [settled, Scan.settled_of_open h]
  | filter p look input => rfl
  | modify b input =>
    by_cases h : b.look = .closed
    · rw [settled, Batch.settled_of_closed h]
      rfl
    · rw [settled, Batch.settled_of_open h]
      rfl
  | aggregate spec schema groups input =>
    cases groups with
    | none => rfl
    | some v => exact hvalues v

theorem bare_settled (op : Operator τ) : op.settled.bare = op.bare := by
  induction op with
  | values v =>
    rw [settled, Values.settled]
    split <;> rfl
  | scan c =>
    rw [settled, Scan.settled]
    split <;> rfl
  | filter p look input ih => exact congrArg (filter p .closed) ih
  | modify b input ih =>
    rw [settled, bare, bare, ih, Batch.settled]
    split <;> rfl
  | aggregate spec schema groups input ih => exact congrArg (aggregate spec schema none) ih

theorem bare_eq_of_settled_eq {op op' : Operator τ} (h : op.settled = op'.settled) :
    op.bare = op'.bare := by
  rw [← bare_settled, h, bare_settled]

theorem settled_close (op : Operator τ) : op.close.settled = op.bare := by
  induction op with
  | values v => rfl
  | scan c => rfl
  | filter p look input ih => exact congrArg (filter p .closed) ih
  | modify b input ih => exact congrArg (modify { b with done := false, look := .closed }) ih
  | aggregate spec schema groups input ih => exact congrArg (aggregate spec schema none) ih

theorem settled_bare (op : Operator τ) : op.bare.settled = op.bare := by
  induction op with
  | values v => rfl
  | scan c => rfl
  | filter p look input ih => exact congrArg (filter p .closed) ih
  | modify b input ih => exact congrArg (modify { b with done := false, look := .closed }) ih
  | aggregate spec schema groups input ih => exact congrArg (aggregate spec schema none) ih

theorem closedLabel_settled (op : Operator τ) : op.settled.closedLabel = op.closedLabel := by
  cases op with
  | values v => rfl
  | scan c => rfl
  | filter p look input => rfl
  | modify b input =>
    have hchange : b.settled.change = b.change := by
      rw [Batch.settled]
      split <;> rfl
    exact congrArg Modification.label hchange
  | aggregate spec schema groups input => cases groups <;> rfl

/-! ## Traversals -/

variable [Storage σ τ]

private theorem values_forRows_settled {v : Values} (h : v.look ≠ .closed) (visit : Visitor σ α)
    (a : α) (s : σ) : (v.forRows visit a s).mapNode Values.settled = v.forRows visit a s := by
  rw [Values.forRows]
  refine Lookahead.mapNode_resume h (fun look hlook ↦ Values.settled_of_open hlook)
    fun a s ↦ congrArg (Reply.mk _ · _) ?_
  exact Values.settled_of_open (Lookahead.after_ne_closed _)

private theorem scan_forRows_settled {c : Scan τ} (h : c.look ≠ .closed) (visit : Visitor σ α)
    (a : α) (s : σ) : (c.forRows visit a s).mapNode Scan.settled = c.forRows visit a s := by
  rw [Scan.forRows]
  refine Lookahead.mapNode_resume h (fun look hlook ↦ Scan.settled_of_open hlook) fun a s ↦ ?_
  split
  · exact congrArg (Reply.mk _ · _) (Scan.settled_of_open (Lookahead.after_ne_closed _))
  · exact congrArg (Reply.mk _ · _) (Scan.settled_of_open (Lookahead.after_ne_closed _))

private theorem writeInput_settled {b : Batch τ} {input : Operator τ}
    (ih : ∀ {α : Type} (visit : Visitor σ α) (a : α) (s : σ),
      input.settled.forRows visit a s = (input.forRows visit a s).mapNode settled) (s : σ) :
    writeInput b input.settled s = (writeInput b input s).mapNode settled := by
  rw [writeInput, writeInput]
  split
  · rw [ih]
    dsimp only [Reply.mapNode]
    split <;> rfl
  · rw [ih]
    rfl

private theorem forRows_settled_of_closed (op : Operator τ) (h : op.look = .closed)
    (visit : Visitor σ α) (a : α) (s : σ) :
    op.settled.forRows visit a s = (op.forRows visit a s).mapNode settled := by
  rw [forRows_of_closed ((look_settled op).trans h), forRows_of_closed h, closedLabel_settled]
  rfl

/-- Dropping what closed nodes hold before a traversal or after it is the same. -/
theorem forRows_settled (op : Operator τ) (visit : Visitor σ α) (a : α) (s : σ) :
    op.settled.forRows visit a s = (op.forRows visit a s).mapNode settled := by
  induction op generalizing α s with
  | values v =>
    by_cases h : v.look = .closed
    · exact forRows_settled_of_closed (values v) h visit a s
    · rw [settled, Values.settled_of_open h, forRows]
      exact (congrArg (Reply.mapNode values) (values_forRows_settled h visit a s)).symm
  | scan c =>
    by_cases h : c.look = .closed
    · exact forRows_settled_of_closed (scan c) h visit a s
    · rw [settled, Scan.settled_of_open h, forRows]
      exact (congrArg (Reply.mapNode scan) (scan_forRows_settled h visit a s)).symm
  | filter p look input ih =>
    by_cases h : look = .closed
    · exact forRows_settled_of_closed (filter p look input) h visit a s
    · rw [settled, forRows, forRows]
      refine Eq.symm (Lookahead.mapNode_resume h (fun _ _ ↦ ?_) fun a s ↦ ?_)
      · rfl
      · rw [ih]
        rfl
  | modify b input ih =>
    by_cases h : b.look = .closed
    · exact forRows_settled_of_closed (modify b input) h visit a s
    · rw [settled, Batch.settled_of_open h, forRows_modify, forRows_modify]
      refine Eq.symm (Lookahead.mapNode_resume h (fun look hlook ↦ ?_) fun a s ↦ ?_)
      · exact congrArg (modify · input.settled) (Batch.settled_of_open hlook)
      · rw [writeInput_settled ih]
        split
        · rfl
        · dsimp only [Reply.mapNode]
          split
          · rfl
          · refine congrArg (Reply.mk _ · _) (congrArg (modify · _) ?_)
            exact Batch.settled_of_open (Lookahead.after_ne_closed _)
  | aggregate spec schema groups input ih =>
    cases groups with
    | none => rfl
    | some v =>
      by_cases h : v.look = .closed
      · exact forRows_settled_of_closed (aggregate spec schema (some v) input) h visit a s
      · rw [settled, Option.map_some, Values.settled_of_open h, forRows, forRows]
        exact (congrArg (Reply.mapNode fun v' ↦ aggregate spec schema (some v') input.settled)
          (values_forRows_settled h visit a s)).symm

theorem forRows_eq_of_settled_eq {op op' : Operator τ} (h : op.settled = op'.settled)
    (visit : Visitor σ α) (a : α) (s : σ) :
    (op.forRows visit a s).mapNode settled = (op'.forRows visit a s).mapNode settled := by
  rw [← forRows_settled, h, forRows_settled]

theorem settled_settled (op : Operator τ) : op.settled.settled = op.settled := by
  have hvalues : ∀ v : Values, v.settled.settled = v.settled := fun v ↦ by
    by_cases h : v.look = .closed
    · rw [Values.settled_of_closed h]
      exact Values.settled_of_closed h
    · rw [Values.settled_of_open h, Values.settled_of_open h]
  have hbatch : ∀ b : Batch τ, b.settled.settled = b.settled := fun b ↦ by
    by_cases h : b.look = .closed
    · rw [Batch.settled_of_closed h]
      exact Batch.settled_of_closed h
    · rw [Batch.settled_of_open h, Batch.settled_of_open h]
  induction op with
  | values v => exact congrArg values (hvalues v)
  | scan c =>
    by_cases h : c.look = .closed
    · rw [settled, Scan.settled_of_closed h]
      rfl
    · rw [settled, Scan.settled_of_open h, settled, Scan.settled_of_open h]
  | filter p look input ih => exact congrArg (filter p look) ih
  | modify b input ih => rw [settled, settled, ih, hbatch]
  | aggregate spec schema groups input ih =>
    rw [settled, settled, ih]
    cases groups with
    | none => rfl
    | some v => exact congrArg (aggregate spec schema · input.settled) (congrArg some (hvalues v))

/-! ## Opening -/

/-- The same answer, the same storage and, in case of success, operators that answer alike from
then on. -/
structure Alike {β : Type} (r r' : Reply (Operator τ) σ β) : Prop where
  answer_eq : r.answer = r'.answer
  store_eq : r.store = r'.store
  settled_eq : ∀ b, r.answer = .ok b → r.node.settled = r'.node.settled

namespace Alike

variable {β : Type} {r r' r'' : Reply (Operator τ) σ β}

omit [Storage σ τ] in
theorem symm (h : Alike r r') : Alike r' r :=
  ⟨h.answer_eq.symm, h.store_eq.symm, fun b hb ↦ (h.settled_eq b (h.answer_eq.trans hb)).symm⟩

omit [Storage σ τ] in
theorem trans (h : Alike r r') (h' : Alike r' r'') : Alike r r'' :=
  ⟨h.answer_eq.trans h'.answer_eq, h.store_eq.trans h'.store_eq, fun b hb ↦
    (h.settled_eq b hb).trans (h'.settled_eq b (h.answer_eq.symm.trans hb))⟩

omit [Storage σ τ] in
theorem mapNode {f f' : Operator τ → Operator τ} (h : Alike r r')
    (hf : ∀ op op', op.settled = op'.settled → (f op).settled = (f' op').settled) :
    Alike (r.mapNode f) (r'.mapNode f') :=
  ⟨h.answer_eq, h.store_eq, fun b hb ↦ hf _ _ (h.settled_eq b hb)⟩

end Alike

theorem groupOpened_alike {r r' : Reply (Operator τ) σ Unit} (h : Alike r r') (schema : Schema)
    (g : Grouping) : Alike (groupOpened schema g r) (groupOpened schema g r') := by
  obtain ⟨answer, input, s⟩ := r
  obtain ⟨answer', input', s'⟩ := r'
  obtain ⟨rfl, rfl, hsettled⟩ := h
  rcases answer with e | ⟨⟩
  · exact ⟨rfl, rfl, fun _ hb ↦ by cases hb⟩
  · have hrows : (input.forRows mergeRow g s).mapNode settled
        = (input'.forRows mergeRow g s).mapNode settled :=
      forRows_eq_of_settled_eq (hsettled () rfl) mergeRow g s
    simp only [groupOpened]
    generalize input.forRows mergeRow g s = rows, input'.forRows mergeRow g s = rows' at hrows ⊢
    obtain ⟨answer, drained, s₁⟩ := rows
    obtain ⟨answer', drained', s₁'⟩ := rows'
    obtain ⟨rfl, hdrained, rfl⟩ := Reply.mk.inj hrows
    -- The pass ends with closing the inputs, and closed they differ in nothing that matters.
    have hclosed : drained.close.settled = drained'.close.settled := by
      rw [settled_close, settled_close, bare_eq_of_settled_eq hdrained]
    rcases answer with e | last
    · exact ⟨rfl, rfl, fun _ _ ↦ hclosed⟩
    · exact ⟨rfl, rfl, fun _ _ ↦ hclosed⟩

omit [Storage σ τ] in
theorem openGroups_alike {r r' : Reply (Operator τ) σ Values} (h : Alike r r')
    (spec : Aggregation) (schema : Schema) :
    Alike (openGroups spec schema r) (openGroups spec schema r') := by
  obtain ⟨answer, input, s⟩ := r
  obtain ⟨answer', input', s'⟩ := r'
  obtain ⟨rfl, rfl, hsettled⟩ := h
  rcases answer with e | groups
  · exact ⟨rfl, rfl, fun _ hb ↦ by cases hb⟩
  · exact ⟨rfl, rfl, fun _ _ ↦ congrArg (aggregate spec schema _) (hsettled groups rfl)⟩

/-- Opening an operator does not look at what its closed nodes hold. -/
theorem openOn_settled (op : Operator τ) (s : σ) : Alike (op.settled.openOn s) (op.openOn s) := by
  -- An open root is left alone, so it is the closed ones that have to be looked at.
  have hopen : ∀ (op : Operator τ) (s : σ), op.look ≠ .closed →
      Alike (op.settled.openOn s) (op.openOn s) := by
    intro op s h
    have h' : op.settled.look ≠ .closed := by rwa [look_settled]
    rw [openOn_of_open h, openOn_of_open h']
    exact ⟨rfl, rfl, fun _ _ ↦ settled_settled op⟩
  induction op generalizing s with
  | values v =>
    by_cases h : v.look = .closed
    · rw [settled, Values.settled_of_closed h, openOn, openOn, Values.opened, Values.opened, h]
      exact ⟨rfl, rfl, fun _ _ ↦ rfl⟩
    · exact hopen (values v) s h
  | scan c =>
    by_cases h : c.look = .closed
    · rw [settled, Scan.settled_of_closed h, openOn, openOn, h]
      dsimp only [Scan.ofTable, Lookahead.isClosed, Scan.reset]
      rcases (Storage.pageCount c.table s : Except StorageError Nat × σ) with ⟨e | n, s'⟩
      · exact ⟨rfl, rfl, fun _ hb ↦ by cases hb⟩
      · exact ⟨rfl, rfl, fun _ _ ↦ rfl⟩
    · exact hopen (scan c) s h
  | filter p look input ih =>
    by_cases h : look = .closed
    · subst h
      exact (ih s).mapNode fun _ _ hsettled ↦ congrArg (filter p _) hsettled
    · exact hopen (filter p look input) s h
  | modify b input ih =>
    by_cases h : b.look = .closed
    · rw [settled, Batch.settled_of_closed h, openOn, openOn, h]
      exact (ih s).mapNode fun _ _ hsettled ↦ congrArg (modify _) hsettled
    · exact hopen (modify b input) s h
  | aggregate spec schema groups input ih =>
    cases groups with
    | some v =>
      by_cases h : v.look = .closed
      · rw [settled, Option.map_some, Values.settled_of_closed h, openOn, openOn, Values.opened,
          Values.opened, h]
        exact ⟨rfl, rfl, fun _ _ ↦ congrArg (aggregate spec schema _) (settled_settled input)⟩
      · exact hopen (aggregate spec schema (some v) input) s h
    | none =>
      have hschema : input.settled.schema = input.schema :=
        schema_eq_of_bare_eq input.bare_settled
      rw [settled, Option.map_none, openOn_aggregate, openOn_aggregate, hschema]
      rcases Grouping.ofSchema input.schema spec with e | g
      · exact ⟨rfl, rfl, fun _ hb ↦ by cases hb⟩
      · exact openGroups_alike (groupOpened_alike (ih s) schema g) spec schema

theorem openOn_alike {op op' : Operator τ} (h : op.settled = op'.settled) (s : σ) :
    Alike (op.openOn s) (op'.openOn s) := by
  have hsettled := openOn_settled op s
  rw [h] at hsettled
  exact hsettled.symm.trans (openOn_settled op' s)

end Operator

end QueryEngine
