import QueryEngine.Proofs.Operator.Frame
import QueryEngine.Proofs.Operator.History
import QueryEngine.Proofs.Operator.Kinds
import QueryEngine.Proofs.Operator.ReadOnly
import QueryEngine.Proofs.Storage.Population

/-!
# Operators over a heap, in every state

An operator over a heap gets built, serves requests, has its inputs exchanged, is put into another
operator as an input and is taken out of it again. In between, others call the heap.
`Operator.Lives` says that all of this has led to an operator and a heap.

Two facts about such an operator are kept by everything that happens (`Operator.Lives.current`). A
modification that is closed is ready to write again: it never carries over that its rows have been
written. And what the operator was told when it was built is still true: listed rows conform to
their schema, and the schemas that scans and modifications remember are those of their tables,
because tables are neither removed nor altered.

## What operators do to the storage

An operator has no other way to the storage than calls. So what holds of the storage, and is kept by
every call, is kept by whatever an operator does (`Storage.Kept`).
-/

namespace QueryEngine

variable {σ τ α : Type}

/-! ## What no call leads out of -/

section

variable [Storage σ τ] {states : σ → Prop}

/-- No call for rows, and no call to write them, leads out of the given states. -/
structure Storage.Kept (states : σ → Prop) : Prop extends Storage.Closed states where
  insert : ∀ table r s, states s → states (Storage.insert table r s).2
  delete : ∀ table r s, states s → states (Storage.delete table r s).2

namespace Operator

theorem kinds_univ : Kinds (fun (_ : Operator τ) _ ↦ True) :=
  ⟨fun _ _ _ _ ↦ trivial, fun _ _ _ ↦ trivial, fun _ _ _ _ _ _ ↦ trivial⟩

theorem carries_univ (op : Operator τ) : op.Carries fun _ _ ↦ True := by
  induction op with
  | values v => exact fun _ _ ↦ trivial
  | scan c => exact fun _ _ ↦ trivial
  | filter p look input ih => exact ⟨fun _ _ ↦ trivial, ih⟩
  | modify b input ih => exact ⟨fun _ _ ↦ trivial, ih⟩
  | aggregate spec schema groups input ih => exact ⟨fun _ _ _ _ ↦ trivial, ih⟩

/-- An operator does nothing to the storage but to call it, and without modifications it only
reads. -/
theorem admits_of_closed (closed : Storage.Closed states) (op : Operator τ)
    (h : op.WritesNothing ∨ Storage.Kept states) :
    op.Admits (fun _ _ ↦ True) states fun _ ↦ True := by
  induction op with
  | values v => trivial
  | scan c =>
    refine ⟨fun s hs ↦ ⟨closed.pageCount c.table s hs, fun _ _ ↦ trivial⟩, ?_, ?_⟩
    · intro page _ s rows s' hs hread
      have hkept := closed.readPage c.table page s hs
      rw [hread] at hkept
      exact ⟨hkept, fun _ _ ↦ trivial⟩
    · intro page _ s e s' hs hread
      have hkept := closed.readPage c.table page s hs
      rw [hread] at hkept
      exact ⟨trivial, hkept⟩
  | filter p look input ih => exact ⟨fun _ _ _ _ ↦ trivial, ih h⟩
  | modify b input ih =>
    have kept : Storage.Kept states := h.resolve_left id
    refine ⟨?_, ih (.inr kept)⟩
    rw [Batch.Writes]
    cases b.change with
    | insert => exact fun r s _ hs ↦ ⟨kept.insert b.table r s hs, fun _ _ _ ↦ trivial⟩
    | delete => exact fun r s _ hs ↦ ⟨kept.delete b.table r s hs, fun _ _ _ ↦ trivial⟩
  | aggregate spec schema groups input ih =>
    refine ⟨⟨fun _ ↦ True, ?_⟩, ih h⟩
    exact ⟨fun _ _ ↦ trivial, fun _ _ ↦ trivial, fun _ _ _ _ _ _ ↦ trivial,
      fun _ _ _ _ _ _ ↦ trivial, fun _ _ _ _ ↦ .inr trivial⟩

theorem store_serve (kept : Storage.Kept states) (op : Operator τ) (q : Request) {s : σ}
    (hs : states s) : states (op.serve s q).store :=
  have admits := admits_of_closed kept.toClosed op (.inr kept)
  (op.carries_univ.serve kinds_univ admits .univ hs q).store

theorem store_buildAggregate (closed : Storage.Closed states) (spec : Aggregation)
    (input : Operator τ) (h : input.WritesNothing ∨ Storage.Kept states) {s : σ} (hs : states s) :
    states (input.buildAggregate spec s).2 :=
  (input.carries_univ.buildAggregate kinds_univ
    (fun schema _ ↦ admits_of_closed closed (aggregate spec schema none input) h)
    (.inl fun _ ↦ trivial) hs).1

/-! ## Exchanges -/

theorem replaceChildren_aggregate (spec : Aggregation) (schema : Schema) (groups : Option Values)
    (input child : Operator τ) (s : σ) :
    (aggregate spec schema groups input).replaceChildren [child] s
      = match child.buildAggregate spec s with
        | (.ok new, s') => ⟨.ok [input], new, s'⟩
        | (.error e, s') => ⟨.error e, aggregate spec schema groups input, s'⟩ := by
  rw [replaceChildren, buildAggregate]
  rcases spec.schema child.schema with e | schema'
  · rfl
  · dsimp only
    rcases child.groupsOf spec schema' s with ⟨e | groups', child', s'⟩ <;> rfl

theorem replaceChildren_of_length_ne (op : Operator τ) {children : List (Operator τ)}
    (hlength : children.length ≠ op.children.length) (s : σ) :
    op.replaceChildren children s
      = ⟨.error (.childCount op.label op.children.length children.length), op, s⟩ := by
  cases op with
  | values v =>
    rcases children with _ | ⟨child, rest⟩
    · exact absurd rfl hlength
    · rfl
  | scan c =>
    rcases children with _ | ⟨child, rest⟩
    · exact absurd rfl hlength
    · rfl
  | filter p look input =>
    rcases children with _ | ⟨child, _ | ⟨child', rest⟩⟩
    · rfl
    · exact absurd rfl hlength
    · rfl
  | modify b input =>
    rcases children with _ | ⟨child, _ | ⟨child', rest⟩⟩
    · rfl
    · exact absurd rfl hlength
    · rfl
  | aggregate spec schema groups input =>
    rcases children with _ | ⟨child, _ | ⟨child', rest⟩⟩
    · rfl
    · exact absurd rfl hlength
    · rfl

def withChildren : Operator τ → List (Operator τ) → Operator τ
  | filter p look _, [child] => filter p look child
  | modify b _, [child] => modify b child
  | op, _ => op

/-- An exchange is refused at once, or it is made at once, or an aggregation is built over the new
input. -/
theorem replaceChildren_cases (op : Operator τ) (children : List (Operator τ)) (s : σ) :
    (∃ e, op.replaceChildren children s = ⟨.error e, op, s⟩)
      ∨ op.replaceChildren children s = ⟨.ok op.children, op.withChildren children, s⟩
      ∨ ∃ spec schema groups input child,
          op = aggregate spec schema groups input ∧ children = [child] := by
  by_cases hlength : children.length = op.children.length
  · cases op with
    | values v =>
      obtain rfl := List.length_eq_zero_iff.mp hlength
      exact .inr (.inl rfl)
    | scan c =>
      obtain rfl := List.length_eq_zero_iff.mp hlength
      exact .inr (.inl rfl)
    | filter p look input =>
      obtain ⟨child, rfl⟩ := List.length_eq_one_iff.mp hlength
      exact .inr (.inl rfl)
    | modify b input =>
      obtain ⟨child, rfl⟩ := List.length_eq_one_iff.mp hlength
      rw [replaceChildren]
      split
      · exact .inr (.inl rfl)
      · exact .inl ⟨_, rfl⟩
    | aggregate spec schema groups input =>
      obtain ⟨child, rfl⟩ := List.length_eq_one_iff.mp hlength
      exact .inr (.inr ⟨_, _, _, _, child, rfl, rfl⟩)
  · exact .inl ⟨_, op.replaceChildren_of_length_ne hlength s⟩

theorem store_replaceChildren (closed : Storage.Closed states) (op : Operator τ)
    {children : List (Operator τ)}
    (h : (∀ child ∈ children, child.WritesNothing) ∨ Storage.Kept states) {s : σ} (hs : states s) :
    states (op.replaceChildren children s).store := by
  rcases op.replaceChildren_cases children s with
    ⟨e, hrefused⟩ | hmade | ⟨spec, schema, groups, input, child, rfl, rfl⟩
  · rwa [hrefused]
  · rwa [hmade]
  · have hbuilt := store_buildAggregate closed spec child
      (h.imp_left fun hall ↦ hall child List.mem_cons_self) hs
    rw [replaceChildren_aggregate]
    generalize child.buildAggregate spec s = built at hbuilt ⊢
    obtain ⟨e | new, s'⟩ := built <;> exact hbuilt

end Operator

end

/-! ## Modifications at rest -/

namespace Operator

/-- No closed modification in the tree remembers that its rows have been written. -/
def Rearmed : Operator τ → Prop
  | values _ | scan _ => True
  | filter _ _ input | aggregate _ _ _ input => input.Rearmed
  | modify b input => (b.look = .closed → b.done = false) ∧ input.Rearmed

theorem rearmed_close (op : Operator τ) : op.close.Rearmed := by
  induction op with
  | values v => trivial
  | scan c => trivial
  | filter p look input ih => exact ih
  | modify b input ih => exact ⟨fun _ ↦ rfl, ih⟩
  | aggregate spec schema groups input ih => exact ih

theorem rearmed_modify_of_open {b : Batch τ} (isOpen : b.look ≠ .closed) {input : Operator τ}
    (h : input.Rearmed) : (modify b input).Rearmed :=
  ⟨fun closed ↦ absurd closed isOpen, h⟩

namespace Rearmed

theorem buffer {op : Operator τ} (h : op.Rearmed) (r : Row) : (op.buffer r).Rearmed := by
  cases op with
  | values v => trivial
  | scan c => trivial
  | filter p look input => exact h
  | modify b input => exact rearmed_modify_of_open (Lookahead.ready_ne_closed _) h.2
  | aggregate spec schema groups input => exact h

theorem withChildren {op : Operator τ} (h : op.Rearmed) {children : List (Operator τ)}
    (hchildren : ∀ child ∈ children, child.Rearmed) : (op.withChildren children).Rearmed := by
  rw [Operator.withChildren.eq_def]
  split
  · next child =>
    have hchild : child.Rearmed := hchildren child List.mem_cons_self
    exact hchild
  · next child => exact ⟨h.1, hchildren child List.mem_cons_self⟩
  · exact h

theorem children {op child : Operator τ} (h : op.Rearmed) (hchild : child ∈ op.children) :
    child.Rearmed := by
  cases op with
  | values v => cases hchild
  | scan c => cases hchild
  | filter p look input => exact List.mem_singleton.mp hchild ▸ h
  | modify b input => exact List.mem_singleton.mp hchild ▸ h.2
  | aggregate spec schema groups input => exact List.mem_singleton.mp hchild ▸ h

variable [Storage σ τ]

theorem forRows {op : Operator τ} (h : op.Rearmed) (visit : Visitor σ α) (a : α) (s : σ) :
    (op.forRows visit a s).node.Rearmed := by
  induction op generalizing α s with
  | values v => trivial
  | scan c => trivial
  | filter p look input ih =>
    rw [Operator.forRows]
    exact Lookahead.node_resume (P := Rearmed) (fun _ ↦ h) fun a s ↦ ih h (p.guard visit) a s
  | modify b input ih =>
    obtain ⟨hroot, hinput⟩ := h
    -- Only a closed modification is traversed without being opened, and that changes nothing in it.
    have hwritten : ∀ s : σ, (writeInput b input s).node.Rearmed := by
      intro s
      rw [writeInput]
      split
      · dsimp only
        split
        · exact ih hinput gather [] s
        · exact ih hinput gather [] s
      · exact ih hinput (removeRow b.table) 0 s
    rw [forRows_modify]
    refine Lookahead.resume_cases
      (P := fun reply : Reply (Operator τ) σ (ForInStep α) ↦ reply.node.Rearmed)
      (fun closed ↦ ⟨fun _ ↦ hroot closed, hinput⟩)
      (rearmed_modify_of_open Lookahead.exhausted_ne_closed hinput)
      (fun _ _ ↦ rearmed_modify_of_open (Lookahead.ready_ne_closed none) hinput) fun a s ↦ ?_
    split
    · exact rearmed_modify_of_open Lookahead.exhausted_ne_closed hinput
    · dsimp only
      split
      · exact rearmed_modify_of_open (Lookahead.ready_ne_closed none) (hwritten s)
      · exact rearmed_modify_of_open (Lookahead.after_ne_closed _) (hwritten s)
  | aggregate spec schema groups input ih =>
    cases groups with
    | none => exact h
    | some v => exact h

theorem groupInput (spec : Aggregation) (schema : Schema) {input : Operator τ} (h : input.Rearmed)
    {start : σ → Reply (Operator τ) σ Unit} (hstart : ∀ s, (start s).node.Rearmed) (s : σ) :
    (groupInput spec schema input start s).node.Rearmed := by
  have hopened := hstart s
  rw [groupInput_eq]
  split
  · exact h
  · next g hg =>
    generalize start s = opened at hopened ⊢
    rcases opened with ⟨e | ⟨⟩, input', s'⟩
    · exact hopened
    · -- The pass closes the input, whatever has become of it.
      obtain ⟨drained, -, hnode⟩ := node_groupOpened schema g input' s'
      rw [hnode]
      exact drained.rearmed_close

theorem openOn {op : Operator τ} (h : op.Rearmed) (s : σ) : (op.openOn s).node.Rearmed := by
  induction op generalizing s with
  | values v => trivial
  | scan c =>
    rw [Operator.openOn]
    split <;> trivial
  | filter p look input ih =>
    rw [Operator.openOn]
    split
    · exact ih h s
    · exact h
  | modify b input ih =>
    rw [Operator.openOn]
    split
    · exact rearmed_modify_of_open (Lookahead.ready_ne_closed none) (ih h.2 s)
    · exact h
  | aggregate spec schema groups input ih =>
    cases groups with
    | some v => exact h
    | none =>
      have hinput : input.Rearmed := h
      have hgroups := hinput.groupInput spec schema (fun s ↦ ih hinput s) s
      rw [Operator.openOn]
      generalize Operator.groupInput spec schema input (fun s ↦ input.openOn s) s = grouped
        at hgroups ⊢
      obtain ⟨e | v, input', s'⟩ := grouped <;> exact hgroups

theorem rewindOn {op : Operator τ} (h : op.Rearmed) (s : σ) : (op.rewindOn s).node.Rearmed := by
  induction op generalizing s with
  | values v =>
    rw [Operator.rewindOn]
    split <;> trivial
  | scan c =>
    rw [Operator.rewindOn]
    split <;> trivial
  | filter p look input ih =>
    rw [Operator.rewindOn]
    split
    · exact ih h s
    · exact h
  | modify b input ih =>
    rw [Operator.rewindOn]
    split
    · exact ⟨fun _ ↦ rfl, ih h.2 s⟩
    · exact h
  | aggregate spec schema groups input ih =>
    cases groups with
    | none => exact h
    | some v =>
      rw [Operator.rewindOn]
      split <;> exact h

theorem serve {op : Operator τ} (h : op.Rearmed) (s : σ) (q : Request) :
    (op.serve s q).node.Rearmed := by
  have hpulled : q.isPull = true → (op.serve s q).node.Rearmed := by
    intro hq
    have hpull : (op.pull s).node.Rearmed := h.forRows takeFirst none s
    rcases op.node_of_isPull s hq with hnode | ⟨r, -, hnode⟩
    · rwa [hnode]
    · rw [hnode]
      exact hpull.buffer r
  cases q with
  | opening => exact h.openOn s
  | hasNext => exact hpulled rfl
  | next => exact hpulled rfl
  | rewinding => exact h.rewindOn s
  | closing => exact op.rearmed_close

theorem buildAggregate {spec : Aggregation} {input op : Operator τ} (h : input.Rearmed) {s s' : σ}
    (built : input.buildAggregate spec s = (.ok op, s')) : op.Rearmed := by
  obtain ⟨schema, groups, input', -, hgroups, rfl, -⟩ := aggregate_of_buildAggregate built
  have hinput := groupInput spec schema h (fun s ↦ h.openOn s) s
  rw [← groupsOf, hgroups] at hinput
  exact hinput

end Rearmed

end Operator

/-! ## A heap over time -/

namespace Heap

theorem store_insert (h : Heap) (name : String) (r : Row) :
    (Storage.insert name r h).2 = (h.call (.insert name r)).2 := by
  rw [call]
  simp only [Storage.insert]
  rcases h.insert name r with e | ⟨id, h'⟩ <;> rfl

theorem store_delete (h : Heap) (name : String) (r : Row) :
    (Storage.delete name r h).2 = (h.call (.delete r)).2 := by
  rw [call]
  simp only [Storage.delete]
  rcases h.delete r with e | h' <;> rfl

/-- What every call keeps, no operator leads out of. -/
theorem kept_of_calls {P : Heap → Prop} (calls : ∀ h c, P h → P (h.call c).2) :
    Storage.Kept P where
  pageCount _ _ hs := hs
  readPage _ _ _ hs := hs
  insert name r h hs := h.store_insert name r ▸ calls h (.insert name r) hs
  delete name r h hs := h.store_delete name r ▸ calls h (.delete r) hs

end Heap

namespace Operator

/-- Listed rows conform to their schema, and each scan or modification in the tree remembers the
schema that its table has in the heap, as long as the heap has no more tables than there are numbers
for them. -/
def Remembers (h : Heap) : Operator String → Prop
  | values v => ∀ r ∈ v.rows, r.Conforms v.schema
  | scan c => h.tables.length ≤ 2 ^ 32 → h.Keeps c.table c.schema
  | filter _ _ input | aggregate _ _ _ input => Remembers h input
  | modify b input =>
    (h.tables.length ≤ 2 ^ 32 → h.Keeps b.table b.tableSchema) ∧ Remembers h input

theorem remembers_bare (op : Operator String) (h : Heap) :
    op.bare.Remembers h ↔ op.Remembers h := by
  induction op with
  | values v => rfl
  | scan c => rfl
  | filter p look input ih => exact ih
  | modify b input ih => exact and_congr_right fun _ ↦ ih
  | aggregate spec schema groups input ih => exact ih

/-- The heap is reachable, no closed modification of the operator remembers that its rows have been
written, and what the operator remembers of schemas is true. -/
structure Current (op : Operator String) (h : Heap) : Prop where
  reachable : h.Reachable
  rearmed : op.Rearmed
  remembers : op.Remembers h

namespace Remembers

variable {op : Operator String} {h : Heap}

theorem of_bare_eq (remembers : op.Remembers h) {op' : Operator String}
    (hbare : op'.bare = op.bare) : op'.Remembers h := by
  rwa [← op'.remembers_bare, hbare, op.remembers_bare]

theorem call (remembers : op.Remembers h) (c : Heap.Call) : op.Remembers (h.call c).2 := by
  induction op with
  | values v => exact remembers
  | scan s =>
    intro few
    exact (remembers (Nat.le_trans (h.length_tables_le_call c) few)).call c few
  | filter p look input ih => exact ih remembers
  | modify b input ih =>
    refine ⟨fun few ↦ ?_, ih remembers.2⟩
    exact (remembers.1 (Nat.le_trans (h.length_tables_le_call c) few)).call c few
  | aggregate spec schema groups input ih => exact ih remembers

theorem withChildren (remembers : op.Remembers h) {children : List (Operator String)}
    (hchildren : ∀ child ∈ children, child.Remembers h) :
    (op.withChildren children).Remembers h := by
  rw [Operator.withChildren.eq_def]
  split
  · next child =>
    have hchild : child.Remembers h := hchildren child List.mem_cons_self
    exact hchild
  · next child => exact ⟨remembers.1, hchildren child List.mem_cons_self⟩
  · exact remembers

theorem children (remembers : op.Remembers h) {child : Operator String}
    (hchild : child ∈ op.children) : child.Remembers h := by
  cases op with
  | values v => cases hchild
  | scan c => cases hchild
  | filter p look input => exact List.mem_singleton.mp hchild ▸ remembers
  | modify b input => exact List.mem_singleton.mp hchild ▸ remembers.2
  | aggregate spec schema groups input => exact List.mem_singleton.mp hchild ▸ remembers

end Remembers

/-- Heaps that come about by calls, and of which an operator remembers the schemas. -/
theorem kept_remembers (op : Operator String) :
    Storage.Kept fun h : Heap ↦ h.Reachable ∧ op.Remembers h :=
  Heap.kept_of_calls fun _ c hs ↦ ⟨hs.1.call c, hs.2.call c⟩

namespace Current

variable {op : Operator String} {h : Heap}

theorem serve (current : op.Current h) (q : Request) :
    (op.serve h q).node.Current (op.serve h q).store := by
  obtain ⟨hreachable, hremembers⟩ :=
    store_serve (kept_remembers op) op q ⟨current.reachable, current.remembers⟩
  exact ⟨hreachable, current.rearmed.serve h q, hremembers.of_bare_eq (op.bare_serve h q)⟩

theorem call (current : op.Current h) (c : Heap.Call) : op.Current (h.call c).2 :=
  ⟨current.reachable.call c, current.rearmed, current.remembers.call c⟩

theorem buildAggregate (current : op.Current h) {spec : Aggregation} {new : Operator String}
    {h' : Heap} (built : op.buildAggregate spec h = (.ok new, h')) : new.Current h' := by
  have hstore := store_buildAggregate (kept_remembers op).toClosed spec op
    (.inr (kept_remembers op)) ⟨current.reachable, current.remembers⟩
  rw [built] at hstore
  refine ⟨hstore.1, current.rearmed.buildAggregate built, ?_⟩
  obtain ⟨schema, groups, input', -, -, rfl, hbare⟩ := aggregate_of_buildAggregate built
  have hinput : input'.Remembers h' := hstore.2.of_bare_eq hbare
  exact hinput

theorem replaceChildren (current : op.Current h) {children : List (Operator String)}
    (hchildren : ∀ child ∈ children, child.Current h) :
    (op.replaceChildren children h).node.Current (op.replaceChildren children h).store := by
  rcases op.replaceChildren_cases children h with
    ⟨e, hrefused⟩ | hmade | ⟨spec, schema, groups, input, child, rfl, rfl⟩
  · rwa [hrefused]
  · rw [hmade]
    exact ⟨current.reachable,
      current.rearmed.withChildren fun child hchild ↦ (hchildren child hchild).rearmed,
      current.remembers.withChildren fun child hchild ↦ (hchildren child hchild).remembers⟩
  · -- A failed building has called the storage, and the aggregation has to be right about that too.
    have hchild : child.Current h := hchildren child List.mem_cons_self
    have kept := kept_remembers (aggregate spec schema groups input)
    have hstore := store_buildAggregate kept.toClosed spec child (.inr kept)
      ⟨current.reachable, current.remembers⟩
    rw [replaceChildren_aggregate]
    rcases hbuilt : child.buildAggregate spec h with ⟨e | new, h'⟩
    · rw [hbuilt] at hstore
      exact ⟨hstore.1, current.rearmed, hstore.2⟩
    · exact hchild.buildAggregate hbuilt

end Current

end Operator

/-! ## Lives -/

/-- The operators that a plan takes over as they are. -/
def Plan.parts : Plan τ → List (Operator τ)
  | values _ _ | scan _ => []
  | filter _ input | modify _ _ input | aggregate _ input => input.parts
  | operator op => [op]

theorem Operator.Current.build {plan : Plan String} {h h' : Heap} (reachable : h.Reachable)
    (hparts : ∀ part ∈ plan.parts, part.Current h) {op : Operator String}
    (built : plan.build h = (.ok op, h')) : op.Current h' := by
  induction plan generalizing op h' with
  | values schema rows =>
    obtain ⟨hvalues, rfl⟩ := Prod.mk.inj built
    obtain ⟨v, hlist, rfl⟩ := exists_of_map_eq_ok hvalues
    obtain ⟨hconforms, rfl⟩ := Values.ofRows_eq_ok_iff.mp hlist
    exact ⟨reachable, trivial, hconforms⟩
  | scan table =>
    rw [Plan.build] at built
    split at built
    · next schema hschema =>
      cases built
      obtain ⟨t, ht, hts⟩ := Heap.tableSchema_eq_ok hschema
      exact ⟨reachable, trivial, fun few ↦ ⟨reachable, few, t, ht, hts.symm⟩⟩
    · cases built
  | filter p input ih =>
    rw [Plan.build] at built
    split at built
    · next child h₁ hinput =>
      cases built
      have current := ih hparts hinput
      exact ⟨current.reachable, current.rearmed, current.remembers⟩
    · cases built
  | modify change table input ih =>
    obtain ⟨child, tableSchema, hinput, hschema, -, rfl⟩ := build_modify built
    have current := ih hparts hinput
    obtain ⟨t, ht, hts⟩ := Heap.tableSchema_eq_ok hschema
    exact ⟨current.reachable, ⟨fun _ ↦ rfl, current.rearmed⟩,
      fun few ↦ ⟨current.reachable, few, t, ht, hts.symm⟩, current.remembers⟩
  | aggregate spec input ih =>
    rw [Plan.build] at built
    split at built
    · next child h₁ hinput => exact (ih hparts hinput).buildAggregate built
    · cases built
  | operator part =>
    cases built
    exact hparts part List.mem_cons_self

namespace Operator

/-- What an operator over a heap goes through. -/
inductive Lives : Operator String → Heap → Prop where
  /-- It is built from a plan, out of operators that have lived before. -/
  | build (plan : Plan String) {op : Operator String} {h h' : Heap} (reachable : h.Reachable)
      (parts : ∀ part ∈ plan.parts, Lives part h) (built : plan.build h = (.ok op, h')) :
      Lives op h'
  /-- It serves a request. -/
  | serve {op : Operator String} {h : Heap} (lives : Lives op h) (q : Request) :
      Lives (op.serve h q).node (op.serve h q).store
  /-- Its inputs are exchanged, or it refuses that. -/
  | exchange {op : Operator String} {h : Heap} (lives : Lives op h)
      (children : List (Operator String)) (inputs : ∀ child ∈ children, Lives child h) :
      Lives (op.replaceChildren children h).node (op.replaceChildren children h).store
  /-- It is an input of another operator, and is taken out of that. -/
  | input {op child : Operator String} {h : Heap} (lives : Lives op h)
      (hchild : child ∈ op.children) : Lives child h
  /-- Others call the heap. -/
  | call {op : Operator String} {h : Heap} (lives : Lives op h) (c : Heap.Call) :
      Lives op (h.call c).2

theorem Lives.current {op : Operator String} {h : Heap} (lives : op.Lives h) : op.Current h := by
  induction lives with
  | build plan reachable _ built ih => exact .build reachable ih built
  | serve _ q ih => exact ih.serve q
  | exchange _ children _ ih ihs => exact ih.replaceChildren ihs
  | input _ hchild ih =>
    exact ⟨ih.reachable, ih.rearmed.children hchild, ih.remembers.children hchild⟩
  | call _ c ih => exact ih.call c

end Operator

end QueryEngine
