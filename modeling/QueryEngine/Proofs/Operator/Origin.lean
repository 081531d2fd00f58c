import QueryEngine.Proofs.Operator.Handover
import QueryEngine.Proofs.Operator.Kinds
import QueryEngine.Proofs.Storage.Population

/-!
# Where deleted rows come from

A deletion is built for a table, but it follows the record ids of the rows that its input hands to
it, and these may be of another table. What is deleted is told by the input alone
(`Operator.Draws`): listed rows carry what ids they were given, a scan hands out rows of the table
that it reads, a filter passes them on, and the results of an aggregation carry no ids. So a
deletion spares the tables that its input draws no rows from. If its input draws rows of its own
table only, these are all others.
-/

namespace QueryEngine

/-! ## The ids of tables -/

/-- The heap, with no more tables than there are numbers for them, has given them the ids. -/
structure Heap.Assigns (h : Heap) (ids : String → UInt32) : Prop where
  reachable : h.Reachable
  few : h.tables.length ≤ 2 ^ 32
  id_eq : ∀ name t, h.table name = .ok t → t.id = ids name

namespace Heap

variable {h h' : Heap} {ids : String → UInt32} {name : String} {t : HeapTable} {r : Row}

theorem Assigns.orderly (assigns : h.Assigns ids) : h.Orderly :=
  assigns.reachable.orderly assigns.few

theorem Assigns.id_of_readPage (assigns : h.Assigns ids) {page : UInt32} {rows : List Row}
    (hread : h.readPage name page = .ok rows) (hr : r ∈ rows) {id : RecordId}
    (hid : r.id? = some id) : id.table = ids name := by
  rw [readPage] at hread
  split at hread
  · cases hread
  · next t ht =>
    split at hread
    · next slots hslots =>
      cases hread
      obtain ⟨s, hslot⟩ := HeapTable.mem_rows_iff.mp hr
      have hplaced := assigns.reachable.sound.placed (mem_of_table ht) _ s slots r hslots hslot
      rw [hid, Option.some.injEq] at hplaced
      rw [hplaced, ← assigns.id_eq name t ht]
    · cases hread

/-- A deletion keeps the ids, and the tables that have another id than the row. -/
theorem Assigns.delete (assigns : h.Assigns ids) (deleted : h.delete r = .ok h') :
    h'.Assigns ids
      ∧ ∀ name, (∀ id, r.id? = some id → id.table ≠ ids name) → h'.table name = h.table name := by
  have reachable' : h'.Reachable := by
    have hcall := assigns.reachable.call (.delete r)
    rwa [call, deleted] at hcall
  obtain ⟨id, t, row, hid, ht, -, rfl⟩ := delete_eq_ok_iff.mp deleted
  have hmem := mem_of_tableById ht
  have hnamed := assigns.orderly.table_of_mem hmem
  have hother : ∀ name, name ≠ t.name → (h.update (t.vacate id)).table name = h.table name :=
    fun name hne ↦ table_update_of_ne assigns.orderly hmem rfl rfl hne
  have few' := Nat.le_trans (Nat.le_of_eq (h.length_tables_update (t.vacate id))) assigns.few
  refine ⟨⟨reachable', few', fun name t' ht' ↦ ?_⟩, fun name hne ↦ ?_⟩
  · by_cases hname : name = t.name
    · subst hname
      have hvacated : (h.update (t.vacate id)).table t.name = .ok (t.vacate id) :=
        table_update assigns.orderly hnamed rfl rfl
      rw [hvacated] at ht'
      cases ht'
      exact assigns.id_eq _ t hnamed
    · exact assigns.id_eq name t' ((hother name hname).symm.trans ht')
  · refine hother name fun hname ↦ hne id hid ?_
    subst hname
    rw [← assigns.id_eq _ t hnamed, id_of_tableById ht]

end Heap

/-- The tables have the given ids, and no rival changes them. -/
structure ContestedHeap.Assigns (c : ContestedHeap) (ids : String → UInt32) : Prop where
  heap : c.heap.Assigns ids
  alone : ∀ n, c.edits n = []

namespace Operator

/-! ## What an input draws -/

/-- Whether the operator may hand out rows with the id of a table. -/
def Draws (ids : String → UInt32) (id : UInt32) : Operator String → Prop
  | values v => ∃ r ∈ v.rows, ∃ place, r.id? = some place ∧ place.table = id
  | scan c => id = ids c.table
  | filter _ _ input => input.Draws ids id
  | modify .. | aggregate .. => False

/-- The row carries the id of a table that the operator draws rows from, or none. -/
def Origin (ids : String → UInt32) (op : Operator String) (r : Row) : Prop :=
  ∀ id, r.id? = some id → op.Draws ids id.table

variable {ids : String → UInt32}

theorem draws_bare (id : UInt32) (op : Operator String) :
    op.bare.Draws ids id ↔ op.Draws ids id := by
  induction op with
  | values v => rfl
  | scan c => rfl
  | filter p look input ih => exact ih
  | modify b input ih => rfl
  | aggregate spec schema groups input ih => rfl

theorem kinds_origin : Kinds (Origin ids) where
  filter _ _ _ origin := origin
  count _ _ _ _ hid := nomatch hid
  group _ _ _ r _ hnone id hid := by
    rw [hnone] at hid
    cases hid

/-- The states in which the tables have the given ids and something else holds of the heap. -/
def Assigned (ids : String → UInt32) (P : Heap → Prop) (c : ContestedHeap) : Prop :=
  c.Assigns ids ∧ P c.heap

variable {P : Heap → Prop}

private theorem Assigned.of_alone {c c' : ContestedHeap} (assigned : Assigned ids P c)
    (alone : ContestedHeap.Alone c.heap c.writes c') : Assigned ids P c' :=
  ⟨⟨alone.2.1 ▸ assigned.1.heap, alone.1⟩, alone.2.1 ▸ assigned.2⟩

private theorem reads_assigned (table : String) :
    Reads table (fun r ↦ ∀ id, r.id? = some id → id.table = ids table)
      (fun _ : Unit ↦ Assigned ids P) (FailsWithin (fun _ ↦ True) (Assigned ids P)) := by
  have hstays : ∀ page c, Assigned ids P c → Assigned ids P (Storage.readPage table page c).2 :=
    fun page c assigned ↦ assigned.of_alone
      ((ContestedHeap.closed_alone c.heap c.writes).readPage table page c
        ⟨assigned.1.alone, rfl, rfl⟩)
  constructor
  · intro page _ c rows c' assigned hread
    have hc' := hstays page c assigned
    rw [hread] at hc'
    refine ⟨hc', fun r hr id hid ↦ ?_⟩
    change c.readPage table page = _ at hread
    rw [ContestedHeap.readPage] at hread
    split at hread
    · cases hread
    · obtain ⟨hrows, rfl⟩ := Prod.mk.inj hread
      exact assigned.1.heap.id_of_readPage hrows hr hid
  · intro page _ c e c' assigned hread
    have hc' := hstays page c assigned
    rw [hread] at hc'
    exact ⟨trivial, hc'⟩

theorem WritesNothing.admits {op : Operator String} (h : op.WritesNothing) :
    op.Admits (Origin ids) (Assigned ids P) fun _ ↦ True := by
  induction op with
  | values v => trivial
  | scan c =>
    refine ⟨fun s assigned ↦ ⟨?_, fun _ _ ↦ trivial⟩, reads_assigned c.table⟩
    exact assigned.of_alone ((ContestedHeap.closed_alone s.heap s.writes).pageCount c.table s
      ⟨assigned.1.alone, rfl, rfl⟩)
  | filter p look input ih => exact ⟨fun _ _ _ _ ↦ trivial, ih h⟩
  | modify b input ih => exact h.elim
  | aggregate spec schema groups input ih =>
    refine ⟨⟨fun _ ↦ True, ?_⟩, ih h⟩
    exact ⟨fun _ _ ↦ trivial, fun _ _ ↦ trivial, fun _ _ _ _ _ _ ↦ trivial,
      fun _ _ _ _ _ _ ↦ trivial, fun _ _ _ _ ↦ .inr trivial⟩

/-- An operator that has just been built from a plan that only reads keeps to the origins. -/
theorem build_origin {plan : Plan String} (readOnly : plan.ReadOnly) {c c' : ContestedHeap}
    {op : Operator String} (assigns : c.Assigns ids) (built : plan.build c = (.ok op, c')) :
    c'.Assigns ids ∧ op.WritesNothing ∧ op.Carries (Origin ids) := by
  induction plan generalizing op c' with
  | values schema rows =>
    rw [Plan.build] at built
    obtain ⟨hvalues, rfl⟩ := Prod.mk.inj built
    rcases hv : Values.ofRows schema rows with e | v <;> rw [hv] at hvalues <;> cases hvalues
    obtain ⟨-, rfl⟩ := Values.ofRows_eq_ok_iff.mp hv
    refine ⟨assigns, trivial, ?_⟩
    rintro r (hr | hr | hr) id hid
    · exact ⟨r, hr, id, hid, rfl⟩
    · cases hr
    · cases hr
  | scan table =>
    rw [Plan.build] at built
    split at built
    · cases built
      exact ⟨assigns, trivial, carries_closed_scan rfl rfl⟩
    · cases built
  | filter p input ih =>
    rw [Plan.build] at built
    split at built
    · next child c'' hinput =>
      cases built
      obtain ⟨assigns', writesNothing, carries⟩ := ih readOnly hinput
      exact ⟨assigns', writesNothing, Lookahead.forall_closed, carries⟩
    · cases built
  | modify change table input ih => exact readOnly.elim
  | aggregate spec input ih =>
    rw [Plan.build] at built
    split at built
    · next child c'' hinput =>
      obtain ⟨assigns', writesNothing, carries⟩ := ih readOnly hinput
      have admits : ∀ schema, spec.schema child.schema = .ok schema →
          (aggregate spec schema none child).Admits (Origin ids) (Assigned ids fun _ ↦ True)
            fun _ ↦ True :=
        fun schema _ ↦
          (show (aggregate spec schema none child).WritesNothing from writesNothing).admits
      obtain ⟨hstates, hcarries, -⟩ :=
        carries.buildAggregate kinds_origin admits (.inl fun _ ↦ trivial) ⟨assigns', trivial⟩
      have hop : (child.buildAggregate spec c'').1 = .ok op := congrArg Prod.fst built
      obtain ⟨schema, -, -, -, hbare⟩ := bare_buildAggregate hop
      rw [built] at hstates
      have writesNothing' : (aggregate spec schema none child).WritesNothing := writesNothing
      exact ⟨hstates.1, writesNothing'.of_bare_eq hbare, hcarries op hop⟩
    · cases built
  | operator op => exact readOnly.elim

theorem Carries.after {op : Operator String} (carries : op.Carries (Origin ids))
    (writesNothing : op.WritesNothing) {history : List (Request × ContestedHeap)}
    (found : ∀ call ∈ history, call.2.Assigns ids) :
    (op.after history).Carries (Origin ids) := by
  refine (after_of_serve (P := fun op : Operator String ↦
    op.WritesNothing ∧ op.Carries (Origin ids)) (Q := (ContestedHeap.Assigns · ids))
    (fun op c q hop assigns ↦ ⟨hop.1.of_bare_eq (op.bare_serve c q), ?_⟩)
    ⟨writesNothing, carries⟩ found).2
  have admits : op.Admits (Origin ids) (Assigned ids fun _ ↦ True) fun _ ↦ True := hop.1.admits
  exact (hop.2.serve kinds_origin admits .univ ⟨assigns, trivial⟩ q).node

/-! ## Deletions -/

section

variable {b : Batch String}

/-- A deletion keeps what deleting the rows keeps that its input may hand out. -/
theorem admits_deletion {input : Operator String} (delete : b.change = .delete)
    (writesNothing : input.WritesNothing)
    (keeps : ∀ r h h', input.Origin ids r → h.Assigns ids → P h → h.delete r = .ok h' → P h') :
    (modify b input).Admits (Origin ids) (Assigned ids P) fun _ ↦ True := by
  refine ⟨?_, writesNothing.admits⟩
  rw [Batch.Writes, delete]
  rintro r s origin ⟨⟨assigns, alone⟩, hP⟩
  refine ⟨?_, fun _ _ _ ↦ trivial⟩
  rcases ContestedHeap.delete_cases b.table r s with ⟨heap, deleted, hdelete⟩ | ⟨e, hdelete⟩
  · have origin' : input.Origin ids r :=
      fun id hid ↦ (draws_bare id.table input).mp (origin id hid)
    rw [hdelete]
    exact ⟨⟨(assigns.delete deleted).1, alone⟩, keeps r s.heap heap origin' assigns hP deleted⟩
  · rw [hdelete]
    exact ⟨⟨assigns, alone⟩, hP⟩

def retarget (table : String) (schema : Schema) : Operator String → Operator String
  | modify b input => modify { b with table, tableSchema := schema } input
  | op => op

variable (table : String) (schema : Schema)

/-- Deleted rows are not looked up in the table that the deletion was built for. -/
theorem forRows_retarget (delete : b.change = .delete) (input : Operator String) {α : Type}
    (visit : Visitor ContestedHeap α) (a : α) (s : ContestedHeap) :
    ((modify b input).retarget table schema).forRows visit a s
      = ((modify b input).forRows visit a s).mapNode (retarget table schema) := by
  have hwrite : ∀ s : ContestedHeap,
      writeInput { b with table, tableSchema := schema } input s = writeInput b input s := by
    intro s
    rw [writeInput, writeInput, delete]
    rfl
  rw [retarget, forRows_modify, forRows_modify]
  dsimp only
  by_cases isClosed : b.look = .closed
  · rw [isClosed]
    rfl
  · symm
    apply Lookahead.mapNode_resume isClosed
    · exact fun _ _ ↦ rfl
    · intro a s
      rw [hwrite]
      split
      · rfl
      · split <;> rfl

theorem buffer_retarget (r : Row) (op : Operator String) :
    (op.retarget table schema).buffer r = (op.buffer r).retarget table schema := by
  cases op <;> rfl

theorem serve_retarget (delete : b.change = .delete) (input : Operator String) (s : ContestedHeap)
    (q : Request) :
    ((modify b input).retarget table schema).serve s q
      = ((modify b input).serve s q).mapNode (retarget table schema) := by
  have hpull : ((modify b input).retarget table schema).pull s
      = ((modify b input).pull s).mapNode (retarget table schema) := by
    rw [Operator.pull, Operator.pull, forRows_retarget table schema delete input]
    rfl
  cases q with
  | opening =>
    rw [retarget, serve, serve, openOn, openOn]
    dsimp only
    split <;> rfl
  | hasNext =>
    rw [serve, serve, hasNext, hasNext, hpull]
    rcases (modify b input).pull s with ⟨e | _ | r, op, s'⟩
    · rfl
    · rfl
    · exact congrArg (Reply.mk _ · s') (buffer_retarget table schema r op)
  | next =>
    rw [serve, serve, next, next, hpull]
    rcases (modify b input).pull s with ⟨e | _ | r, op, s'⟩ <;> rfl
  | rewinding =>
    rw [retarget, serve, serve, rewindOn, rewindOn]
    dsimp only
    split <;> rfl
  | closing => rfl

theorem serveAll_retarget (delete : b.change = .delete) (input : Operator String)
    (s : ContestedHeap) (requests : List Request) :
    ((modify b input).retarget table schema).serveAll s requests
      = (((modify b input).serveAll s requests).1,
        ((modify b input).serveAll s requests).2.1.retarget table schema,
        ((modify b input).serveAll s requests).2.2) := by
  induction requests generalizing b input s with
  | nil => rfl
  | cons q rest ih =>
    have hserve := serve_retarget table schema delete input s q
    have hbare := (modify b input).bare_serve s q
    rw [serveAll, serveAll, hserve]
    generalize (modify b input).serve s q = reply at hbare
    obtain ⟨answer, op, s'⟩ := reply
    cases op with
    | modify b' input' =>
      obtain ⟨hb, -⟩ := Operator.modify.inj hbare
      have delete' : b'.change = .delete := (congrArg Batch.change hb).trans delete
      exact congrArg (fun last ↦ (answer :: last.1, last.2)) (ih delete' input' s')
    | values v => cases hbare
    | scan c => cases hbare
    | filter p look input' => cases hbare
    | aggregate spec schema groups input' => cases hbare

end

/-- **What a deletion spares.** Take a deletion that was built over an operator, which was itself
built from a plan that only reads and has served requests. Whatever requests the deletion serves,

* a table stays as it is unless the operator draws rows with the id of the table;
* so all tables but its own stay as they are if the operator draws rows of this table only;
* the table that the deletion was built for plays no part: a deletion that was built for another one
  over the same operator gives the same answers and leaves the same storage;
* when the requests have left it open and with its rows still to be deleted, asking it for its row
  deletes what the operator hands out, each row at the place that its record id names. -/
theorem deletion_spares_undrawn {ids : String → UInt32} {plan : Plan String}
    (readOnly : plan.ReadOnly) {c₀ c₁ c c' : ContestedHeap} {input : Operator String}
    (hinput : plan.build c₀ = (.ok input, c₁)) {before : List (Request × ContestedHeap)}
    {target : String} {op : Operator String}
    (hop : (Plan.modify .delete target (.operator (input.after before))).build c = (.ok op, c'))
    (assigns₀ : c₀.Assigns ids) (found : ∀ call ∈ before, call.2.Assigns ids)
    (assigns : c.Assigns ids) (own : c.announced = []) (requests : List Request) :
    (∀ name t, c.heap.table name = .ok t → ¬ input.Draws ids t.id →
        (op.serveAll c' requests).2.2.heap.table name = .ok t)
      ∧ ((∀ id, input.Draws ids id → id = ids target) →
          ∀ name t, name ≠ target → c.heap.table name = .ok t →
            (op.serveAll c' requests).2.2.heap.table name = .ok t)
      ∧ (∀ target' op' c'',
          (Plan.modify .delete target' (.operator (input.after before))).build c = (.ok op', c'') →
            (op'.serveAll c'' requests).1 = (op.serveAll c' requests).1
              ∧ (op'.serveAll c'' requests).2.2 = (op.serveAll c' requests).2.2)
      ∧ ∀ answers schema child s,
          op.serveAll c' requests = (answers, pending .delete target schema child, s) →
            child.DeletesHanded target schema s := by
  obtain ⟨-, writesNothing, carries⟩ := build_origin readOnly assigns₀ hinput
  have hbare := input.bare_after before
  have writesNothing' := writesNothing.of_bare_eq hbare
  have carries' := carries.after writesNothing found
  obtain ⟨built, schema, hbuilt, hschema, -, rfl⟩ := build_modify hop
  cases hbuilt
  have hrun : ∀ P : Heap → Prop, P c.heap →
      (∀ r h h', (input.after before).Origin ids r → h.Assigns ids → P h → h.delete r = .ok h' →
        P h') → Assigned ids P (Operator.serveAll
          (modify ⟨.delete, target, schema, false, .closed⟩ (input.after before)) c
          requests).2.2 := by
    intro P hP keeps
    have admits := admits_deletion (b := ⟨.delete, target, schema, false, .closed⟩) rfl
      writesNothing' keeps
    exact (Carries.serveAll kinds_origin admits ⟨nofun, carries'⟩ .univ ⟨assigns, hP⟩ requests).2.1
  have spares : ∀ name t, c.heap.table name = .ok t → ¬ input.Draws ids t.id →
      (Operator.serveAll (modify ⟨.delete, target, schema, false, .closed⟩ (input.after before)) c
        requests).2.2.heap.table name = .ok t := by
    intro name t ht hdraws
    rw [assigns.heap.id_eq name t ht, ← draws_bare, ← hbare, draws_bare] at hdraws
    refine (hrun (·.table name = .ok t) ht fun r h h' origin assigns' ht' deleted ↦ ?_).2
    rw [(assigns'.delete deleted).2 name fun id hid heq ↦ hdraws (heq ▸ origin id hid)]
    exact ht'
  refine ⟨spares, fun hown name t hne ht ↦ spares name t ht fun hdraws ↦ ?_,
    fun target' op' c'' hop' ↦ ?_, fun answers schema' child s hserved ↦ ?_⟩
  · change c.tableSchema target = .ok schema at hschema
    rw [ContestedHeap.tableSchema, own] at hschema
    obtain ⟨t', ht', -⟩ := Heap.tableSchema_eq_ok hschema
    have hid : t.id = t'.id := (hown t.id hdraws).trans (assigns.heap.id_eq target t' ht').symm
    have heq := assigns.heap.orderly.eq_of_id_eq (Heap.mem_of_table ht') (Heap.mem_of_table ht) hid
    exact hne ((Heap.name_of_table ht).symm.trans ((congrArg HeapTable.name heq).trans
      (Heap.name_of_table ht')))
  · obtain ⟨built', schema', hbuilt', -, -, rfl⟩ := build_modify hop'
    cases hbuilt'
    have hretarget := serveAll_retarget target' schema'
      (b := ⟨.delete, target, schema, false, .closed⟩) rfl (input.after before) c requests
    rw [retarget] at hretarget
    rw [hretarget]
    exact ⟨rfl, rfl⟩
  · obtain ⟨assigned, -⟩ := hrun (fun _ ↦ True) trivial fun _ _ _ _ _ _ _ ↦ trivial
    have hshape := bare_serveAll (modify ⟨.delete, target, schema, false, .closed⟩
      (input.after before)) c requests
    rw [hserved] at assigned hshape
    have hchild := (Operator.modify.inj hshape).2
    exact deletesHanded_pending target schema' (writesNothing'.of_bare_eq hchild)
      assigned.heap.orderly assigned.alone

/-- Two tables of one column of integers, with a row each. -/
def twins : ContestedHeap :=
  .ofHeap ((Heap.ofCapacity 2).run
    [.create "t" ⟨[⟨"n", .integer⟩]⟩, .create "u" ⟨[⟨"m", .integer⟩]⟩,
      .insert "t" (.ofValues [.integer 1]), .insert "u" (.ofValues [.integer 2])]).2

def twinIds (name : String) : UInt32 :=
  if name = "t" then 1 else 2

theorem assigns_twins : twins.Assigns twinIds where
  heap :=
    { reachable := ⟨2, _, rfl⟩
      few := by
        change 2 ≤ 2 ^ 32
        omega
      id_eq := by
        intro name t ht
        have hids : twins.heap.tables.map HeapTable.id
            = twins.heap.tables.map fun t ↦ twinIds t.name := rfl
        rw [← Heap.name_of_table ht]
        exact List.map_inj_left.mp hids t (Heap.mem_of_table ht) }
  alone := fun _ ↦ rfl

def scanTwin : Operator String :=
  .scan (.ofTable "u" ⟨[⟨"m", .integer⟩]⟩)

/-- The deletion from a table of what the scan of the second table hands out. -/
def deleteTwin (target : String) (column : String) : Operator String :=
  .modify ⟨.delete, target, ⟨[⟨column, .integer⟩]⟩, false, .closed⟩
    (scanTwin.after [(.opening, twins)])

/-- A deletion of what the second table holds spares the first one, and deletes what the scan hands
out, whichever table it was built for. -/
theorem deletion_spares_undrawn_twin :
    (Plan.scan "u").build twins = (.ok scanTwin, twins)
      ∧ (Plan.modify .delete "u" (.operator (scanTwin.after [(.opening, twins)]))).build twins
        = (.ok (deleteTwin "u" "m"), twins)
      ∧ ((deleteTwin "u" "m").serveAll twins [.opening, .next]).1
        = [.ok .done, .ok (.row (countRow 1))]
      ∧ (∃ t, twins.heap.table "t" = .ok t
        ∧ ((deleteTwin "u" "m").serveAll twins [.opening, .next]).2.2.heap.table "t" = .ok t)
      ∧ ∃ child s, (deleteTwin "t" "n").serveAll twins [.opening]
          = ([.ok .done], pending .delete "t" ⟨[⟨"n", .integer⟩]⟩ child, s)
        ∧ child.DeletesHanded "t" ⟨[⟨"n", .integer⟩]⟩ s := by
  have hscan : (Plan.scan "u").build twins = (.ok scanTwin, twins) := rfl
  have hdelete : (Plan.modify .delete "u" (.operator (scanTwin.after [(.opening, twins)]))).build
      twins = (.ok (deleteTwin "u" "m"), twins) := rfl
  have found : ∀ call ∈ [(Request.opening, twins)], call.2.Assigns twinIds := by
    rintro call hcall
    rw [List.mem_singleton.mp hcall]
    exact assigns_twins
  have readOnly : (Plan.scan "u").ReadOnly := trivial
  have hown := (deletion_spares_undrawn readOnly hscan hdelete assigns_twins found assigns_twins rfl
    [.opening, .next]).2.1 fun id hid ↦ hid
  have hforeign : (Plan.modify .delete "t" (.operator (scanTwin.after [(.opening, twins)]))).build
      twins = (.ok (deleteTwin "t" "n"), twins) := rfl
  have hhanded := (deletion_spares_undrawn readOnly hscan hforeign assigns_twins found assigns_twins
    rfl [.opening]).2.2.2 _ _ _ _ rfl
  exact ⟨hscan, hdelete, rfl, ⟨_, rfl, hown "t" _ (by decide) rfl⟩, _, _, rfl, hhanded⟩

/-- A deletion that was built for the first table removes the row of the second one, which its
input draws, and does not fail. -/
theorem deletion_reaches_other_table :
    (Plan.modify .delete "t" (.operator (scanTwin.after [(.opening, twins)]))).build twins
        = (.ok (deleteTwin "t" "n"), twins)
      ∧ (twins.heap.table "u").map HeapTable.rows
        = .ok [⟨[.integer 2], some ⟨2, 0, 0⟩⟩]
      ∧ ((deleteTwin "t" "n").serveAll twins [.opening, .next]).1
        = [.ok .done, .ok (.row (countRow 1))]
      ∧ (((deleteTwin "t" "n").serveAll twins [.opening, .next]).2.2.heap.table "u").map
        HeapTable.rows = .ok [] :=
  ⟨rfl, rfl, rfl, rfl⟩

end Operator

end QueryEngine
