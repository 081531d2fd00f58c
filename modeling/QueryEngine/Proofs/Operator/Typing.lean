import QueryEngine.Proofs.Operator.Kinds
import QueryEngine.Proofs.Operator.ReadOnly
import QueryEngine.Proofs.Storage.Catalog

/-!
# Types

What an operator hands out conforms to its schema, whatever it has been through, and however the
storage was written to in between, as long as the storage keeps to one catalog of schemas
(`Operator.type_soundness`). If moreover the predicates of all filters suit the schemas of their
inputs, nothing fails for the types of rows, but for aggregations that were given columns there are
not, or text to compute with (`Aggregation.Misfits`).

## Building an aggregation

An aggregation opens its input when it is built. An input that is open is left alone by that, and
so the aggregation cannot be built if something below its input is closed. This is possible only
after an opening that has failed: in a tree in order (`Operator.InOrder`), it does not happen.
-/

namespace QueryEngine

/-! ## Failures -/

/-- Whether a failure has to do neither with types nor with the lifecycle: a sum has left its range,
or the storage has refused a call, and no write for the types of the row. -/
def QueryError.Untyped : QueryError → Prop
  | .numericOverflow | .storage _ => True
  | .modificationFailed _ cause => ¬ cause.IsTyping
  | _ => False

namespace Aggregation

/-- The failure of an aggregation that cannot be computed over rows of the schema: a column is not
there, or it holds text that the function has no use for. -/
def Misfits (a : Aggregation) (input : Schema) (e : QueryError) : Prop :=
  (∃ i, (i = a.field ∨ a.group? = some i) ∧ input.width ≤ i
      ∧ e = .columnOutOfRange i input.width)
    ∨ ∃ c, input.columns[a.field]? = some c ∧ c.type = .text ∧ a.function ≠ .count
      ∧ e = .textColumn a.function c.name

variable {a : Aggregation} {input output : Schema} {e : QueryError}

private theorem column_eq_error {i : Nat} (h : input.column i = .error e) :
    input.width ≤ i ∧ e = .columnOutOfRange i input.width := by
  rw [Schema.column] at h
  split at h
  · cases h
  · next hnone =>
    cases h
    exact ⟨List.getElem?_eq_none_iff.mp hnone, rfl⟩

private theorem column_eq_ok {i : Nat} {c : Column} (h : input.column i = .ok c) :
    input.columns[i]? = some c := by
  rw [Schema.column] at h
  split at h
  · next hc =>
    cases h
    exact hc
  · cases h

private theorem misfits_of_column {i : Nat} (hi : i = a.field ∨ a.group? = some i)
    (h : input.column i = .error e) : a.Misfits input e :=
  .inl ⟨i, hi, column_eq_error h⟩

theorem misfits_of_schema (h : a.schema input = .error e) : a.Misfits input e := by
  rw [schema, Schema.columnName] at h
  rcases hfield : input.column a.field with e' | c
  · rw [hfield] at h
    cases h
    exact misfits_of_column (.inl rfl) hfield
  · rw [hfield] at h
    dsimp only [Except.map] at h
    cases hgroup : a.group? with
    | none =>
      rw [hgroup] at h
      cases h
    | some i =>
      rw [hgroup] at h
      dsimp only at h
      rcases hcolumn : input.column i with e' | c' <;> rw [hcolumn] at h <;> cases h
      exact misfits_of_column (.inr hgroup) hcolumn

theorem misfits_of_ofSchema (h : Grouping.ofSchema input a = .error e) : a.Misfits input e := by
  rw [Grouping.ofSchema] at h
  rcases hfield : input.column a.field with e' | c
  · rw [hfield] at h
    cases h
    exact misfits_of_column (.inl rfl) hfield
  · rw [hfield] at h
    dsimp only at h
    split at h
    · next htext =>
      cases h
      exact .inr ⟨c, column_eq_ok hfield, htext.1, htext.2, rfl⟩
    · cases hgroup : a.group? with
      | none =>
        rw [hgroup] at h
        cases h
      | some i =>
        rw [hgroup] at h
        dsimp only [Schema.columnType] at h
        rcases hcolumn : input.column i with e' | c' <;> rw [hcolumn] at h <;> cases h
        exact misfits_of_column (.inr hgroup) hcolumn

theorem handles_of_schema {fails : QueryError → Prop} (hschema : a.schema input = .ok output)
    (misfits : ∀ e, Grouping.ofSchema input a = .error e → fails e)
    (overflow : fails .numericOverflow) :
    a.Handles input output (·.Conforms input) fails fun g ↦ ∃ rows, g.Holds a input rows where
  start _ hg := ⟨[], Grouping.holds_of_ofSchema hg⟩
  start_error := misfits
  merge g r g' holds conforms hmerge :=
    holds.imp' (· ++ [r]) fun _ holds ↦ holds.merge (Reads.of_conforms conforms) hmerge
  merge_error g r e holds conforms hmerge := by
    obtain ⟨rows, holds⟩ := holds
    obtain ⟨rfl, -⟩ := (holds.merge_eq_error_iff (Reads.of_conforms conforms) e).mp hmerge
    exact overflow
  results g r holds hr := by
    obtain ⟨rows, holds⟩ := holds
    exact .inl (holds.conforms_of_mem_results hschema hr)

end Aggregation

namespace Operator

/-! ## The invariant -/

def Typed {τ : Type} (op : Operator τ) (r : Row) : Prop :=
  r.Conforms op.schema

theorem typed_bare {τ : Type} (op : Operator τ) : op.bare.Typed = op.Typed := by
  funext r
  rw [Typed, Typed, schema_bare]

theorem kinds_typed {τ : Type} : Kinds (Typed (τ := τ)) where
  filter _ _ _ conforms := conforms
  count b _ n := by
    obtain ⟨change, table, schema, done, look⟩ := b
    cases change <;> rfl
  group _ _ _ _ conforms _ := conforms

/-- The schemas of the tree are those of the catalog, and its aggregations can be computed. -/
def Catalogued (catalog : String → Schema) : Operator String → Prop
  | values _ => True
  | scan c => c.schema = catalog c.table
  | filter _ _ input => input.Catalogued catalog
  | modify b input => input.schema.Fits (catalog b.table) ∧ input.Catalogued catalog
  | aggregate spec schema _ input =>
    spec.schema input.schema = .ok schema ∧ (∃ g, Grouping.ofSchema input.schema spec = .ok g)
      ∧ input.Catalogued catalog

variable {catalog : String → Schema} {op input : Operator String}

theorem catalogued_bare (op : Operator String) :
    op.bare.Catalogued catalog ↔ op.Catalogued catalog := by
  induction op with
  | values v => rfl
  | scan c => rfl
  | filter p look input ih => exact ih
  | modify b input ih => rw [bare, Catalogued, Catalogued, schema_bare, ih]
  | aggregate spec schema groups input ih =>
    rw [bare, Catalogued, Catalogued, schema_bare, ih]

theorem Catalogued.of_bare_eq {op' : Operator String} (catalogued : op.Catalogued catalog)
    (h : op'.bare = op.bare) : op'.Catalogued catalog := by
  rwa [← catalogued_bare, h, catalogued_bare]

/-- The failures that no types prevent are of the given sort. -/
def AllowsUntyped (fails : QueryError → Prop) : Prop :=
  ∀ e : QueryError, e.Untyped → fails e

variable {fails : QueryError → Prop}

private theorem reads_typed (untyped : AllowsUntyped fails) {c : Scan String}
    (hschema : c.schema = catalog c.table) :
    Reads c.table (scan c).Typed (fun _ : Unit ↦ (ContestedHeap.Offers · catalog))
      (FailsWithin fails (ContestedHeap.Offers · catalog)) where
  served page _ s rows s' offers hread := by
    obtain ⟨offers', conforms⟩ := offers.readPage c.table page
    rw [hread] at offers' conforms
    refine ⟨offers', fun r hr ↦ ?_⟩
    change r.Conforms c.schema
    rw [hschema]
    exact conforms rows rfl r hr
  refused page _ s e s' offers hread := by
    obtain ⟨offers', -⟩ := offers.readPage c.table page
    rw [hread] at offers'
    exact ⟨untyped _ trivial, offers'⟩

private theorem writes_typed (untyped : AllowsUntyped fails) {b : Batch String}
    (fits : input.schema.Fits (catalog b.table)) :
    b.Writes input.bare.Typed (ContestedHeap.Offers · catalog) fails := by
  rw [typed_bare, Batch.Writes]
  cases b.change with
  | insert =>
    intro r s conforms offers
    obtain ⟨offers', hrefused⟩ := offers.insert (Row.Conforms.of_fits conforms fits)
    exact ⟨offers', fun e n he ↦ untyped _ (hrefused e he)⟩
  | delete =>
    intro r s _ offers
    obtain ⟨offers', hrefused⟩ := offers.delete b.table r
    exact ⟨offers', fun e n he ↦ untyped _ (hrefused e he)⟩

/-- An aggregation fails only as its input does, for a sum, or for not having been computable. -/
private theorem admits_aggregate {states : ContestedHeap → Prop} (untyped : AllowsUntyped fails)
    {spec : Aggregation} {schema : Schema} (hschema : spec.schema input.schema = .ok schema)
    (misfits : ∀ e, Grouping.ofSchema input.schema spec = .error e → fails e)
    (groups : Option Values) (admits : input.Admits Typed states fails) :
    (aggregate spec schema groups input).Admits Typed states fails := by
  refine ⟨⟨fun g ↦ ∃ rows, g.Holds spec input.schema rows, ?_⟩, admits⟩
  rw [typed_bare]
  exact Aggregation.handles_of_schema hschema misfits (untyped _ trivial)

/-- On a storage that keeps to the catalog nothing leads out of the types, and the failures are of
the given sort if the predicates suit their schemas, or if all failures are. -/
theorem Catalogued.admits (catalogued : op.Catalogued catalog) (untyped : AllowsUntyped fails)
    (typed : op.WellTyped ∨ ∀ e, fails e) :
    op.Admits Typed (ContestedHeap.Offers · catalog) fails := by
  induction op with
  | values v => trivial
  | scan c =>
    exact ⟨fun s offers ↦ ⟨offers.pageCount c.table, fun e _ ↦ untyped _ trivial⟩,
      reads_typed untyped catalogued⟩
  | filter p look input ih =>
    refine ⟨fun r e conforms herror ↦ ?_, ih catalogued (typed.imp_left And.right)⟩
    rcases typed with typed | all
    · rw [typed_bare] at conforms
      obtain ⟨b, hb⟩ := typed.1.evaluates conforms
      rw [herror] at hb
      cases hb
    · exact all e
  | modify b input ih => exact ⟨writes_typed untyped catalogued.1, ih catalogued.2 typed⟩
  | aggregate spec schema groups input ih =>
    obtain ⟨hschema, ⟨g, hg⟩, catalogued⟩ := catalogued
    refine admits_aggregate untyped hschema (fun e he ↦ ?_) groups (ih catalogued typed)
    rw [hg] at he
    cases he

/-! ## Operators that can arise -/

/-- The operators that can arise over storages that keep to a catalog: they are built, serve
requests, and have inputs, each at a storage of its own. -/
inductive Arises (catalog : String → Schema) : Operator String → Prop
  | values {schema : Schema} {rows : List Row} {v : Values} :
    Values.ofRows schema rows = .ok v → Arises catalog (values v)
  | scan {c : ContestedHeap} {table : String} {schema : Schema} :
    c.Offers catalog → Storage.tableSchema c table = .ok schema →
      Arises catalog (scan (.ofTable table schema))
  | filter (p : Predicate) {input : Operator String} :
    Arises catalog input → Arises catalog (filter p .closed input)
  | modify {c : ContestedHeap} {change : Modification} {table : String}
    {input op : Operator String} :
    Arises catalog input → c.Offers catalog → input.buildModify change table c = .ok op →
      Arises catalog op
  | aggregate {c : ContestedHeap} {spec : Aggregation} {input op : Operator String} :
    Arises catalog input → c.Offers catalog → (input.buildAggregate spec c).1 = .ok op →
      Arises catalog op
  | serve {c : ContestedHeap} {op : Operator String} (q : Request) :
    Arises catalog op → c.Offers catalog → Arises catalog (op.serve c q).node
  | input {op input : Operator String} :
    Arises catalog op → input ∈ op.children → Arises catalog input

/-- The schemas are those of the catalog, and the rows in hand conform to them. -/
theorem Arises.carries (arises : op.Arises catalog) :
    op.Catalogued catalog ∧ op.Carries Typed := by
  have untyped : AllowsUntyped fun _ ↦ True := fun _ _ ↦ trivial
  induction arises with
  | values h =>
    obtain ⟨hconforms, rfl⟩ := Values.ofRows_eq_ok_iff.mp h
    refine ⟨trivial, ?_⟩
    rintro r (hr | hr | hr)
    · exact hconforms r hr
    · cases hr
    · cases hr
  | scan offers hschema => exact ⟨offers.tableSchema hschema, carries_closed_scan rfl rfl⟩
  | filter p _ ih => exact ⟨ih.1, Lookahead.forall_closed, ih.2⟩
  | modify _ offers built ih =>
    rw [buildModify] at built
    split at built
    · cases built
    · next schema hschema =>
      rw [checkInput] at built
      split at built
      · next fits =>
        cases built
        exact ⟨⟨offers.tableSchema hschema ▸ fits, ih.1⟩, Lookahead.forall_closed, ih.2⟩
      · cases built
  | aggregate _ offers built ih =>
    next c spec input op _ =>
    obtain ⟨schema, g, hschema, hg, hbare⟩ := bare_buildAggregate built
    have catalogued : (Operator.aggregate spec schema none input).Catalogued catalog :=
      ⟨hschema, ⟨g, hg⟩, ih.1⟩
    have admits := ih.1.admits untyped (.inr fun _ ↦ trivial)
    exact ⟨catalogued.of_bare_eq hbare, (ih.2.buildAggregate kinds_typed
      (fun _ hschema ↦ admits_aggregate untyped hschema (fun _ _ ↦ trivial) none admits)
      (.inl fun _ ↦ trivial) offers).2.1 op built⟩
  | serve q _ offers ih =>
    have admits := ih.1.admits untyped (.inr fun _ ↦ trivial)
    exact ⟨ih.1.of_bare_eq (bare_serve _ _ q),
      (ih.2.serve kinds_typed admits .univ offers q).node⟩
  | input _ hinput ih =>
    next op input _ =>
    cases op with
    | values v => cases hinput
    | scan c => cases hinput
    | filter p look child => exact List.mem_singleton.mp hinput ▸ ⟨ih.1, ih.2.2⟩
    | modify b child => exact List.mem_singleton.mp hinput ▸ ⟨ih.1.2, ih.2.2⟩
    | aggregate spec schema groups child =>
      exact List.mem_singleton.mp hinput ▸ ⟨ih.1.2.2, ih.2.2⟩

/-- How an aggregation over an operator may fail to be built: it misfits the schema, something fails
that has nothing to do with types, or the tree is not in order. -/
def RefusesAggregation (op : Operator String) (spec : Aggregation) (e : QueryError) : Prop :=
  spec.Misfits op.schema e ∨ e.Untyped ∨ ¬ op.InOrder ∧ ∃ label, e = .notOpen label

/-- **Type soundness.** Take an operator that has arisen over storages which keep to one catalog of
schemas, and another such storage.

* Only rows that conform to its schema get to a visitor, and are handed out by a request.
* If the predicates of its filters suit their schemas, a request fails only for the lifecycle, for a
  sum, or because the storage refuses a call, but not for the types of a row to be written.
* An aggregation over it fails for the same reasons, or because it misfits the schema. It fails for
  the lifecycle only if the tree is not in order.
* Closing brings a tree in order, and building and all requests keep it so, except for openings that
  fail. -/
theorem type_soundness (arises : op.Arises catalog) {c : ContestedHeap}
    (offers : c.Offers catalog) :
    (op.Yields (·.Conforms op.schema) (fun _ ↦ True) (ContestedHeap.Offers · catalog) fun _ ↦ True)
      ∧ (∀ q r, (op.serve c q).answer = .ok (.row r) → r.Conforms op.schema)
      ∧ (op.WellTyped →
          (∀ q e, (op.serve c q).answer = .error e → e.kind = .illegalState ∨ e.Untyped)
          ∧ ∀ spec e, (op.buildAggregate spec c).1 = .error e → op.RefusesAggregation spec e)
      ∧ op.KeepsOrder c := by
  obtain ⟨catalogued, carries⟩ := arises.carries
  have anything : AllowsUntyped fun _ ↦ True := fun _ _ ↦ trivial
  have admits := catalogued.admits anything (.inr fun _ ↦ trivial)
  refine ⟨?_, fun q r hr ↦ ?_, fun typed ↦ ⟨fun q e he ↦ ?_, fun spec e he ↦ ?_⟩,
    op.keepsOrder c⟩
  · intro α visit good a s upholds ha hs
    have hyields := carries.yields kinds_typed admits (.inl fun _ ↦ trivial) α visit good a s
      (typed_bare op ▸ upholds) ha hs
    exact ⟨trivial, hyields.ends⟩
  · have hrow := (carries.serve kinds_typed admits .univ offers q).answer _ hr r rfl
    rwa [typed_bare] at hrow
  · have untyped : AllowsUntyped fun e ↦ e.kind = .illegalState ∨ e.Untyped := fun _ ↦ .inr
    have admits := catalogued.admits untyped (.inl typed)
    have usual : Usual fun e ↦ e.kind = .illegalState ∨ e.Untyped :=
      ⟨fun _ ↦ .inl rfl, fun _ ↦ .inl rfl⟩
    exact (carries.serve kinds_typed admits usual offers q).error e he
  · have untyped : AllowsUntyped (op.RefusesAggregation spec) := fun _ ↦ .inr ∘ .inl
    have runs : (∀ label, op.RefusesAggregation spec (.notOpen label)) ∨ op.InOrder := by
      by_cases order : op.InOrder
      · exact .inr order
      · exact .inl fun label ↦ .inr (.inr ⟨order, label, rfl⟩)
    have admits := catalogued.admits untyped (.inl typed)
    have hbuild := carries.buildAggregate kinds_typed
      (fun _ hschema ↦ admits_aggregate untyped hschema
        (fun _ he ↦ .inl (Aggregation.misfits_of_ofSchema he)) none admits) runs offers
    exact (hbuild.2.2 e he).elim (.inl ∘ Aggregation.misfits_of_schema) id

def greatest (others : List Int64) : ContestedHeap :=
  .ofHeap ((Heap.ofCapacity 2).run (.create "t" ⟨[⟨"n", .integer⟩]⟩
    :: (Int64.maxValue :: others).map fun n ↦ .insert "t" (.ofValues [.integer n]))).2

theorem offers_greatest (others : List Int64) :
    (greatest others).Offers fun _ ↦ ⟨[⟨"n", .integer⟩]⟩ where
  heap := by
    refine (Heap.offers_ofCapacity 2 _).run fun name schema hc ↦ ?_
    simp only [List.mem_cons, Heap.Call.create.injEq, List.mem_map, reduceCtorEq, and_false,
      exists_false, or_false] at hc
    exact hc.2
  own := rfl
  untyped := nofun

def total : Aggregation := ⟨.sum, 0, none⟩

/-- The total, as it is built over the largest number alone. -/
def builtTotal : Operator String :=
  .aggregate total ⟨[⟨"SUM(n)", .integer⟩]⟩
    (some ⟨⟨[⟨"SUM(n)", .integer⟩]⟩, [.ofValues [.integer Int64.maxValue]], [], .closed⟩)
    (.scan ⟨"t", ⟨[⟨"n", .integer⟩]⟩, 1, 1, [], .closed⟩)

/-- The total, if it is not negative. -/
def checkedTotal : Operator String :=
  .filter ⟨0, .ge, .integer 0⟩ .closed builtTotal

theorem arises_checkedTotal : checkedTotal.Arises fun _ ↦ ⟨[⟨"n", .integer⟩]⟩ := by
  have hscan : (scan (.ofTable "t" ⟨[⟨"n", .integer⟩]⟩)).Arises fun _ ↦ ⟨[⟨"n", .integer⟩]⟩ :=
    .scan (offers_greatest []) rfl
  have hbuild : ((scan (.ofTable "t" ⟨[⟨"n", .integer⟩]⟩)).buildAggregate total (greatest [])).1
      = .ok builtTotal := rfl
  exact .filter _ (.aggregate hscan (offers_greatest []) hbuild)

/-- The total is closed, and opened again over a table where it leaves the range of integers. -/
def overflown : Operator String :=
  ((checkedTotal.serve (greatest []) .closing).node.serve (greatest [1]) .opening).node

theorem arises_overflown : overflown.Arises fun _ ↦ ⟨[⟨"n", .integer⟩]⟩ :=
  .serve .opening (.serve .closing arises_checkedTotal (offers_greatest [])) (offers_greatest [1])

/-- The total that is handed out is a row of one integer, and counting the totals fails for no
other reasons than the total does. -/
theorem type_soundness_checked_total :
    checkedTotal.close.Arises (fun _ ↦ ⟨[⟨"n", .integer⟩]⟩)
      ∧ (greatest []).Offers (fun _ ↦ ⟨[⟨"n", .integer⟩]⟩)
      ∧ ((checkedTotal.serve (greatest []) .opening).node.serve (greatest []) .next).answer
        = .ok (.row (.ofValues [.integer Int64.maxValue]))
      ∧ (Row.ofValues [.integer Int64.maxValue]).Conforms ⟨[⟨"SUM(n)", .integer⟩]⟩
      ∧ checkedTotal.close.WellTyped
      ∧ (checkedTotal.close.buildAggregate ⟨.count, 0, none⟩ (greatest [1])).1
        = .error .numericOverflow
      ∧ QueryError.numericOverflow.Untyped := by
  have offers := offers_greatest []
  have hclosed : checkedTotal.close.Arises fun _ ↦ ⟨[⟨"n", .integer⟩]⟩ :=
    .serve .closing arises_checkedTotal offers
  have hrow : ((checkedTotal.serve (greatest []) .opening).node.serve (greatest []) .next).answer
      = .ok (.row (.ofValues [.integer Int64.maxValue])) := rfl
  have hopened := arises_checkedTotal.serve .opening offers
  have hconforms := (type_soundness hopened offers).2.1 _ _ hrow
  have htyped : checkedTotal.close.WellTyped := ⟨rfl, trivial⟩
  have hcount : (checkedTotal.close.buildAggregate ⟨.count, 0, none⟩ (greatest [1])).1
      = .error .numericOverflow := rfl
  have hfails := ((type_soundness hclosed (offers_greatest [1])).2.2.1 htyped).2 _ _ hcount
  refine ⟨hclosed, offers, hrow, hconforms, htyped, hcount, ?_⟩
  rcases hfails with (⟨_, _, _, h⟩ | ⟨_, _, _, _, h⟩) | untyped | ⟨_, _, h⟩
  · cases h
  · cases h
  · exact untyped
  · cases h

/-- After an opening that failed, an aggregation over the filter cannot be built, as the input of
the filter is closed. -/
theorem overflown_refuses_aggregation :
    overflown.Arises (fun _ ↦ ⟨[⟨"n", .integer⟩]⟩)
      ∧ (greatest [1]).Offers (fun _ ↦ ⟨[⟨"n", .integer⟩]⟩) ∧ overflown.WellTyped
      ∧ (overflown.buildAggregate ⟨.count, 0, none⟩ (greatest [1])).1
        = .error (.notOpen "Aggregate") :=
  ⟨arises_overflown, offers_greatest [1], ⟨rfl, trivial⟩, rfl⟩

end Operator

end QueryEngine
