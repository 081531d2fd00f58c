import QueryEngine.Proofs.InPlace
import QueryEngine.Proofs.Operator.Listing
import QueryEngine.Proofs.Storage.Reachable

/-!
# Conforming rows

Rows are checked in many places: where they are made from values, where they are listed in an
operator, where a table takes them. All of these checks accept the rows that conform to the schema,
and no others, whether or not a row has a record id.

## Side by side

A schema and the values of a row, or two schemas, can be compared by a walk along both. The walk
ends with the shorter one, so it only finds out whether one of them begins with the other
(`all_zip_iff_prefix`). Short rows and long rows are kept out by comparing the lengths, which every
check does as well (`sameTypes_iff`).

## One property for all

Conforming speaks of the types of a row and of nothing else. So a row that conforms still does
wherever it is kept and whatever was written over its values, since a write keeps the type of what
it overwrites (`Row.types_edits`). The rows of a schema tell in turn what the schema is, as every
schema has some (`Schema.fits_iff_forall_conforms`).
-/

namespace QueryEngine

variable {α β : Type}

/-! ## Walks side by side -/

/-- Whether two lists have one length and, side by side, members of one type. -/
def sameTypes (f : α → ColumnType) (g : β → ColumnType) (l : List α) (l' : List β) : Bool :=
  l.length == l'.length && (l.zip l').all fun p ↦ f p.1 == g p.2

section

variable {f : α → ColumnType} {g : β → ColumnType} {l : List α} {l' : List β}

/-- A walk along two lists accepts them if one begins with the types of the other. -/
theorem all_zip_iff_prefix :
    ((l.zip l').all fun p ↦ f p.1 == g p.2) = true
      ↔ l.map f <+: l'.map g ∨ l'.map g <+: l.map f := by
  induction l generalizing l' with
  | nil => simp
  | cons a l ih =>
    cases l' with
    | nil => simp
    | cons b l' =>
      rw [List.zip_cons_cons, List.all_cons, Bool.and_eq_true, beq_iff_eq, ih, List.map_cons,
        List.map_cons, List.cons_prefix_cons, List.cons_prefix_cons, eq_comm (a := g b),
        ← and_or_left]

theorem sameTypes_iff : sameTypes f g l l' = true ↔ l.map f = l'.map g := by
  rw [sameTypes, Bool.and_eq_true, beq_iff_eq, all_zip_iff_prefix]
  constructor
  · rintro ⟨hlength, hprefix⟩
    have hmap : (l.map f).length = (l'.map g).length := by simpa using hlength
    rcases hprefix with h | h
    · exact h.eq_of_length hmap
    · exact (h.eq_of_length hmap.symm).symm
  · intro h
    exact ⟨by simpa using congrArg List.length h, .inl (h ▸ List.prefix_rfl)⟩

/-- A short row stands up to the walk, but not to the check. -/
example :
    ([Value.integer 7].zip [ColumnType.integer, .text]).all (fun p ↦ p.1.type == p.2) = true
      ∧ sameTypes Value.type id [.integer 7] [.integer, .text] = false := by
  decide

end

/-! ## The rows of a schema -/

def ColumnType.sample : ColumnType → Value
  | integer => .integer 0
  | text => .text ""

theorem ColumnType.type_sample (t : ColumnType) : t.sample.type = t := by
  cases t <;> rfl

namespace Schema

variable {s t : Schema}

/-- Whether two schemas fit, found out column by column. -/
def agrees (s t : Schema) : Bool :=
  sameTypes Column.type Column.type s.columns t.columns

theorem agrees_iff : s.agrees t = true ↔ s.Fits t :=
  sameTypes_iff

def sample (s : Schema) : Row :=
  .ofValues (s.types.map ColumnType.sample)

theorem sample_conforms (s : Schema) : s.sample.Conforms s := by
  have hid : Value.type ∘ ColumnType.sample = id := funext ColumnType.type_sample
  rw [Row.Conforms, Row.types, sample, Row.ofValues, List.map_map, hid, List.map_id]

theorem fits_iff_forall_conforms : s.Fits t ↔ ∀ r : Row, r.Conforms s ↔ r.Conforms t := by
  constructor
  · intro fits r
    exact ⟨(·.of_fits fits), (·.of_fits fits.symm)⟩
  · intro same
    have hsample : s.sample.Conforms t := (same s.sample).mp s.sample_conforms
    exact s.sample_conforms.symm.trans hsample

end Schema

namespace Row

variable {s : Schema} {r : Row}

/-- Whether a row conforms to a schema, found out value by value. -/
def agrees (r : Row) (s : Schema) : Bool :=
  sameTypes Value.type Column.type r.values s.columns

theorem agrees_iff : r.agrees s = true ↔ r.Conforms s :=
  sameTypes_iff

/-- A row that is made of others conforms if its parts do, as long as it is known where the first
part ends. -/
theorem conforms_append_iff {left right : Schema} {a b : Row} (width : a.width = left.width)
    (id? : Option RecordId) :
    (Row.mk (a.values ++ b.values) id?).Conforms (left.append right)
      ↔ a.Conforms left ∧ b.Conforms right := by
  have hlength : a.types.length = left.types.length := by
    rw [length_types, Schema.length_types, width]
  rw [Conforms, types, List.map_append, ← types, ← types, Schema.types_append]
  constructor
  · intro h
    exact List.append_inj h hlength
  · rintro ⟨ha, hb⟩
    exact congrArg₂ (· ++ ·) ha hb

end Row

/-! ## Checks -/

theorem Row.exists_checked_iff {s : Schema} {r : Row} :
    (∃ made, Row.checked s r.values = .ok made) ↔ r.Conforms s := by
  constructor
  · rintro ⟨made, h⟩
    obtain ⟨rfl, conforms⟩ := Row.checked_eq_ok_iff.mp h
    exact conforms
  · intro conforms
    exact ⟨.ofValues r.values, Row.checked_eq_ok_iff.mpr ⟨rfl, conforms⟩⟩

theorem Values.exists_ofRows_iff {s : Schema} {rows : List Row} :
    (∃ v, Values.ofRows s rows = .ok v) ↔ ∀ r ∈ rows, r.Conforms s := by
  constructor
  · rintro ⟨v, h⟩
    exact (Values.ofRows_eq_ok_iff.mp h).1
  · intro conforms
    exact ⟨_, Values.ofRows_eq_ok_iff.mpr ⟨conforms, rfl⟩⟩

/-- Among rows that can be listed, a row can be listed exactly if it conforms. -/
theorem Values.exists_ofRows_insert_iff {s : Schema} {before after : List Row} {r : Row}
    (others : ∃ v, Values.ofRows s (before ++ after) = .ok v) :
    (∃ v, Values.ofRows s (before ++ r :: after) = .ok v) ↔ r.Conforms s := by
  rw [exists_ofRows_iff, List.forall_mem_append] at others
  rw [exists_ofRows_iff, List.forall_mem_append, List.forall_mem_cons]
  constructor
  · exact fun h ↦ h.2.1
  · exact fun conforms ↦ ⟨others.1, conforms, others.2⟩

theorem Heap.exists_insert_iff {h : Heap} {name : String} {t : HeapTable}
    (ht : h.table name = .ok t) {r : Row} :
    (∃ id h', h.insert name r = .ok (id, h')) ↔ r.Conforms t.schema := by
  constructor
  · rintro ⟨id, h', hinsert⟩
    obtain ⟨t', ht', conforms, -, -⟩ := insert_eq_ok_iff.mp hinsert
    obtain rfl : t' = t := Except.ok.inj (ht'.symm.trans ht)
    exact conforms
  · intro conforms
    exact ⟨_, _, insert_eq_ok_iff.mpr ⟨t, ht, conforms, rfl, rfl⟩⟩

/-! ## Edits -/

namespace Row

/-- Exchanges the value at a position in place. The old value is looked at before it is
overwritten. -/
def setInPlace (i : Nat) (v : Value) : InPlace Row Unit := do
  let r ← getThe Row
  match r.values[i]? with
  | some old =>
    v.expect old.type
    modifyThe Row fun r ↦ { r with values := r.values.set i v }
  | none => throw (.columnOutOfRange i r.width)

theorem setInPlace_outcome (r : Row) (i : Nat) (v : Value) :
    (setInPlace i v).outcome r = InPlace.allOrNothing (r.set i v) r := by
  have hrun : (setInPlace i v).outcome r
      = (match r.values[i]? with
        | some old => do
          v.expect old.type
          modifyThe Row fun r ↦ { r with values := r.values.set i v }
        | none => throw (.columnOutOfRange i r.width) : InPlace Row Unit).outcome r := rfl
  rw [hrun, set]
  cases r.values[i]? with
  | none => rfl
  | some old =>
    dsimp only
    cases v.expect old.type <;> rfl

/-- What can be done to a row that is there. -/
inductive Edit where
  /-- Another value at a position. -/
  | overwrite (i : Nat) (v : Value)
  /-- Another place in a table, or none. -/
  | place (id? : Option RecordId)
deriving DecidableEq

def edit (r : Row) : Edit → Except QueryError Unit × Row
  | .overwrite i v => (setInPlace i v).outcome r
  | .place id? => (.ok (), { r with id? })

/-- Edits a row time after time, and goes on after a refused edit. -/
def edits (r : Row) : List Edit → List (Except QueryError Unit) × Row
  | [] => ([], r)
  | change :: rest =>
    let (answer, r') := r.edit change
    let (answers, last) := r'.edits rest
    (answer :: answers, last)

theorem edit_eq_error {r : Row} {change : Edit} {e : QueryError}
    (refused : (r.edit change).1 = .error e) : (r.edit change).2 = r := by
  cases change with
  | place id? => cases refused
  | overwrite i v =>
    rw [edit, setInPlace_outcome] at refused ⊢
    cases hset : r.set i v with
    | error e' => rfl
    | ok r' =>
      rw [hset] at refused
      cases refused

theorem types_edit (r : Row) (change : Edit) : (r.edit change).2.types = r.types := by
  cases change with
  | place id? => rfl
  | overwrite i v =>
    rw [edit, setInPlace_outcome]
    cases hset : r.set i v with
    | error e => rfl
    | ok r' => exact types_of_set hset

/-- Edits, refused ones among them, keep the types of a row. -/
theorem types_edits (r : Row) (changes : List Edit) : (r.edits changes).2.types = r.types := by
  induction changes generalizing r with
  | nil => rfl
  | cons change rest ih => exact (ih (r.edit change).2).trans (r.types_edit change)

end Row

/-! ## Agreement -/

/-- **All checks of a row are one check.** Of a row and a schema, all of these are true or none is:
the row conforms, a walk along both finds no difference, the row can be made from its values, it can
be listed among rows that can be listed, and a table whose schema fits takes it. Two schemas fit
exactly if the same rows conform to both, which a walk along both finds out as well. A row that
conforms still does after any edits, and a refused edit leaves a row as it was. A row that is made
of two others conforms to the columns of two schemas exactly if each of the two conforms to its own,
provided that the first row is as wide as the first schema. -/
theorem row_checks_agree :
    (∀ (s : Schema) (r : Row),
      (r.agrees s = true ↔ r.Conforms s)
        ∧ ((∃ made, Row.checked s r.values = .ok made) ↔ r.Conforms s)
        ∧ (∀ before after, (∃ v, Values.ofRows s (before ++ after) = .ok v) →
          ((∃ v, Values.ofRows s (before ++ r :: after) = .ok v) ↔ r.Conforms s))
        ∧ ∀ (h : Heap) (name : String) (t : HeapTable), h.table name = .ok t → t.schema.Fits s →
          ((∃ id h', h.insert name r = .ok (id, h')) ↔ r.Conforms s))
      ∧ (∀ s t : Schema, (s.agrees t = true ↔ s.Fits t)
        ∧ (s.Fits t ↔ ∀ r : Row, r.Conforms s ↔ r.Conforms t))
      ∧ (∀ (s : Schema) (r : Row) (changes : List Row.Edit), r.Conforms s →
        (r.edits changes).2.Conforms s)
      ∧ (∀ (r : Row) (change : Row.Edit) (e : QueryError), (r.edit change).1 = .error e →
        (r.edit change).2 = r)
      ∧ ∀ (left right : Schema) (a b : Row) (id? : Option RecordId), a.width = left.width →
        ((Row.mk (a.values ++ b.values) id?).Conforms (left.append right)
          ↔ a.Conforms left ∧ b.Conforms right) := by
  refine ⟨fun s r ↦ ⟨Row.agrees_iff, Row.exists_checked_iff, ?_, ?_⟩, ?_, ?_, ?_, ?_⟩
  · exact fun before after others ↦ Values.exists_ofRows_insert_iff others
  · intro h name t ht fits
    rw [Heap.exists_insert_iff ht]
    exact Schema.fits_iff_forall_conforms.mp fits r
  · exact fun s t ↦ ⟨Schema.agrees_iff, Schema.fits_iff_forall_conforms⟩
  · exact fun s r changes conforms ↦ (r.types_edits changes).trans conforms
  · exact fun r change e refused ↦ Row.edit_eq_error refused
  · exact fun left right a b id? width ↦ Row.conforms_append_iff width id?

def namedNumbers : Schema := ⟨[⟨"n", .integer⟩, ⟨"name", .text⟩]⟩

/-- The heap with one table of such numbers, whose columns have names of their own. -/
def namedNumbersHeap : Heap :=
  ((Heap.ofCapacity 2).run [.create "t" ⟨[⟨"k", .integer⟩, ⟨"", .text⟩]⟩]).2

/-- A text for the number, a third value, no place, and another name. -/
def fourEdits : List Row.Edit :=
  [.overwrite 0 (.text "b"), .overwrite 2 (.integer 1), .place none, .overwrite 1 (.text "b")]

/-- A row out of another table is listed between two others and taken by a table, it conforms after
edits of which two were refused, and it may be made of two rows. Without its name it is refused. -/
theorem row_checks_agree_renamed :
    (∃ made, Row.checked namedNumbers [.integer 7, .text "a"] = .ok made)
      ∧ (∃ v, Values.ofRows namedNumbers
        [.ofValues [.integer 1, .text ""], ⟨[.integer 7, .text "a"], some ⟨9, 0, 0⟩⟩,
          .ofValues [.integer 2, .text ""]] = .ok v)
      ∧ (∃ id h', namedNumbersHeap.insert "t" ⟨[.integer 7, .text "a"], some ⟨9, 0, 0⟩⟩
        = .ok (id, h'))
      ∧ (¬ ∃ id h', namedNumbersHeap.insert "t" ⟨[.integer 7], some ⟨9, 0, 0⟩⟩ = .ok (id, h'))
      ∧ (Row.edits ⟨[.integer 7, .text "a"], some ⟨9, 0, 0⟩⟩ fourEdits).1
        = [.error (.typeMismatch .integer .text), .error (.columnOutOfRange 2 2), .ok (), .ok ()]
      ∧ (Row.edits ⟨[.integer 7, .text "a"], some ⟨9, 0, 0⟩⟩ fourEdits).2.Conforms namedNumbers
      ∧ (Row.edit (.ofValues [.integer 7, .text "a"]) (.overwrite 0 (.text "b"))).2
        = .ofValues [.integer 7, .text "a"]
      ∧ (Row.mk ([.integer 7] ++ [.text "a"]) none).Conforms
        ((Schema.ofPairs [("n", .integer)]).append (.ofPairs [("name", .text)])) := by
  obtain ⟨checks, -, edits, refused, append⟩ := row_checks_agree
  have conforms : (Row.mk [.integer 7, .text "a"] (some ⟨9, 0, 0⟩)).Conforms namedNumbers := rfl
  have short : ¬ (Row.mk [.integer 7] (some ⟨9, 0, 0⟩)).Conforms namedNumbers := by decide
  obtain ⟨-, made, listed, taken⟩ := checks namedNumbers ⟨[.integer 7, .text "a"], some ⟨9, 0, 0⟩⟩
  obtain ⟨-, -, -, shortTaken⟩ := checks namedNumbers ⟨[.integer 7], some ⟨9, 0, 0⟩⟩
  refine ⟨made.mpr conforms, ?_, ?_, ?_, by decide, edits _ _ _ conforms, ?_, ?_⟩
  · exact (listed [.ofValues [.integer 1, .text ""]] [.ofValues [.integer 2, .text ""]]
      ⟨_, rfl⟩).mpr conforms
  · exact (taken namedNumbersHeap "t" _ rfl rfl).mpr conforms
  · exact mt (shortTaken namedNumbersHeap "t" _ rfl rfl).mp short
  · exact refused _ _ (.typeMismatch .integer .text) rfl
  · exact (append (.ofPairs [("n", .integer)]) (.ofPairs [("name", .text)])
      (.ofValues [.integer 7]) (.ofValues [.text "a"]) none rfl).mpr ⟨rfl, rfl⟩

end QueryEngine
