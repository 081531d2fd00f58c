import QueryEngine.Error

/-!
# Access by position

Fields and columns are addressed by position, and every access checks that the position exists.
Overwriting a field keeps the width of the row, the type of the field and the place of the row, so
that a row which conforms to a schema still does (`set_conforms`).

`Row.checked` makes a row out of values that come from outside. It tells a wrong width from a wrong
type and looks at the types from left to right; it accepts exactly the rows that conform
(`checked_eq_ok_iff`).
-/

namespace QueryEngine

def Schema.column (s : Schema) (i : Nat) : Except QueryError Column :=
  match s.columns[i]? with
  | some c => .ok c
  | none => .error (.columnOutOfRange i s.width)

def Schema.columnType (s : Schema) (i : Nat) : Except QueryError ColumnType :=
  (s.column i).map Column.type

def Schema.columnName (s : Schema) (i : Nat) : Except QueryError String :=
  (s.column i).map Column.name

/-- Accepts a value that has the expected type. -/
def Value.expect (v : Value) (expected : ColumnType) : Except QueryError Unit :=
  if v.type = expected then .ok () else .error (.typeMismatch expected v.type)

theorem Value.expect_eq_ok_iff {v : Value} {expected : ColumnType} :
    v.expect expected = .ok () ↔ v.type = expected := by
  rw [Value.expect]
  split <;> simp [*]

namespace Row

/-- The value at a position. -/
def get (r : Row) (i : Nat) : Except QueryError Value :=
  match r.values[i]? with
  | some v => .ok v
  | none => .error (.columnOutOfRange i r.width)

/-- The row with the value at a position exchanged for another one of the same type. -/
def set (r : Row) (i : Nat) (v : Value) : Except QueryError Row :=
  match r.values[i]? with
  | some old => (v.expect old.type).map fun _ ↦ { r with values := r.values.set i v }
  | none => .error (.columnOutOfRange i r.width)

/-- Accepts values whose types are the expected ones, as far as both lists go. -/
def expectAll : List Value → List ColumnType → Except QueryError Unit
  | v :: values, t :: types =>
    match v.expect t with
    | .ok () => expectAll values types
    | .error e => .error e
  | _, _ => .ok ()

/-- The row of the given values, if it conforms to the schema. -/
def checked (s : Schema) (values : List Value) : Except QueryError Row :=
  if values.length = s.width then (expectAll values s.types).map fun _ ↦ ofValues values
  else .error (.widthMismatch values.length s.width)

theorem expectAll_eq_ok_iff {values : List Value} {types : List ColumnType}
    (h : values.length = types.length) :
    expectAll values types = .ok () ↔ values.map Value.type = types := by
  induction values generalizing types with
  | nil =>
    cases types with
    | nil => simp [expectAll]
    | cons t types => simp at h
  | cons v values ih =>
    cases types with
    | nil => simp at h
    | cons t types =>
      rw [expectAll, Value.expect, List.map_cons, List.cons.injEq]
      by_cases hv : v.type = t
      · simpa [hv] using ih (by simpa using h)
      · simp [hv]

/-- The values are accepted exactly if the row they make conforms to the schema. -/
theorem checked_eq_ok_iff {s : Schema} {values : List Value} {r : Row} :
    checked s values = .ok r ↔ r = ofValues values ∧ r.Conforms s := by
  rw [checked]
  split
  · next h =>
    have key : expectAll values s.types = .ok () ↔ values.map Value.type = s.types :=
      expectAll_eq_ok_iff (by rw [h, s.length_types])
    cases hx : expectAll values s.types with
    | ok u =>
      simp only [Except.map, Except.ok.injEq]
      constructor
      · rintro rfl
        exact ⟨rfl, key.mp hx⟩
      · exact fun h' ↦ h'.1.symm
    | error e =>
      simp only [Except.map, reduceCtorEq, false_iff, not_and]
      rintro rfl conforms
      rw [key.mpr conforms] at hx
      cases hx
  · next h =>
    simp only [reduceCtorEq, false_iff, not_and]
    rintro rfl conforms
    exact h conforms.width_eq

/-- Overwriting a field keeps the types of the row. -/
theorem types_of_set {r r' : Row} {i : Nat} {v : Value} (h : r.set i v = .ok r') :
    r'.types = r.types := by
  rw [set] at h
  split at h
  · next old hold =>
    rw [Value.expect] at h
    split at h
    · next hv =>
      cases h
      apply List.ext_getElem?
      intro j
      simp only [types, List.getElem?_map, List.getElem?_set]
      split
      · next hij =>
        subst hij
        split
        · simp [hold, hv]
        · next hlt => simp [List.getElem?_eq_none (Nat.le_of_not_lt hlt)]
      · rfl
    · cases h
  · cases h

theorem set_conforms {r r' : Row} {i : Nat} {v : Value} {s : Schema} (h : r.set i v = .ok r')
    (conforms : r.Conforms s) : r'.Conforms s :=
  (types_of_set h).trans conforms

end Row

end QueryEngine
