import QueryEngine.Aggregate.Function
import QueryEngine.Row

/-!
# What can go wrong

Failures are values that hold their cause. `StorageError` is what a storage answers when it does not
do what it was asked to, and `QueryError` what a query answers. Each has a kind, which is the part
that a caller branches on, and a message for people.

Several causes share a kind: a row of the wrong width and an input of the wrong schema are both a
schema mismatch.
-/

namespace QueryEngine

/-! ## Failures of a storage -/

/-- The reason why a storage refused a call. -/
inductive StorageError where
  /-- No table has this name. -/
  | tableNotFound (table : String)
  /-- No table has this id. -/
  | unknownTableId (id : UInt32)
  /-- A table of this name is there already. -/
  | tableExists (table : String)
  /-- No row is kept at this place, or no longer. -/
  | recordNotFound (id : RecordId)
  /-- The row to delete does not say where it is kept. -/
  | missingRecordId
  /-- The table has fewer pages. -/
  | pageOutOfRange (page : UInt32) (count : Nat)
  /-- The row to insert does not conform to the schema of the table. -/
  | schemaViolation (row : Row) (schema : Schema)
  /-- The storage did not serve the call. -/
  | unavailable (reason : String)
deriving DecidableEq

def StorageError.message : StorageError → String
  | tableNotFound table => "Table not found: " ++ table
  | unknownTableId id => "Table id " ++ toString id.toNat ++ " not found"
  | tableExists table => "Table already exists: " ++ table
  | recordNotFound id => "Record " ++ id.render ++ " not found"
  | missingRecordId => "Tuple has no record id"
  | pageOutOfRange page count =>
    "Page " ++ toString page.toNat ++ " out of range (" ++ toString count ++ " pages)"
  | schemaViolation row schema =>
    "Tuple does not match table schema: tuple (" ++ row.render ++ ") does not fit (" ++
      schema.render ++ ")"
  | unavailable reason => "Storage unavailable: " ++ reason

/-! ## Failures of a query -/

/-- The reason why a query failed. -/
inductive QueryError where
  /-- The operator was asked for rows before it was opened. -/
  | notOpen (operator : String)
  /-- The operator was asked for a row after its last one. -/
  | noMoreRows (operator : String)
  /-- A column of integers showed no integer. -/
  | noIntegers (column : String)
  /-- A value of one type stands where the other is needed. -/
  | typeMismatch (expected found : ColumnType)
  /-- The number of values is not the number of columns. -/
  | widthMismatch (found expected : Nat)
  /-- A row does not conform to the schema it is listed under. -/
  | rowMismatch (row : Row) (schema : Schema)
  /-- The rows to write or to remove are not of the table's schema. -/
  | inputMismatch (input : Schema) (table : String) (expected : Schema)
  /-- The function needs integers and the column holds text. -/
  | textColumn (function : AggregateFunction) (column : String)
  /-- The function needs an integer and the field holds text. -/
  | textField (function : AggregateFunction)
  /-- A running value that is not a count was given text. -/
  | textValue
  /-- There is no column or field at this position. -/
  | columnOutOfRange (index width : Nat)
  /-- A histogram was asked for without buckets. -/
  | noBuckets
  /-- A histogram was asked for over a range without values. -/
  | emptyRange (min max : Int64)
  /-- The value lies outside the range of the histogram. -/
  | outsideRange (value min max : Int64)
  /-- The operator takes another number of inputs. -/
  | childCount (operator : String) (expected found : Nat)
  /-- A sum left the range of integers. -/
  | numericOverflow
  /-- The storage refused a call. -/
  | storage (cause : StorageError)
  /-- The storage refused a write after some others, which stand. -/
  | modificationFailed (affected : Nat) (cause : StorageError)
deriving DecidableEq

/-- The kinds of query failures. -/
inductive ErrorKind where
  | illegalState
  | typeMismatch
  | schemaMismatch
  | unsupportedOperator
  | columnOutOfRange
  | invalidArgument
  | numericOverflow
  | storage
  | modificationFailed
deriving DecidableEq

namespace QueryError

/-- The kind of a query failure. -/
def kind : QueryError → ErrorKind
  | notOpen _ | noMoreRows _ | noIntegers _ => .illegalState
  | typeMismatch .. => .typeMismatch
  | widthMismatch .. | rowMismatch .. | inputMismatch .. => .schemaMismatch
  | textColumn .. | textField _ | textValue => .unsupportedOperator
  | columnOutOfRange .. => .columnOutOfRange
  | noBuckets | emptyRange .. | outsideRange .. | childCount .. => .invalidArgument
  | numericOverflow => .numericOverflow
  | storage _ => .storage
  | modificationFailed .. => .modificationFailed

/-- What happened, without the words that name the kind. -/
def detail : QueryError → String
  | notOpen operator => operator ++ " operator is not open"
  | noMoreRows operator => operator ++ " operator has no more tuples"
  | noIntegers column => "no integer values observed in column " ++ column
  | typeMismatch expected found =>
    "expected " ++ expected.render ++ ", found " ++ found.render
  | widthMismatch found expected =>
    "tuple has " ++ toString found ++ " values, schema expects " ++ toString expected
  | rowMismatch row schema =>
    "tuple (" ++ row.render ++ ") does not match (" ++ schema.render ++ ")"
  | inputMismatch input table expected =>
    "child produces (" ++ input.render ++ ") but table '" ++ table ++ "' expects (" ++
      expected.render ++ ")"
  | textColumn function column =>
    function.render ++ " is not defined over TEXT column " ++ column
  | textField function => function.render ++ " over TEXT"
  | textValue => "non-COUNT aggregate over TEXT"
  | columnOutOfRange index width =>
    toString index ++ " out of range for width " ++ toString width
  | noBuckets => "histogram needs at least one bucket"
  | emptyRange min max =>
    "histogram range is empty: min " ++ toString min.toInt ++ " > max " ++ toString max.toInt
  | outsideRange value min max =>
    "value " ++ toString value.toInt ++ " outside histogram range [" ++ toString min.toInt ++ ", " ++
      toString max.toInt ++ "]"
  | childCount operator expected found =>
    operator ++ " operator takes " ++ toString expected ++ " children, got " ++ toString found
  | numericOverflow => ""
  | storage cause => cause.message
  | modificationFailed affected cause =>
    toString affected ++ " tuples: " ++ cause.message

def message (e : QueryError) : String :=
  let heading := match e.kind with
    | .illegalState => "Illegal state: "
    | .typeMismatch => "Type mismatch: "
    | .schemaMismatch => "Schema mismatch: "
    | .unsupportedOperator => "Unsupported operator: "
    | .columnOutOfRange => "Column index "
    | .invalidArgument => "Invalid argument: "
    | .numericOverflow => "Numeric overflow"
    | .storage => "Storage error: "
    | .modificationFailed => "Modification failed after "
  heading ++ e.detail

end QueryError

/-! ## Answers made from others -/

theorem exists_of_map_eq_ok {ε α β : Type} {answer : Except ε α} {f : α → β} {b : β}
    (h : answer.map f = .ok b) : ∃ a, answer = .ok a ∧ f a = b := by
  cases answer with
  | error e => cases h
  | ok a =>
    cases h
    exact ⟨a, rfl, rfl⟩

theorem of_map_eq_error {ε α β : Type} {answer : Except ε α} {f : α → β} {e : ε}
    (h : answer.map f = .error e) : answer = .error e := by
  cases answer with
  | error e' =>
    cases h
    rfl
  | ok a => cases h

end QueryEngine
