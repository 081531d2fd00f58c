import QueryEngine.Json.Numeral

/-!
# JSON

Values of JSON as they are written. Numbers stay numerals, and the fields of an object stay in their
order, names repeated or not: what to make of either is up to the reader of the value.

A string or a name is `none` if it is well formed but no text, because it has half a pair of
surrogates in it. That is of no concern where the string is not looked at.
-/

namespace QueryEngine

/-- A value of JSON. -/
inductive Json where
  | null
  | bool (b : Bool)
  | number (n : Numeral)
  | string (s : Option String)
  | array (items : List Json)
  | object (fields : List (Option String × Json))

namespace Json

def text (s : String) : Json :=
  string (some s)

def integer (n : Int) : Json :=
  number (.ofInt n)

/-- An object of named fields. -/
def record (fields : List (String × Json)) : Json :=
  object (fields.map fun (name, v) ↦ (some name, v))

/-! ## Looking into values -/

def text? : Json → Option String
  | string s => s
  | _ => none

/-- The integer of 64 bits that a number is. -/
def int64? : Json → Option Int64
  | number n => n.int64?
  | _ => none

/-- The natural number below `2 ^ 64` that a number is. -/
def count? : Json → Option Nat
  | number n => n.count?
  | _ => none

/-- The floating-point number that a number is. -/
def float? : Json → Option Float
  | number n => n.float?
  | _ => none

def items? : Json → Option (List Json)
  | array items => some items
  | _ => none

/-- The value of a field that may occur once at most; the inner `none` is for a field that does not
occur. -/
def field? (fields : List (Option String × Json)) (name : String) : Option (Option Json) :=
  match fields.filter fun f ↦ f.1 == some name with
  | [] => some none
  | [(_, v)] => some (some v)
  | _ => none

/-- The values of the named fields of a record, as far as they are given.

A record is written as an object, where the order is free, other fields are passed over and none of
the named ones may repeat, or as an array of the values in order, which may end early but not be too
long. -/
def record? (names : List String) : Json → Option (List (Option Json))
  | object fields =>
    if fields.all fun f ↦ f.1.isSome then names.mapM (field? fields) else none
  | array items =>
    if items.length ≤ names.length then
      some (items.map some ++ .replicate (names.length - items.length) none)
    else none
  | _ => none

/-- The name of a variant with its content: an object of one field, or a string for a variant
without content. -/
def variant? : Json → Option (String × Option Json)
  | string (some name) => some (name, none)
  | object [(some name, v)] => some (name, some v)
  | _ => none

end Json

end QueryEngine
