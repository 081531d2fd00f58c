import QueryEngine.Json.Basic
import QueryEngine.Json.Quoted

/-!
# Reading JSON

Recursive descent over the characters of a document. Each reader takes the characters from its
place on, and answers with what it read and the characters after it.

The readers of values, items and fields call each other without an end in sight, so they count their
calls down. A value takes at least one character, and no more than two calls pass before it does;
`parse?` hands out calls enough for every document.
-/

namespace QueryEngine.Json

/-- Whether a character may stand between the parts of a document. -/
def isBlank (c : Char) : Bool :=
  c == ' ' || c == '\t' || c == '\n' || c == '\r'

/-- The characters from the first one that is not blank. -/
def skipBlanks (cs : List Char) : List Char :=
  cs.dropWhile isBlank

mutual

def readValue : Nat → List Char → Option (Json × List Char)
  | 0, _ => none
  | calls + 1, cs =>
    match skipBlanks cs with
    | 'n' :: 'u' :: 'l' :: 'l' :: rest => some (null, rest)
    | 't' :: 'r' :: 'u' :: 'e' :: rest => some (bool true, rest)
    | 'f' :: 'a' :: 'l' :: 's' :: 'e' :: rest => some (bool false, rest)
    | '\"' :: rest => (Quoted.decode rest).map fun (s, rest) ↦ (string s, rest)
    | '[' :: rest =>
      match skipBlanks rest with
      | ']' :: rest => some (array [], rest)
      | rest => (readItems calls rest).map fun (items, rest) ↦ (array items, rest)
    | '\x7b' :: rest =>
      match skipBlanks rest with
      | '\x7d' :: rest => some (object [], rest)
      | rest => (readFields calls rest).map fun (fields, rest) ↦ (object fields, rest)
    | cs => (Numeral.read? cs).map fun (n, rest) ↦ (number n, rest)

/-- Reads the items of an array, at least one, and the bracket after them. -/
def readItems : Nat → List Char → Option (List Json × List Char)
  | 0, _ => none
  | calls + 1, cs =>
    match readValue calls cs with
    | none => none
    | some (v, rest) =>
      match skipBlanks rest with
      | ',' :: rest => (readItems calls rest).map fun (items, rest) ↦ (v :: items, rest)
      | ']' :: rest => some ([v], rest)
      | _ => none

/-- Reads the fields of an object, at least one, and the bracket after them. -/
def readFields : Nat → List Char → Option (List (Option String × Json) × List Char)
  | 0, _ => none
  | calls + 1, cs =>
    match skipBlanks cs with
    | '\"' :: rest =>
      match Quoted.decode rest with
      | none => none
      | some (name, rest) =>
        match skipBlanks rest with
        | ':' :: rest =>
          match readValue calls rest with
          | none => none
          | some (v, rest) =>
            match skipBlanks rest with
            | ',' :: rest =>
              (readFields calls rest).map fun (fields, rest) ↦ ((name, v) :: fields, rest)
            | '\x7d' :: rest => some ([(name, v)], rest)
            | _ => none
        | _ => none
    | _ => none

end

/-- The value that a document holds. -/
def parse? (document : String) : Option Json :=
  let cs := document.toList
  match readValue (2 * cs.length + 2) cs with
  | none => none
  | some (v, rest) => if skipBlanks rest = [] then some v else none

end QueryEngine.Json
