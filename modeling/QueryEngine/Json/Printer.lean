import QueryEngine.Json.Basic
import QueryEngine.Json.Quoted

/-!
# Printing JSON

The compact form: no blanks, fields in their order, text escaped only where it has to be. A string
that is no text cannot be printed and leaves an empty one.
-/

namespace QueryEngine.Json

/-- Lists of characters one after the other, set apart by commas. -/
def separated : List (List Char) → List Char
  | [] => []
  | [cs] => cs
  | cs :: next :: rest => cs ++ ',' :: separated (next :: rest)

mutual

def print : Json → List Char
  | null => ['n', 'u', 'l', 'l']
  | bool true => ['t', 'r', 'u', 'e']
  | bool false => ['f', 'a', 'l', 's', 'e']
  | number n => n.render
  | string s => Quoted.encode (s.getD "").toList
  | array items => '[' :: separated (printItems items) ++ [']']
  | object fields => '\x7b' :: separated (printFields fields) ++ ['\x7d']

/-- The characters of each item of an array. -/
def printItems : List Json → List (List Char)
  | [] => []
  | v :: rest => print v :: printItems rest

/-- The characters of each field of an object. -/
def printFields : List (Option String × Json) → List (List Char)
  | [] => []
  | (name, v) :: rest =>
    (Quoted.encode (name.getD "").toList ++ ':' :: print v) :: printFields rest

end

def render (v : Json) : String :=
  String.ofList (print v)

end QueryEngine.Json
