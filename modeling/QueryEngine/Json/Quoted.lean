/-!
# Quoted text

Between the quotes of a JSON string stand characters and escapes. A quote, a backslash and the
control characters below U+0020 have to be escaped, and every character may be, by the hexadecimal
number of its UTF-16 unit; a character beyond U+FFFF is written as two units, a high and a low
surrogate.

Reading has two steps. `pieces` splits the characters up to the closing quote into characters and
units, and `assemble` puts pairs of surrogates together. Only the second step fails at a surrogate
without its partner: such a string is well formed but is no text.
-/

namespace QueryEngine.Quoted

/-! ## Escaping -/

/-- A character as it stands between quotes. -/
def escape (c : Char) : List Char :=
  match c with
  | '\"' => ['\\', '\"']
  | '\\' => ['\\', '\\']
  | '\x08' => ['\\', 'b']
  | '\t' => ['\\', 't']
  | '\n' => ['\\', 'n']
  | '\x0c' => ['\\', 'f']
  | '\r' => ['\\', 'r']
  | c =>
    if c.toNat < 0x20 then
      ['\\', 'u', '0', '0', Nat.digitChar (c.toNat / 16), Nat.digitChar (c.toNat % 16)]
    else [c]

/-- A text between quotes. -/
def encode (s : List Char) : List Char :=
  '\"' :: s.flatMap escape ++ ['\"']

/-! ## Pieces -/

/-- A part of a quoted text: a character, or a UTF-16 unit given by number. -/
inductive Piece where
  | char (c : Char)
  | unit (n : Nat)
deriving DecidableEq

/-- The value of a hexadecimal digit. -/
def hexDigit? (c : Char) : Option Nat :=
  if c.isDigit then some (c.toNat - '0'.toNat)
  else if 'a' ≤ c ∧ c ≤ 'f' then some (c.toNat - 'a'.toNat + 10)
  else if 'A' ≤ c ∧ c ≤ 'F' then some (c.toNat - 'A'.toNat + 10)
  else none

/-- The value of four hexadecimal digits. -/
def hexUnit? (a b c d : Char) : Option Nat :=
  match hexDigit? a, hexDigit? b, hexDigit? c, hexDigit? d with
  | some a, some b, some c, some d => some (4096 * a + 256 * b + 16 * c + d)
  | _, _, _, _ => none

/-- The character that a letter after a backslash stands for. -/
def named? : Char → Option Char
  | '\"' => some '\"'
  | '\\' => some '\\'
  | '/' => some '/'
  | 'b' => some '\x08'
  | 'f' => some '\x0c'
  | 'n' => some '\n'
  | 'r' => some '\r'
  | 't' => some '\t'
  | _ => none

/-- The pieces up to the closing quote, and what comes after it. -/
def pieces : List Char → Option (List Piece × List Char)
  | [] => none
  | '\"' :: rest => some ([], rest)
  | '\\' :: 'u' :: a :: b :: c :: d :: rest =>
    match hexUnit? a b c d, pieces rest with
    | some n, some (ps, rest) => some (.unit n :: ps, rest)
    | _, _ => none
  | '\\' :: c :: rest =>
    match named? c, pieces rest with
    | some c, some (ps, rest) => some (.char c :: ps, rest)
    | _, _ => none
  | c :: rest =>
    if c.toNat < 0x20 ∨ c = '\\' then none
    else (pieces rest).map fun (ps, rest) ↦ (.char c :: ps, rest)

/-! ## Surrogates -/

def isHigh (n : Nat) : Bool :=
  0xd800 ≤ n && n < 0xdc00

def isLow (n : Nat) : Bool :=
  0xdc00 ≤ n && n < 0xe000

/-- The character that a pair of surrogates stands for. -/
def ofPair (high low : Nat) : Char :=
  Char.ofNat (0x10000 + (high - 0xd800) * 0x400 + (low - 0xdc00))

/-- The text of the pieces, unless a surrogate lacks its partner. -/
def assemble : List Piece → Option (List Char)
  | [] => some []
  | .char c :: rest => (assemble rest).map (c :: ·)
  | .unit high :: .unit low :: rest =>
    if isHigh high then
      if isLow low then (assemble rest).map (ofPair high low :: ·) else none
    else if isLow high then none
    else (assemble (.unit low :: rest)).map (Char.ofNat high :: ·)
  | .unit n :: rest =>
    if isHigh n || isLow n then none else (assemble rest).map (Char.ofNat n :: ·)

/-- The text up to the closing quote, `none` if it is no text, and what comes after it. -/
def decode (cs : List Char) : Option (Option String × List Char) :=
  (pieces cs).map fun (ps, rest) ↦ ((assemble ps).map String.ofList, rest)

end QueryEngine.Quoted
