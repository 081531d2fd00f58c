import QueryEngine.Integer

/-!
# Numerals

A number of JSON is a numeral: an optional minus sign, the digits of the whole part, optionally a
point and the digits of a fraction, and optionally a power of ten. The numeral is kept as it is
written, and what number it means depends on the type that reads it.

* Read as an integer, a numeral has neither fraction nor power, whatever its value: `2.0` and `1e3`
  are not integers. Neither is `-0`, which only a floating-point number can tell from `0`.
* Read as a floating-point number, a numeral is its leading digits, as many as fit in 64 bits,
  times a power of ten (`significand`, `scale`). Both are rounded before they are multiplied, so
  that the result may miss the nearest floating-point number by some of the last digits.
-/

namespace QueryEngine

/-- A number as it is written. -/
structure Numeral where
  negative : Bool
  /-- The digits before the point. -/
  whole : List Char
  /-- The digits after the point, none if there is no point. -/
  fraction : List Char
  /-- The power of ten, if one is written. -/
  exponent : Option Int
deriving DecidableEq

namespace Numeral

/-! ## Writing -/

def ofInt (n : Int) : Numeral :=
  ⟨n < 0, Nat.toDigits 10 n.natAbs, [], none⟩

def render (n : Numeral) : List Char :=
  (if n.negative then ['-'] else []) ++ n.whole ++
    (if n.fraction = [] then [] else '.' :: n.fraction) ++
    (match n.exponent with
      | none => []
      | some e => 'e' :: (toString e).toList)

/-! ## Reading the characters -/

/-- The digits that a list of characters begins with, and the rest. -/
def digits (cs : List Char) : List Char × List Char :=
  (cs.takeWhile Char.isDigit, cs.dropWhile Char.isDigit)

/-- A minus sign, if there is one. -/
def sign : List Char → Bool × List Char
  | '-' :: rest => (true, rest)
  | cs => (false, cs)

/-- The whole part, which begins with a zero only if it is one. -/
def wholePart (cs : List Char) : Option (List Char × List Char) :=
  match digits cs with
  | ([], _) => none
  | ('0' :: _ :: _, _) => none
  | (ds, rest) => some (ds, rest)

/-- The fraction, if there is a point. -/
def fractionPart : List Char → Option (List Char × List Char)
  | '.' :: cs =>
    match digits cs with
    | ([], _) => none
    | (ds, rest) => some (ds, rest)
  | cs => some ([], cs)

/-- The power of ten after its letter, with or without a sign. -/
def power (cs : List Char) : Option (Int × List Char) :=
  let (negative, cs) := match cs with
    | '+' :: rest => (false, rest)
    | cs => sign cs
  match digits cs with
  | ([], _) => none
  | (ds, rest) =>
    let e := Int.ofNat (Nat.ofDigitChars 10 ds 0)
    some (if negative then -e else e, rest)

/-- The power of ten, if there is one. -/
def exponentPart : List Char → Option (Option Int × List Char)
  | 'e' :: cs | 'E' :: cs => (power cs).map fun (e, rest) ↦ (some e, rest)
  | cs => some (none, cs)

/-- The numeral that a list of characters begins with, and the rest. -/
def read? (cs : List Char) : Option (Numeral × List Char) :=
  let (negative, cs) := sign cs
  match wholePart cs with
  | none => none
  | some (whole, cs) =>
    match fractionPart cs with
    | none => none
    | some (fraction, cs) =>
      (exponentPart cs).map fun (exponent, rest) ↦ (⟨negative, whole, fraction, exponent⟩, rest)

/-! ## Integers -/

/-- The number that the digits of the whole part write. -/
def magnitude (n : Numeral) : Nat :=
  Nat.ofDigitChars 10 n.whole 0

def int? (n : Numeral) : Option Int :=
  if n.fraction ≠ [] ∨ n.exponent.isSome then none
  else if n.negative then
    if n.magnitude = 0 then none else some (-(n.magnitude : Int))
  else some n.magnitude

def int64? (n : Numeral) : Option Int64 :=
  n.int?.bind QueryEngine.int64?

/-- The count that a numeral is, a natural number below `2 ^ 64`. -/
def count? (n : Numeral) : Option Nat :=
  match n.int? with
  | some (.ofNat m) => if m < UInt64.size then some m else none
  | _ => none

/-! ## Floating-point numbers -/

/-- A number of 64 bits with digits appended until one does not fit, and the number of digits that
are left over. -/
def appendDigits (m : Nat) : List Char → Nat × Nat
  | [] => (m, 0)
  | c :: rest =>
    let m' := Nat.ofDigitChars 10 [c] m
    if m' < UInt64.size then appendDigits m' rest else (m, rest.length + 1)

/-- The leading digits of a numeral, as many as fit in 64 bits, with the power of ten that belongs
to them. A digit of the fraction may still fit where one of the whole part did not. -/
def significand (n : Numeral) : Nat × Int :=
  let (m, left) := appendDigits 0 n.whole
  let (m', left') := appendDigits m n.fraction
  (m', left - (n.fraction.length - left') + n.exponent.getD 0)

/-- The largest power of ten that is a floating-point number. -/
def maxPower : Nat := 308

/-- A power of ten, rounded to the nearest floating-point number. -/
def powerOfTen (e : Nat) : Float :=
  Float.ofScientific 1 false e

/-- A number times a power of ten. A positive power multiplies, and there is no result beyond the
range of floating-point numbers. A negative power divides, at once or, if it is too large for that,
in two steps; beyond these nothing is left of the number. -/
def scale (m : Nat) (e : Int) : Option Float :=
  let f := Float.ofNat m
  match e with
  | .ofNat e =>
    if e ≤ maxPower then
      let product := f * powerOfTen e
      if product.isInf then none else some product
    else if m = 0 then some 0 else none
  | .negSucc e =>
    let e := e + 1
    if e ≤ maxPower then some (f / powerOfTen e)
    else if e - maxPower ≤ maxPower then some (f / powerOfTen maxPower / powerOfTen (e - maxPower))
    else some 0

def float? (n : Numeral) : Option Float :=
  let (m, e) := n.significand
  (scale m e).map fun f ↦ if n.negative then -f else f

end Numeral

end QueryEngine
