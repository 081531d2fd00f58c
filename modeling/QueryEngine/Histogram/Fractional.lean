/-!
# The numbers that estimates are made of

Estimates are fractions. They are computed in floating point, where every operation rounds and the
order of the operations shows in the last digits. The same formulas read as rational numbers have no
rounding, and that is how their meaning is told: an estimate is written once, for any type of
numbers, in the order of operations that the floating-point reading needs.
-/

namespace QueryEngine

/-- Numbers that an estimate can be computed in. -/
class Fractional (F : Type) extends Add F, Sub F, Mul F, Div F where
  /-- The number that stands for an integer, or the one nearest to it. -/
  ofInt : Int → F

/-- Floating-point numbers. An integer becomes the nearest of them, ties going to the even one. -/
instance : Fractional Float where
  ofInt := Float.ofInt

/-- Rational numbers, which have every integer among them. -/
instance : Fractional Rat where
  ofInt n := (n : Rat)

end QueryEngine
