/-! # Written forms of exact numbers

An integer is written in decimal, with a leading `-` below zero. A fraction is written as its
numerator and, unless it is an integer, a `/` and its denominator in lowest terms. The labelled
forms say in addition which of the two kinds the number is. -/

namespace ZetaValues.Exact

/-- The decimal text of an integer. -/
def integerText (n : Int) : String :=
  n.repr

/-- The text of a fraction: `n`, or `n/d` with `d > 1` in lowest terms. -/
def fractionText (q : Rat) : String :=
  if q.den = 1 then integerText q.num else integerText q.num ++ "/" ++ q.den.repr

/-- The text of an integer, marked as one. -/
def integerLabel (n : Int) : String :=
  "Integer(" ++ integerText n ++ ")"

/-- The text of a fraction, marked as one. -/
def fractionLabel (q : Rat) : String :=
  "Rational(" ++ fractionText q ++ ")"

end ZetaValues.Exact
