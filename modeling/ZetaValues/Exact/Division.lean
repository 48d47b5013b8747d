import ZetaValues.Undefined

/-! # Division of integers and fractions

The partial operations of exact arithmetic. Integer division goes toward zero, so the remainder
has the sign of the dividend and `a = b * quotient + remainder`. -/

namespace ZetaValues.Exact

/-- The quotient of `a` by `b`, rounded toward zero. -/
def quotient (a b : Int) : Except Undefined Int :=
  if b = 0 then .error .integerByZero else .ok (a.tdiv b)

/-- What `quotient` leaves over; its sign is that of `a`. -/
def remainder (a b : Int) : Except Undefined Int :=
  if b = 0 then .error .integerByZero else .ok (a.tmod b)

/-- The greatest natural number that divides both `a` and `b`. -/
def greatestDivisor (a b : Int) : Except Undefined Nat :=
  if a = 0 ∧ b = 0 then .error .gcdOfZeros else .ok (a.gcd b)

/-- The fraction `num / den` in lowest terms, with its sign in the numerator. -/
def fraction (num den : Int) : Except Undefined Rat :=
  if den = 0 then .error .zeroDenominator else .ok (Rat.divInt num den)

/-- The fraction `p / q`. -/
def ratio (p q : Rat) : Except Undefined Rat :=
  if q = 0 then .error .fractionByZero else .ok (p / q)

end ZetaValues.Exact
