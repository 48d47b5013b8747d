/-! # Trial division

A word is squarefree if no square above 1 divides it. The trial divisors are 2, 3, 5, 7, 9, …: one
that divides is split off once, and if it divides again there is a square. What is left when the
square of the next trial divisor is larger is 1 or a prime. -/

namespace ZetaValues.TrialDivision

/-- The square of `p`, or the largest word if the square does not fit. -/
def cappedSquare (p : UInt64) : UInt64 :=
  if p < 4294967296 then p * p else 18446744073709551615

/-- The trial divisor after `p`: 3 after 2, and from there the odd numbers. -/
def next (p : UInt64) : UInt64 :=
  if p = 2 then 3 else p + 2

/-- Has `n` no square divisor, given that it has no divisor from 2 to below `p`? The trial divisors
end where the next one is no longer a word. -/
def squarefreeFrom (n p : UInt64) : Bool :=
  if cappedSquare p ≤ n ∧ p < next p then
    if n % p = 0 then
      if n / p % p = 0 then false else squarefreeFrom (n / p) (next p)
    else
      squarefreeFrom n (next p)
  else
    true
termination_by UInt64.size - p.toNat
decreasing_by
  all_goals
    have := UInt64.lt_iff_toNat_lt.mp (And.right ‹cappedSquare p ≤ n ∧ p < next p›)
    have := (next p).toNat_lt
    have : UInt64.size = 2 ^ 64 := rfl
    omega

/-- Is `n` squarefree? Every square divides zero, so zero is not. -/
def isSquarefree (n : UInt64) : Bool :=
  n ≠ 0 && squarefreeFrom n 2

end ZetaValues.TrialDivision
