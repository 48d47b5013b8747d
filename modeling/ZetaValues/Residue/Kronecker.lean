import ZetaValues.Exact.Word
import ZetaValues.Residue.Jacobi

/-! # The Kronecker symbol

`(a/n)` for every integer `n`. The powers of two in `n` count by `(a/2)`, what is left is an odd
modulus, and a negative `n` counts by the sign of `a`. -/

namespace ZetaValues.Residue

open Exact

/-- The exponent of 2 in `n`, and `n` without its factors 2; zero keeps its own. -/
def splitTwos (n : UInt64) : Nat × UInt64 :=
  if n = 0 ∨ n % 2 ≠ 0 then
    (0, n)
  else
    let (e, m) := splitTwos (n / 2)
    (e + 1, m)
termination_by n.toNat
decreasing_by
  have : n.toNat ≠ 0 := fun h => ‹¬(n = 0 ∨ n % 2 ≠ 0)› (.inl (UInt64.toNat_inj.mp h))
  rw [UInt64.toNat_div]
  exact Nat.div_lt_self (by omega) (by decide)

/-- The Kronecker symbol `(a/n)` for a natural `n`. -/
def kronecker (a : Int64) (n : UInt64) : Int :=
  if n = 0 then
    if a = 1 ∨ a = -1 then 1 else 0
  else if a.toInt % 2 = 0 ∧ n % 2 = 0 then
    0
  else
    let (e, m) := splitTwos n
    (if e % 2 = 0 then 1 else symbolOfTwo a.toInt) * oddSymbol (residue a m) m

/-- The Kronecker symbol `(a/n)` for an integer `n`. -/
def kroneckerInt (a n : Int64) : Int :=
  if n.toInt < 0 ∧ a.toInt < 0 then -kronecker a (magnitude n) else kronecker a (magnitude n)

end ZetaValues.Residue
