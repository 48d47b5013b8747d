import ZetaValues.Undefined

/-! # The Jacobi symbol

`(a/n)` for an odd modulus `n`, by quadratic reciprocity: a factor 2 is split off with the value of
`(2/n)`, and an odd numerator changes places with the modulus, which is then reduced. Each step
makes the numerator smaller. -/

namespace ZetaValues.Residue

/-- The symbol `(2/n)`, or `(n/2)`, for an odd `n`: it is `-1` exactly at 3 and 5 modulo 8. -/
def symbolOfTwo (n : Int) : Int :=
  if n % 8 = 3 ∨ n % 8 = 5 then -1 else 1

/-- The sign with which odd `a` and `n` change places: `-1` exactly when both are 3 modulo 4. -/
def reciprocitySign (a n : UInt64) : Int :=
  if a % 4 = 3 ∧ n % 4 = 3 then -1 else 1

/-- The symbol `(a/n)` for an odd `n`. -/
def oddSymbol (a n : UInt64) : Int :=
  if a = 0 then
    if n = 1 then 1 else 0
  else if a % 2 = 0 then
    symbolOfTwo n.toNat * oddSymbol (a / 2) n
  else
    reciprocitySign a n * oddSymbol (n % a) a
termination_by a.toNat
decreasing_by
  all_goals
    have : a.toNat ≠ 0 := fun h => ‹¬a = 0› (UInt64.toNat_inj.mp h)
    first
    | rw [UInt64.toNat_div]; exact Nat.div_lt_self (by omega) (by decide)
    | rw [UInt64.toNat_mod]; exact Nat.mod_lt _ (by omega)

/-- The Jacobi symbol `(a/n)`, which is defined for odd `n` only. -/
def jacobi (a n : UInt64) : Except Undefined Int :=
  if n % 2 = 1 then .ok (oddSymbol (a % n) n) else .error .evenModulus

end ZetaValues.Residue
