import ZetaValues.Bernoulli.TwistedSum
import ZetaValues.QuadraticCharacter
import ZetaValues.Query.Basic

/-! # Queries for Bernoulli numbers and polynomials

The arguments are checked here, in the order in which they are named, so a query that exists has an
answer. A generalized Bernoulli number of a quadratic character is known to be zero at weights of
the other parity, and then needs no Bernoulli number at all. -/

namespace ZetaValues.Query

def bernoulliNumber (n : Int64) : Checked (Query Rat) := do
  let n ← Argument.n.index n
  return fromNumber n id

def bernoulliNumbers (n : Int64) : Checked (Query (List Rat)) := do
  let n ← Argument.n.index n
  return fromNumbers n id

def bernoulliPolynomial (n : Int64) : Checked (Query DensePoly) := do
  let n ← Argument.n.index n
  return fromNumbers n fun numbers => Bernoulli.polynomial numbers n

/-! ### Generalized Bernoulli numbers -/

/-- The number of weight `k` of a function with the given modulus. -/
def forFunction (k : Int64) (modulus : UInt64) (χ : UInt64 → Int64) : Checked (Query Rat) := do
  let k ← Argument.k.index k
  let N ← Argument.modulus.positive modulus
  return fromNumbers k fun numbers => Bernoulli.twistedSum numbers k N fun a => (χ (.ofNat a)).toInt

/-- The number of weight `k` of a quadratic character, for a checked `k`. -/
def ofCharacter (χ : QuadraticCharacter) (k : Nat) : Query Rat :=
  if χ.VanishesAt k then
    known 0
  else
    fromNumbers k fun numbers =>
      Bernoulli.twistedSum numbers k χ.modulus.toNat fun a => χ.value (.ofNat a)

/-- The number of weight `k` of a quadratic character. -/
def forCharacter (χ : QuadraticCharacter) (k : Int64) : Checked (Query Rat) := do
  let k ← Argument.k.index k
  return ofCharacter χ k

/-- The number of weight `k` of the character of `d`. -/
def forDiscriminant (admission : Admission) (k d : Int64) : Checked (Query Rat) := do
  let k ← Argument.k.index k
  let χ ← QuadraticCharacter.ofDiscriminant admission d
  return ofCharacter χ k

end ZetaValues.Query
