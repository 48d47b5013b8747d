import ZetaValues.Query.Bernoulli

/-! # Answers computed afresh

Bernoulli numbers and polynomials for a caller who keeps no table. -/

namespace ZetaValues

def bernoulliNumber (n : Int64) : Checked Rat :=
  (Query.bernoulliNumber n).map Query.fresh

def bernoulliNumbers (n : Int64) : Checked (List Rat) :=
  (Query.bernoulliNumbers n).map Query.fresh

def bernoulliPolynomial (n : Int64) : Checked DensePoly :=
  (Query.bernoulliPolynomial n).map Query.fresh

/-- The generalized Bernoulli number of weight `k` of a function with the given modulus. -/
def bernoulliForFunction (k : Int64) (modulus : UInt64) (χ : UInt64 → Int64) : Checked Rat :=
  (Query.forFunction k modulus χ).map Query.fresh

/-- The generalized Bernoulli number of weight `k` of a quadratic character. -/
def bernoulliForCharacter (χ : QuadraticCharacter) (k : Int64) : Checked Rat :=
  (Query.forCharacter χ k).map Query.fresh

/-- The generalized Bernoulli number of weight `k` of the character of a fundamental
discriminant. -/
def bernoulliForDiscriminant (k d : Int64) : Checked Rat :=
  (Query.forDiscriminant .fundamental k d).map Query.fresh

end ZetaValues
