import ZetaValues.Query.Bernoulli

/-! # Queries for special values

Values that are Bernoulli numbers up to a simple factor:

* `ζ(-n) = (-1) ^ n B_{n+1} / (n + 1)`
* `L(1 - k, χ) = -B_{k,χ} / k`, and half of it is the constant term of the Eisenstein series
* the class number of an imaginary quadratic field is `-(w / 2) B_{1,χ}`, for its `w` roots of unity
* `∑_{a = 1}^{n} a ^ k = (B_{k+1}(n + 1) - B_{k+1}(1)) / (k + 1)`

Each checks its own arguments first, and then makes the query that it rests on, which checks what it
is given. -/

namespace ZetaValues.Query

/-- The value `(-1) ^ n b / (n + 1)`, for `b = B_{n+1}`. -/
def zetaOf (n : Nat) (b : Rat) : Rat :=
  let value := b / ((n + 1 : Nat) : Rat)
  if n % 2 = 0 then value else -value

/-- The value of the zeta function at `-n`. -/
def zeta (n : Int64) : Checked (Query Rat) := do
  let i ← Argument.n.indexBelow n
  let b ← bernoulliNumber (.ofNat (i + 1))
  return b.map (zetaOf i)

/-- The value at `1 - k` of the L-function of the character of `d`. -/
def lValue (admission : Admission) (k d : Int64) : Checked (Query Rat) := do
  let weight ← Argument.k.weight k
  let b ← forDiscriminant admission k d
  return b.map fun b => -b / (weight : Rat)

/-- The constant term of the Eisenstein series of weight `k` of the character of `d`. -/
def eisensteinConstant (admission : Admission) (k d : Int64) : Checked (Query Rat) := do
  let weight ← Argument.k.weight k
  let b ← forDiscriminant admission k d
  return b.map fun b => -b / ((2 * weight : Nat) : Rat)

/-! ### Class numbers -/

/-- The number of roots of unity in the imaginary quadratic field of discriminant `d`. -/
def rootsOfUnity (d : Int64) : Nat :=
  if d = -3 then 6 else if d = -4 then 4 else 2

/-- The class number `-(w / 2) b` of the field, for `b = B_{1,χ}` of its character `χ`. -/
def classNumberOf (d : Int64) (b : Rat) : Rat :=
  -(b * ((rootsOfUnity d / 2 : Nat) : Rat))

/-- The class number of the imaginary quadratic field of discriminant `d`. -/
def classNumber (admission : Admission) (d : Int64) : Checked (Query Int) :=
  if 0 ≤ d.toInt then
    .error ⟨.d, d, .notNegative⟩
  else if ¬ IsFundamental d then
    .error ⟨.d, d, .notAdmitted .fundamental⟩
  else do
    let b ← forDiscriminant admission 1 d
    return b.map fun b => (classNumberOf d b).num

/-! ### Power sums -/

/-- The sum of `a ^ k` over `a = 1, …, n`, for `p = B_{k+1}(x)`. -/
def powerSumOf (p : DensePoly) (k n : Nat) : Rat :=
  (p.eval ((n : Rat) + 1) - p.eval 1) / ((k + 1 : Nat) : Rat)

/-- The sum of `a ^ k` over `a = 1, …, n`. -/
def powerSum (k n : Int64) : Checked (Query Int) := do
  let i ← Argument.k.indexBelow k
  let n ← Argument.n.natural n
  let p ← bernoulliPolynomial (.ofNat (i + 1))
  return p.map fun p => (powerSumOf p i n).num

end ZetaValues.Query
