import ZetaValues.Argument
import ZetaValues.Discriminant
import ZetaValues.Residue.Kronecker

/-! # Quadratic characters

The character of a discriminant `d` is `a ↦ (d/a)`, by the Kronecker symbol. It is a character
modulo `|d|`, since `d` is 0 or 1 modulo 4, and its value at `-1` is the sign of `d`. -/

namespace ZetaValues

open Exact Residue

/-- The character of a discriminant. -/
structure QuadraticCharacter where
  discriminant : Int64
  isDiscriminant : IsDiscriminant discriminant := by decide
  deriving DecidableEq

namespace QuadraticCharacter

/-- The character of the discriminant 1. -/
def trivial : QuadraticCharacter :=
  { discriminant := 1 }

/-- The character of `d`, if `d` is not zero and admitted. -/
def ofDiscriminant (admission : Admission) (d : Int64) : Checked QuadraticCharacter :=
  if d = 0 then
    .error ⟨.d, d, .zero⟩
  else if h : admission.Admits d then
    .ok ⟨d, h.isDiscriminant⟩
  else
    .error ⟨.d, d, .notAdmitted admission⟩

/-- A discriminant that is admitted has this character. -/
theorem ofDiscriminant_of_admits (χ : QuadraticCharacter) {admission : Admission}
    (h : admission.Admits χ.discriminant) : ofDiscriminant admission χ.discriminant = .ok χ := by
  rw [ofDiscriminant, if_neg χ.isDiscriminant.1, dif_pos h]

/-- The modulus `|d|`. -/
def modulus (χ : QuadraticCharacter) : UInt64 :=
  magnitude χ.discriminant

abbrev IsTrivial (χ : QuadraticCharacter) : Prop :=
  χ.discriminant = 1

/-- The value at `-1`: it is 1 for a real field, and `-1` for an imaginary one. -/
def parity (χ : QuadraticCharacter) : Int :=
  if 0 < χ.discriminant.toInt then 1 else -1

abbrev IsEven (χ : QuadraticCharacter) : Prop :=
  χ.parity = 1

/-- The value at a natural number. -/
def value (χ : QuadraticCharacter) (a : UInt64) : Int :=
  kronecker χ.discriminant a

/-- The value at an integer. -/
def valueInt (χ : QuadraticCharacter) (a : Int64) : Int :=
  kroneckerInt χ.discriminant a

/-- The generalized Bernoulli number of weight `k` vanishes by parity: the modulus is not 1, and the
value at `-1` is not `(-1) ^ k`. -/
abbrev VanishesAt (χ : QuadraticCharacter) (k : Nat) : Prop :=
  1 < χ.modulus ∧ χ.parity ≠ if k % 2 = 0 then 1 else -1

def text (χ : QuadraticCharacter) : String :=
  "χ_" ++ integerText χ.discriminant.toInt

end QuadraticCharacter

end ZetaValues
