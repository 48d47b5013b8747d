import ZetaValues.Query.SpecialValues
import ZetaValues.Proofs.Argument
import ZetaValues.Proofs.Discriminant

/-! # Queries that rest on queries

A special value makes another query, which checks its own arguments again. After the checks that
were made before it, these find nothing: a zeta value and a power sum ask for the successor of an
accepted index (`zeta_eq`, `powerSum_eq`), and a class number for a fundamental discriminant, which
is admitted in every session (`classNumber_eq`). -/

namespace ZetaValues.Query

theorem bernoulliNumber_ofNat {i : ℕ} (h : i ≤ maxIndex) :
    bernoulliNumber (.ofNat i) = .ok (fromNumber i id) := by
  rw [bernoulliNumber, Argument.n.index_ofNat h]
  rfl

theorem bernoulliPolynomial_ofNat {i : ℕ} (h : i ≤ maxIndex) :
    bernoulliPolynomial (.ofNat i) =
      .ok (fromNumbers i fun numbers => Bernoulli.polynomial numbers i) := by
  rw [bernoulliPolynomial, Argument.n.index_ofNat h]
  rfl

/-- A zeta value refuses what its own check refuses, and needs one Bernoulli number. -/
theorem zeta_eq (n : Int64) :
    zeta n = (do
      let i ← Argument.n.indexBelow n
      return fromNumber (i + 1) (zetaOf i)) := by
  refine Argument.n.indexBelow_bind_congr n fun i hi => ?_
  rw [bernoulliNumber_ofNat hi]
  rfl

/-- A power sum refuses what its own checks refuse, and needs the numbers of one polynomial. -/
theorem powerSum_eq (k n : Int64) :
    powerSum k n = (do
      let i ← Argument.k.indexBelow k
      let n ← Argument.n.natural n
      return fromNumbers (i + 1) fun numbers =>
        (powerSumOf (Bernoulli.polynomial numbers (i + 1)) i n).num) := by
  refine Argument.k.indexBelow_bind_congr k fun i hi => ?_
  rw [bernoulliPolynomial_ofNat hi]
  rfl

/-- **A class number does not depend on the discriminants that are admitted**: those that pass the
checks before it are. -/
theorem classNumber_eq (admission : Admission) (d : Int64) :
    classNumber admission d = classNumber .fundamental d := by
  unfold classNumber
  split_ifs with hneg hfund
  · rfl
  · have hχ : ∀ a, QuadraticCharacter.ofDiscriminant a d = .ok ⟨d, hfund.isDiscriminant⟩ := fun a =>
      QuadraticCharacter.ofDiscriminant_of_admits ⟨d, _⟩ (Admission.admits_of_isFundamental hfund a)
    simp only [forDiscriminant, hχ]
  · rfl

end ZetaValues.Query
