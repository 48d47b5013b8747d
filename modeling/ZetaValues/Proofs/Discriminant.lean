import ZetaValues.Discriminant
import ZetaValues.Proofs.Residue.Discriminants
import ZetaValues.Proofs.TrialDivision

/-! # Fundamental discriminants among the integers

The conditions on words say that `d` is 1 modulo 4 and squarefree, or four times a squarefree `m`
that is 2 or 3 modulo 4 (`isFundamental_iff`). A discriminant that is not fundamental is a
discriminant times a square above 1 (`exists_eq_mul_sq`), and no square of an odd prime divides a
fundamental one (`Fundamental.not_sq_dvd`). -/

namespace ZetaValues

open Exact Residue TrialDivision

/-- **A fundamental discriminant**, as an integer. -/
def Fundamental (d : ℤ) : Prop :=
  (d % 4 = 1 ∧ Squarefree d) ∨ ∃ m, d = 4 * m ∧ (m % 4 = 2 ∨ m % 4 = 3) ∧ Squarefree m

/-! ### Words -/

theorem squarefree_magnitude_iff (d : Int64) :
    isSquarefree (magnitude d) = true ↔ Squarefree d.toInt := by
  rw [isSquarefree_iff, toNat_magnitude, Int.squarefree_natAbs]

theorem toInt_quarter {d : Int64} {m : ℤ} (h : d.toInt = 4 * m) : (d / 4).toInt = m := by
  have h4 : (4 : Int64).toInt = 4 := rfl
  rw [Int64.toInt_div_of_ne_right _ _ (by decide), h, h4, Int.mul_tdiv_cancel_left m (by decide)]

/-- **The conditions on words** are those on the integer. -/
theorem isFundamental_iff (d : Int64) : IsFundamental d ↔ Fundamental d.toInt := by
  unfold IsFundamental Fundamental
  by_cases h1 : d.toInt % 4 = 1
  · rw [if_pos h1, squarefree_magnitude_iff]
    constructor
    · intro hsq
      exact Or.inl ⟨h1, hsq⟩
    · rintro (⟨-, hsq⟩ | ⟨m, hm, -⟩)
      · exact hsq
      · omega
  · rw [if_neg h1, squarefree_magnitude_iff]
    constructor
    · rintro ⟨h0, hmod, hsq⟩
      obtain ⟨m, hm⟩ := Int.dvd_of_emod_eq_zero h0
      rw [toInt_quarter hm] at hmod hsq
      exact Or.inr ⟨m, hm, hmod, hsq⟩
    · rintro (⟨h1', -⟩ | ⟨m, hm, hmod, hsq⟩)
      · exact absurd h1' h1
      · rw [toInt_quarter hm]
        exact ⟨by omega, hmod, hsq⟩

theorem isFundamental_one : IsFundamental 1 :=
  (isFundamental_iff 1).mpr (Or.inl ⟨rfl, squarefree_one⟩)

/-- A fundamental discriminant is admitted in any case. -/
theorem Admission.admits_of_isFundamental {d : Int64} (h : IsFundamental d) (a : Admission) :
    a.Admits d := by
  cases a with
  | fundamental => exact h
  | discriminant => exact h.isDiscriminant

theorem isDiscriminant_of_eq_mul_sq {d₀ d : Int64} {f : ℕ} (h : IsDiscriminant d₀) (hf : f ≠ 0)
    (hd : d.toInt = d₀.toInt * f ^ 2) : IsDiscriminant d := by
  constructor
  · rintro rfl
    have hzero : (0 : Int64).toInt = 0 := rfl
    have h0 : d₀.toInt ≠ 0 := fun h0 => h.1 (Int64.toInt_inj.mp h0)
    have hpos : (f : ℤ) ^ 2 ≠ 0 := pow_ne_zero 2 (by exact_mod_cast hf)
    exact mul_ne_zero h0 hpos (hd.symm.trans hzero)
  · rw [hd]
    exact mul_sq_emod_four h.2 f

/-! ### Square factors -/

variable {d : ℤ}

theorem exists_eq_mul_sq_of_not_squarefree {m : ℤ} (h0 : m ≠ 0) (h : ¬ Squarefree m) :
    ∃ (e : ℤ) (f : ℕ), 1 < f ∧ m = e * f ^ 2 := by
  simp only [Squarefree, not_forall] at h
  obtain ⟨x, ⟨e, he⟩, hx⟩ := h
  have hx0 : x ≠ 0 := by
    rintro rfl
    rw [zero_mul, zero_mul] at he
    exact h0 he
  have hx1 : x.natAbs ≠ 1 := fun h1 => hx (Int.isUnit_iff_natAbs_eq.mpr h1)
  have hpos : x.natAbs ≠ 0 := Int.natAbs_ne_zero.mpr hx0
  refine ⟨e, x.natAbs, by omega, ?_⟩
  rw [Int.natAbs_sq, he]
  ring

/-- **A discriminant that is not fundamental** is a discriminant times a square above 1. -/
theorem exists_eq_mul_sq (h0 : d ≠ 0) (hd : d % 4 = 0 ∨ d % 4 = 1) (h : ¬ Fundamental d) :
    ∃ (e : ℤ) (f : ℕ), 1 < f ∧ d = e * f ^ 2 ∧ (e % 4 = 0 ∨ e % 4 = 1) := by
  rcases hd with hd | hd
  · obtain ⟨m, rfl⟩ := Int.dvd_of_emod_eq_zero hd
    by_cases hm : m % 4 = 2 ∨ m % 4 = 3
    · have hsq : ¬ Squarefree m := fun hsq => h (Or.inr ⟨m, rfl, hm, hsq⟩)
      obtain ⟨e, f, hf, rfl⟩ := exists_eq_mul_sq_of_not_squarefree (by omega) hsq
      exact ⟨4 * e, f, hf, by ring, by omega⟩
    · exact ⟨m, 2, by decide, by push_cast; ring, by omega⟩
  · have hsq : ¬ Squarefree d := fun hsq => h (Or.inl ⟨hd, hsq⟩)
    obtain ⟨e, f, hf, rfl⟩ := exists_eq_mul_sq_of_not_squarefree h0 hsq
    refine ⟨e, f, hf, rfl, Or.inr ?_⟩
    rcases Int.emod_two_eq_zero_or_one f with h2 | h2
    · rw [Int.mul_emod, sq_emod_four, h2] at hd
      exact absurd hd (by simp)
    · rwa [mul_sq_emod_four_of_odd e h2] at hd

theorem Fundamental.mod_four (h : Fundamental d) : d % 4 = 0 ∨ d % 4 = 1 := by
  rcases h with ⟨h1, -⟩ | ⟨m, rfl, -⟩
  · exact Or.inr h1
  · exact Or.inl (by omega)

/-- The square of an odd prime does not divide. -/
theorem Fundamental.not_sq_dvd (h : Fundamental d) {p : ℕ} (hp : p.Prime) (h2 : p ≠ 2) :
    ¬ (p * p : ℤ) ∣ d := by
  have hsq : ∀ {m : ℤ}, Squarefree m → ¬ (p * p : ℤ) ∣ m := fun hm hdvd =>
    hp.one_lt.ne' (by simpa using Int.isUnit_iff_natAbs_eq.mp (hm p hdvd))
  rcases h with ⟨-, hd⟩ | ⟨m, rfl, -, hm⟩
  · exact hsq hd
  · intro hdvd
    have hcop : p.Coprime 4 :=
      Nat.Coprime.pow_right 2 ((Nat.coprime_primes hp Nat.prime_two).mpr h2)
    have hcop' : IsCoprime (p * p : ℤ) 4 := by
      have h4 : IsCoprime (p : ℤ) 4 := by exact_mod_cast Nat.isCoprime_iff_coprime.mpr hcop
      exact h4.mul_left h4
    exact hsq hm (hcop'.dvd_of_dvd_mul_left hdvd)

end ZetaValues
