import ZetaValues.Proofs.Bernoulli.EulerFactor
import ZetaValues.Proofs.Character.Parity
import ZetaValues.Proofs.Discriminant
import ZetaValues.Proofs.Session.Caching

/-! # Imprimitive quadratic characters

The character of `d₀ f ^ 2` is that of `d₀` without its values at the numbers that have a factor in
common with `f` (`kroneckerSymbol_mul_sq_eq_without`). Its modulus is a multiple of `|d₀|` times the
product of the primes that divide `f`, so its generalized Bernoulli numbers are those of `d₀` with
one Euler factor for each of these primes. -/

namespace ZetaValues

open ZetaValues.Bernoulli Residue

/-! ### Square factors -/

variable {d : ℤ}

theorem coprime_iff_forall_not_dvd {a f : ℕ} (hf : f ≠ 0) :
    a.Coprime f ↔ ¬ ∃ p ∈ f.primeFactors, p ∣ a := by
  constructor
  · rintro hcop ⟨p, hp, hpa⟩
    rw [Nat.mem_primeFactors] at hp
    exact Nat.not_coprime_of_dvd_of_dvd hp.1.one_lt hpa hp.2.1 hcop
  · intro h
    by_contra hcop
    obtain ⟨p, hp, hpa, hpf⟩ := Nat.Prime.not_coprime_iff_dvd.mp hcop
    exact h ⟨p, Nat.mem_primeFactors.mpr ⟨hp, hpf, hf⟩, hpa⟩

theorem kroneckerSymbol_mul_sq_eq_without (d : ℤ) {f a : ℕ} (hf : f ≠ 0) (ha : a ≠ 0) :
    kroneckerSymbol (d * f ^ 2) a = without f.primeFactors (fun a => kroneckerSymbol d a) a := by
  rw [kroneckerSymbol_mul_sq d hf ha]
  unfold without
  by_cases h : a.Coprime f
  · rw [if_pos h, if_neg ((coprime_iff_forall_not_dvd hf).mp h)]
  · rw [if_neg h, if_pos (not_not.mp fun hp => h ((coprime_iff_forall_not_dvd hf).mpr hp))]

theorem kroneckerSymbol_add_natAbs (hd : d % 4 = 0 ∨ d % 4 = 1) (a : ℕ) :
    kroneckerSymbol d (a + d.natAbs : ℕ) = kroneckerSymbol d a := by
  rw [kroneckerSymbol_natCast_mod hd, Nat.add_mod_right, ← kroneckerSymbol_natCast_mod hd]

/-- **The twisted sum of a discriminant with a square factor.** -/
theorem twistedSum_mul_sq {k : ℕ} (hk : k < UInt32.size) (h0 : d ≠ 0)
    (hd : d % 4 = 0 ∨ d % 4 = 1) {f : ℕ} (hf : f ≠ 0) :
    twistedSum (upTo k) k (d * f ^ 2).natAbs (fun a => kroneckerSymbol (d * f ^ 2) a) =
      twistedSum (upTo k) k d.natAbs (fun a => kroneckerSymbol d a) *
        ∏ p ∈ f.primeFactors, (1 - (kroneckerSymbol d p : ℚ) * (p : ℚ) ^ ((k : ℤ) - 1)) := by
  set χ : ℕ → ℤ := fun a => kroneckerSymbol d a with hχ
  have hM : d.natAbs ≠ 0 := Int.natAbs_ne_zero.mpr h0
  have hper : ∀ a, 1 ≤ a → χ (a + d.natAbs) = χ a := fun a _ => kroneckerSymbol_add_natAbs hd a
  have hmul : ∀ p ∈ f.primeFactors, ∀ a, χ (p * a) = χ p * χ a := by
    intro p _ a
    simp only [hχ, Nat.cast_mul, kroneckerSymbol_mul hd]
  have hprime : ∀ p ∈ f.primeFactors, p.Prime := fun p => Nat.prime_of_mem_primeFactors
  -- the modulus is a multiple of `|d|` times the product of the primes
  obtain ⟨c, hc⟩ := Nat.prod_primeFactors_dvd f
  have hmod : (d * f ^ 2).natAbs = d.natAbs * (∏ p ∈ f.primeFactors, p) * (c * f) := by
    rw [natAbs_mul_sq, sq, mul_assoc, ← mul_assoc _ c, ← hc]
  have hprod : ∏ p ∈ f.primeFactors, p ≠ 0 := fun h => hf (by rw [hc, h, zero_mul])
  have hcf : c * f ≠ 0 := mul_ne_zero (fun h => hf (by rw [hc, h, mul_zero])) hf
  have hperiod : ∀ a, 1 ≤ a → without f.primeFactors χ (a + d.natAbs * ∏ p ∈ f.primeFactors, p) =
      without f.primeFactors χ a := fun a ha =>
    without_add hper _ (Dvd.intro _ rfl)
      (fun p hp => Dvd.dvd.mul_left (Finset.dvd_prod_of_mem _ hp) _) ha
  calc twistedSum (upTo k) k (d * f ^ 2).natAbs (fun a => kroneckerSymbol (d * f ^ 2) a)
      = twistedSum (upTo k) k (d.natAbs * (∏ p ∈ f.primeFactors, p) * (c * f))
          (without f.primeFactors χ) := by
        rw [hmod]
        refine twistedSum_congr fun a ha => kroneckerSymbol_mul_sq_eq_without d hf ?_
        rw [Finset.mem_Icc] at ha
        omega
    _ = twistedSum (upTo k) k (d.natAbs * ∏ p ∈ f.primeFactors, p)
          (without f.primeFactors χ) :=
        twistedSum_mul hk (mul_ne_zero hM hprod) hcf fun a ha _ => hperiod a ha
    _ = _ := twistedSum_without hk hM hprime hper hmul

/-! ### Generalized Bernoulli numbers -/

/-- **An imprimitive character picks up the Euler factors** of the primes that divide `f`: the
number of weight `k` of `d₀ f ^ 2` is that of `d₀` times `1 - χ(p) p ^ (k - 1)` for each of them. -/
theorem bernoulliForCharacter_mul_sq {d₀ d k : Int64} {f : ℕ} (hd₀ : IsFundamental d₀)
    (hf : 1 ≤ f) (hd : d.toInt = d₀.toInt * f ^ 2) (h0 : 0 ≤ k.toInt) (hk : k.toInt ≤ maxIndex) :
    ∃ χ₀ χ b, QuadraticCharacter.ofDiscriminant .fundamental d₀ = .ok χ₀ ∧
      QuadraticCharacter.ofDiscriminant .discriminant d = .ok χ ∧
      bernoulliForDiscriminant k d₀ = .ok b ∧
      bernoulliForCharacter χ k = .ok (b *
        ∏ p ∈ f.primeFactors, (1 - (χ₀.value (.ofNat p) : ℚ) * (p : ℚ) ^ (k.toInt - 1))) := by
  have hf0 : f ≠ 0 := by omega
  obtain ⟨χ₀, hχ₀, rfl⟩ :=
    QuadraticCharacter.exists_ofDiscriminant (show Admission.fundamental.Admits d₀ from hd₀)
  have hdisc : IsDiscriminant d := isDiscriminant_of_eq_mul_sq χ₀.isDiscriminant hf0 hd
  obtain ⟨χ, hχ, rfl⟩ :=
    QuadraticCharacter.exists_ofDiscriminant (show Admission.discriminant.Admits d from hdisc)
  have hfd : f ∣ χ.discriminant.toInt.natAbs := by
    rw [hd]
    exact dvd_natAbs_mul_sq _ f
  have hvalue : ∀ p ∈ f.primeFactors,
      χ₀.value (.ofNat p) = kroneckerSymbol χ₀.discriminant.toInt p := by
    intro p hp
    have hpf : p ≤ f := Nat.le_of_mem_primeFactors hp
    exact χ₀.value_ofNat_eq (lt_of_le_of_lt hpf (χ.lt_size_of_dvd hfd))
  refine ⟨χ₀, χ, _, hχ₀, hχ, (bernoulliForDiscriminant_of_ok hχ₀ k).trans
    (χ₀.bernoulliForCharacter_eq_symbols h0 hk), ?_⟩
  rw [χ.bernoulliForCharacter_eq_symbols h0 hk, hd,
    twistedSum_mul_sq (toNat_lt_size hk) χ₀.toInt_discriminant_ne_zero χ₀.isDiscriminant.2 hf0,
    Int.toNat_of_nonneg h0]
  refine congrArg Except.ok (congrArg _ (Finset.prod_congr rfl fun p hp => ?_))
  rw [hvalue p hp]

/-- The value of `-3` at 2 is `-1`, so at weight 1 the imprimitive `-12` has twice the number. -/
theorem bernoulliForCharacter_mul_sq_minus_twelve :
    IsFundamental (-3) ∧ (-12 : Int64).toInt = (-3 : Int64).toInt * (2 : ℕ) ^ 2 ∧
      0 ≤ (1 : Int64).toInt ∧ (1 : Int64).toInt ≤ maxIndex ∧
      ∃ χ b, QuadraticCharacter.ofDiscriminant .discriminant (-12) = .ok χ ∧
        bernoulliForDiscriminant 1 (-3) = .ok b ∧ bernoulliForCharacter χ 1 = .ok (b * 2) := by
  have h3 : IsFundamental (-3) := by
    have hsq : Squarefree (-3 : ℤ) := Int.squarefree_natAbs.mp Nat.prime_three.prime.squarefree
    exact (isFundamental_iff (-3)).mpr (Or.inl ⟨rfl, hsq⟩)
  have h12 : (-12 : Int64).toInt = (-3 : Int64).toInt * (2 : ℕ) ^ 2 := by decide
  obtain ⟨χ₀, χ, b, hχ₀, hχ, hb, hnumber⟩ :=
    bernoulliForCharacter_mul_sq (k := 1) h3 one_le_two h12 (by decide) (by decide)
  have hvalue : χ₀.value (.ofNat 2) = -1 := by
    have hsymbol := kroneckerSymbol_two_pow_mul (-3) 1 (m := 1) rfl
    rw [pow_one, pow_one, mul_one, jacobiSym.one_right] at hsymbol
    rw [χ₀.value_ofNat_eq (by decide), χ₀.discriminant_of_ok hχ₀]
    exact hsymbol
  have hone : (1 : Int64).toInt - 1 = 0 := rfl
  rw [Nat.prime_two.primeFactors, Finset.prod_singleton, hvalue, hone, zpow_zero] at hnumber
  refine ⟨h3, h12, by decide, by decide, χ, b, hχ, hb, ?_⟩
  rw [hnumber]
  norm_num

end ZetaValues
