import ZetaValues.Proofs.Character.Moment
import ZetaValues.Proofs.Character.Parity
import ZetaValues.Proofs.Character.Primitive
import ZetaValues.Proofs.Conductor
import ZetaValues.Proofs.Session.Caching
import Mathlib.Data.ZMod.Units

/-! # Weight zero and principal characters

The character of `d` is principal, with the value 1 wherever it does not vanish, exactly if `d` is a
square (`dirichlet_eq_one_iff`). For if `d = d₀ f ^ 2` is not a square, then the fundamental `d₀` is
not 1 and has the value `-1` somewhere, and in the same class modulo `|d₀|` there is a number
without a common factor with `f`, where `d` has the same value (`exists_value_of_not_isSquare`). The
generalized Bernoulli number of weight 0 is the mean value of the character, which vanishes unless
the character is principal, and then is `φ(d) / d`. -/

namespace ZetaValues

open ZetaValues.Bernoulli Exact Residue

/-! ### Values of `-1` -/

/-- A class modulo a divisor `m` of `n` that has no common factor with `m` contains a number that
has none with `n`. -/
theorem exists_coprime_modEq {a m n : ℕ} (hn : n ≠ 0) (hmn : m ∣ n) (ha : a.Coprime m) :
    ∃ b, b.Coprime n ∧ b ≡ a [MOD m] := by
  have : NeZero n := ⟨hn⟩
  obtain ⟨u, hu⟩ := ZMod.unitsMap_surjective hmn (ZMod.unitOfCoprime a ha)
  refine ⟨(u : ZMod n).val, ZMod.val_coe_unit_coprime u, ?_⟩
  rw [← ZMod.natCast_eq_natCast_iff, ZMod.natCast_val, ← ZMod.unitsMap_val hmn, hu,
    ZMod.coe_unitOfCoprime]

/-- **A discriminant that is not a square** has the value `-1` somewhere. -/
theorem exists_value_of_not_isSquare {d : ℤ} (h0 : d ≠ 0) (hd : d % 4 = 0 ∨ d % 4 = 1)
    (hsq : ¬ IsSquare d) : ∃ a : ℕ, a.Coprime d.natAbs ∧ kroneckerSymbol d a = -1 := by
  obtain ⟨d₀, f, hfund, hf, rfl⟩ := exists_fundamental_mul_sq h0 hd
  have hne : d₀ ≠ 1 := by
    rintro rfl
    exact hsq ⟨f, by ring⟩
  have hproper : 1 ∈ d₀.natAbs.properDivisors := by
    have hmod := hfund.mod_four
    have hpos := hfund.ne_zero
    rw [Nat.one_mem_properDivisors_iff_one_lt]
    omega
  obtain ⟨a, -, -, hgcd, -, hval⟩ := hfund.exists_value_of_properDivisor hproper
  -- `a` may have a factor in common with `f`, another number in its class has none
  obtain ⟨b, hb, hba⟩ := exists_coprime_modEq (a := a) (Int.natAbs_ne_zero.mpr h0)
    (Dvd.intro _ (natAbs_mul_sq d₀ f).symm) hgcd
  have hval' : kroneckerSymbol d₀ b = -1 := by
    rw [kroneckerSymbol_natCast_mod hfund.mod_four, hba,
      ← kroneckerSymbol_natCast_mod hfund.mod_four, hval]
  have hbf : b.Coprime f := Nat.Coprime.coprime_dvd_right (dvd_natAbs_mul_sq d₀ f) hb
  refine ⟨b, hb, ?_⟩
  rw [kroneckerSymbol_mul_sq d₀ (by omega) (ne_zero_of_kroneckerSymbol hval'), if_pos hbf, hval']

namespace QuadraticCharacter

variable (χ : QuadraticCharacter)

/-- **Principal characters** are those of the squares. -/
theorem dirichlet_eq_one_iff : χ.dirichlet = 1 ↔ IsSquare χ.discriminant.toInt := by
  constructor
  · intro hone
    by_contra hsq
    obtain ⟨a, ha, hval⟩ := exists_value_of_not_isSquare χ.toInt_discriminant_ne_zero
      χ.isDiscriminant.2 hsq
    rw [← toNat_modulus] at ha
    rw [← dirichlet_natCast, hone, MulChar.one_apply ((ZMod.isUnit_iff_coprime a _).mpr ha)] at hval
    exact absurd hval (by decide)
  · rintro ⟨r, hr⟩
    have hd : χ.discriminant.toInt = (r.natAbs : ℤ) ^ 2 := by rw [hr, Int.natAbs_sq, sq]
    have hr0 : r.natAbs ≠ 0 := by
      intro h
      rw [h] at hd
      exact χ.toInt_discriminant_ne_zero hd
    refine MulChar.ext fun u => ?_
    have hcop : ((u : ZMod χ.modulus.toNat).val).Coprime r.natAbs := by
      refine Nat.Coprime.coprime_dvd_right ?_ (ZMod.val_coe_unit_coprime u)
      rw [toNat_modulus, hr, Int.natAbs_mul]
      exact Dvd.intro _ rfl
    rw [MulChar.one_apply_coe, ← ZMod.natCast_zmod_val (u : ZMod χ.modulus.toNat),
      dirichlet_natCast, hd, kroneckerSymbol_sq hr0, if_pos hcop]

/-! ### The mean value -/

/-- **The number of weight 0** is the mean value of the character. -/
theorem bernoulliForCharacter_eq_mean :
    bernoulliForCharacter χ 0 =
      .ok (((∑ x, χ.dirichlet x : ℤ) : ℚ) / χ.modulus.toNat) := by
  have hvalue : ∑ a ∈ Finset.Icc 1 χ.modulus.toNat, χ.value (.ofNat a) =
      ∑ a ∈ Finset.Icc 1 χ.modulus.toNat, χ.dirichlet (a : ZMod χ.modulus.toNat) :=
    Finset.sum_congr rfl fun a ha => χ.value_ofNat (Finset.mem_Icc.mp ha).2
  have hrange : ∑ a ∈ Finset.Icc 1 χ.modulus.toNat, χ.dirichlet (a : ZMod χ.modulus.toNat) =
      ∑ x, χ.dirichlet x := by
    rw [sum_Icc_eq_sum_range (by rw [ZMod.natCast_self, Nat.cast_zero]),
      sum_range_natCast fun x => χ.dirichlet x]
  rw [χ.bernoulliForCharacter_of_le (by decide) (by decide)]
  show Except.ok (twistedSum (upTo 0) 0 _ _) = _
  rw [twistedSum_weight_zero (NeZero.ne _), hvalue, hrange]

theorem bernoulliForCharacter_of_not_isSquare (h : ¬ IsSquare χ.discriminant.toInt) :
    bernoulliForCharacter χ 0 = .ok 0 := by
  have hne : χ.dirichlet ≠ 1 := fun hone => h (χ.dirichlet_eq_one_iff.mp hone)
  rw [bernoulliForCharacter_eq_mean, MulChar.sum_eq_zero_of_ne_one hne, Int.cast_zero, zero_div]

theorem bernoulliForCharacter_of_isSquare (h : IsSquare χ.discriminant.toInt) :
    bernoulliForCharacter χ 0 =
      .ok ((χ.discriminant.toInt.natAbs.totient : ℚ) / χ.discriminant.toInt) := by
  have habs : (χ.modulus.toNat : ℤ) = χ.discriminant.toInt := by
    rw [toNat_modulus, Int.natAbs_of_nonneg h.nonneg]
  have habs' : (χ.modulus.toNat : ℚ) = χ.discriminant.toInt := by exact_mod_cast habs
  rw [bernoulliForCharacter_eq_mean, χ.dirichlet_eq_one_iff.mpr h, MulChar.sum_one_eq_card_units,
    ZMod.card_units_eq_totient, habs', toNat_modulus, Int.cast_natCast]

end QuadraticCharacter

/-- **Weight zero detects the principal characters**: for a discriminant that is admitted, the
number of weight 0 of its character is zero if `d` is not a square, and `φ(d) / d` if it is one. The
only square among the fundamental discriminants is 1. -/
theorem bernoulliForCharacter_weight_zero {d : Int64} (hd : Admission.discriminant.Admits d) :
    ∃ χ, QuadraticCharacter.ofDiscriminant .discriminant d = .ok χ ∧
      (¬ IsSquare d.toInt → bernoulliForCharacter χ 0 = .ok 0) ∧
      (IsSquare d.toInt →
        bernoulliForCharacter χ 0 = .ok ((d.toInt.natAbs.totient : ℚ) / d.toInt)) ∧
      (IsFundamental d → d ≠ 1 → bernoulliForDiscriminant 0 d = .ok 0) := by
  obtain ⟨χ, hχ, rfl⟩ := QuadraticCharacter.exists_ofDiscriminant hd
  refine ⟨χ, hχ, χ.bernoulliForCharacter_of_not_isSquare, χ.bernoulliForCharacter_of_isSquare, ?_⟩
  intro hfund hne
  have hsq : ¬ IsSquare χ.discriminant.toInt := fun hsq =>
    hne (Int64.toInt_inj.mp (((isFundamental_iff _).mp hfund).eq_one_of_isSquare hsq))
  rw [bernoulliForDiscriminant_of_ok (χ.ofDiscriminant_of_admits hfund)]
  exact χ.bernoulliForCharacter_of_not_isSquare hsq

/-- The square 9, where 6 of the 9 residues have the value 1; the positive 20, which is neither a
square nor fundamental; and the fundamental 5. -/
theorem bernoulliForCharacter_weight_zero_nine :
    Admission.discriminant.Admits 9 ∧ Admission.discriminant.Admits 20 ∧
      Admission.discriminant.Admits 5 ∧ IsFundamental 5 ∧
      (∃ χ, QuadraticCharacter.ofDiscriminant .discriminant 9 = .ok χ ∧
        bernoulliForCharacter χ 0 = .ok (2 / 3)) ∧
      (∃ χ, QuadraticCharacter.ofDiscriminant .discriminant 20 = .ok χ ∧
        bernoulliForCharacter χ 0 = .ok 0) ∧
      bernoulliForDiscriminant 0 5 = .ok 0 := by
  have h9 : Admission.discriminant.Admits 9 := by decide
  have h20 : Admission.discriminant.Admits 20 := by decide
  have h5 : Admission.discriminant.Admits 5 := by decide
  have hfund : IsFundamental 5 := by
    have hsq : Squarefree (5 : ℤ) := Int.squarefree_natAbs.mp Nat.prime_five.prime.squarefree
    exact (isFundamental_iff 5).mpr (Or.inl ⟨rfl, hsq⟩)
  obtain ⟨χ, hχ, -, hsquare, -⟩ := bernoulliForCharacter_weight_zero h9
  obtain ⟨ψ, hψ, hzero, -, -⟩ := bernoulliForCharacter_weight_zero h20
  obtain ⟨-, -, -, -, hfive⟩ := bernoulliForCharacter_weight_zero h5
  have hφ : ((9 : Int64).toInt.natAbs.totient : ℚ) / (9 : Int64).toInt = 2 / 3 := by
    have hsix : (9 : Int64).toInt.natAbs.totient = 6 := by decide
    have hnine : (9 : Int64).toInt = 9 := rfl
    rw [hsix, hnine]
    norm_num
  have h9sq : IsSquare (9 : Int64).toInt := ⟨3, rfl⟩
  have h20sq : ¬ IsSquare (20 : Int64).toInt := by decide +kernel
  refine ⟨h9, h20, h5, hfund, ⟨χ, hχ, ?_⟩, ⟨ψ, hψ, hzero h20sq⟩, hfive hfund (by decide)⟩
  rw [hsquare h9sq, hφ]

end ZetaValues
