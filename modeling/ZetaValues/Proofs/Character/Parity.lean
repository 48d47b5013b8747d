import ZetaValues.Fresh
import ZetaValues.Proofs.Bernoulli.TwistedSum
import ZetaValues.Proofs.Character.Dirichlet

/-! # The parity rule

At weights of the other parity the generalized Bernoulli number of a quadratic character is known to
be zero without a sum. The sum is zero there as well (`twistedSum_eq_zero_of_vanishesAt`): the
character takes `|d| - a` to the sign of `d` times its value at `a`, and the Bernoulli polynomial of
weight `k` takes `1 - x` to `(-1) ^ k` times its value at `x`. -/

namespace ZetaValues.QuadraticCharacter

open ZetaValues.Bernoulli Exact Residue

variable (χ : QuadraticCharacter)

/-! ### Values as words -/

theorem value_trichotomy (a : UInt64) : χ.value a = 0 ∨ χ.value a = 1 ∨ χ.value a = -1 := by
  by_cases h : χ.value a = 0
  · exact Or.inl h
  · exact Or.inr (χ.value_of_ne_zero h)

theorem toInt_ofInt_value (a : UInt64) : (Int64.ofInt (χ.value a)).toInt = χ.value a := by
  rcases χ.value_trichotomy a with h | h | h <;> rw [h] <;> rfl

theorem value_ofNat {a : ℕ} (ha : a ≤ χ.modulus.toNat) :
    χ.value (.ofNat a) = χ.dirichlet (a : ZMod χ.modulus.toNat) := by
  have hlt := χ.modulus.toNat_lt_size
  rw [value_eq, UInt64.toNat_ofNat_of_lt' (by omega)]

theorem lt_size_of_dvd {a : ℕ} (h : a ∣ χ.discriminant.toInt.natAbs) : a < UInt64.size := by
  rw [← toNat_modulus] at h
  exact lt_of_le_of_lt (Nat.le_of_dvd (NeZero.pos _) h) χ.modulus.toNat_lt_size

/-- The values up to the modulus are symbols, before they are words. -/
theorem value_ofNat_eq {a : ℕ} (ha : a < UInt64.size) :
    χ.value (.ofNat a) = kroneckerSymbol χ.discriminant.toInt a := by
  have hword : (UInt64.ofNat a).toNat = a := UInt64.toNat_ofNat_of_lt' ha
  conv_rhs => rw [← hword]
  exact kronecker_eq _ _

/-! ### Reflection -/

theorem dirichlet_modulus_sub {a : ℕ} (ha : a ≤ χ.modulus.toNat) :
    χ.dirichlet ((χ.modulus.toNat - a : ℕ) : ZMod χ.modulus.toNat) =
      χ.parity * χ.dirichlet (a : ZMod χ.modulus.toNat) := by
  rw [Nat.cast_sub ha, ZMod.natCast_self, zero_sub, neg_eq_neg_one_mul, map_mul, dirichlet_neg_one]

theorem parity_eq_sign : χ.parity = χ.discriminant.toInt.sign := by
  have h0 := χ.toInt_discriminant_ne_zero
  unfold parity
  split_ifs with h
  · exact (Int.sign_eq_one_of_pos h).symm
  · exact (Int.sign_eq_neg_one_of_neg (by omega)).symm

theorem ite_even_eq_neg_one_pow (k : ℕ) : (if k % 2 = 0 then 1 else -1 : ℤ) = (-1) ^ k := by
  split_ifs with h
  · exact (Nat.even_iff.mpr h).neg_one_pow.symm
  · exact (Nat.odd_iff.mpr (by omega)).neg_one_pow.symm

theorem vanishesAt_iff (k : ℕ) :
    χ.VanishesAt k ↔ 1 < χ.discriminant.toInt.natAbs ∧ χ.discriminant.toInt.sign ≠ (-1) ^ k := by
  rw [VanishesAt, ite_even_eq_neg_one_pow, parity_eq_sign, UInt64.lt_iff_toNat_lt, toNat_modulus]
  rfl

/-- **The parity rule is right**: where it applies, the sum that it replaces is zero. -/
theorem twistedSum_eq_zero_of_vanishesAt {k : ℕ} (hk : k < UInt32.size) (h : χ.VanishesAt k) :
    twistedSum (upTo k) k χ.modulus.toNat (fun a => χ.value (.ofNat a)) = 0 := by
  obtain ⟨hmod, hpar⟩ := h
  have hmod' : 1 < χ.modulus.toNat := UInt64.lt_iff_toNat_lt.mp hmod
  refine twistedSum_eq_zero (s := χ.parity) hk (by omega) ?_ (fun a ha => ?_) ?_
  · rw [χ.value_ofNat (Nat.zero_le _), dirichlet_eq_zero_iff, Nat.coprime_zero_left]
    omega
  · rw [χ.value_ofNat (Nat.sub_le _ _), χ.value_ofNat ha, χ.dirichlet_modulus_sub ha]
  · rw [← ite_even_eq_neg_one_pow]
    unfold parity at hpar ⊢
    split_ifs at hpar ⊢ <;> first | rfl | exact absurd rfl hpar

/-! ### The generalized Bernoulli number -/

theorem bernoulliForFunction_value {k : Int64} (h0 : 0 ≤ k.toInt) (h : k.toInt ≤ maxIndex) :
    bernoulliForFunction k χ.modulus (fun a => .ofInt (χ.value a)) =
      .ok (twistedSum (upTo k.toInt.toNat) k.toInt.toNat χ.modulus.toNat
        fun a => χ.value (.ofNat a)) := by
  have hmod : χ.modulus ≠ 0 := fun hm => NeZero.ne χ.modulus.toNat (by rw [hm]; rfl)
  simp only [bernoulliForFunction_of_le h0 h hmod, toInt_ofInt_value]

theorem bernoulliForCharacter_of_le {k : Int64} (h0 : 0 ≤ k.toInt) (h : k.toInt ≤ maxIndex) :
    bernoulliForCharacter χ k =
      .ok (twistedSum (upTo k.toInt.toNat) k.toInt.toNat χ.modulus.toNat
        fun a => χ.value (.ofNat a)) := by
  rw [bernoulliForCharacter, Query.forCharacter, Argument.k.index_of_le h0 h]
  show Except.ok (Query.ofCharacter χ k.toInt.toNat).fresh = _
  rw [Query.ofCharacter]
  split_ifs with hv
  · rw [χ.twistedSum_eq_zero_of_vanishesAt (toNat_lt_size h) hv]; rfl
  · rfl

/-- **The number of a character**, as a twisted sum of symbols. -/
theorem bernoulliForCharacter_eq_symbols {k : Int64} (h0 : 0 ≤ k.toInt)
    (h : k.toInt ≤ maxIndex) :
    bernoulliForCharacter χ k = .ok (twistedSum (upTo k.toInt.toNat) k.toInt.toNat
      χ.discriminant.toInt.natAbs fun a => kroneckerSymbol χ.discriminant.toInt a) := by
  rw [χ.bernoulliForCharacter_of_le h0 h, ← toNat_modulus]
  refine congrArg Except.ok (twistedSum_congr fun a ha => χ.value_ofNat_eq ?_)
  have hlt := χ.modulus.toNat_lt_size
  rw [Finset.mem_Icc] at ha
  omega

theorem exists_ofDiscriminant {admission : Admission} {d : Int64} (h : admission.Admits d) :
    ∃ χ, ofDiscriminant admission d = .ok χ ∧ χ.discriminant = d :=
  ⟨⟨d, h.isDiscriminant⟩, ofDiscriminant_of_admits ⟨d, h.isDiscriminant⟩ h, rfl⟩

/-- **The parity rule changes no answer**: for a discriminant that is admitted, the number of its
character is that of the values of the character as a function modulo `|d|`, where no rule is used;
and it is zero if `|d|` is not 1 and the sign of `d` is not `(-1) ^ k`. -/
theorem bernoulliForCharacter_eq_bernoulliForFunction {d k : Int64}
    (hd : Admission.discriminant.Admits d) (h0 : 0 ≤ k.toInt) (hk : k.toInt ≤ maxIndex) :
    ∃ χ, ofDiscriminant .discriminant d = .ok χ ∧ ∃ b : ℚ,
      bernoulliForCharacter χ k = .ok b ∧
      bernoulliForFunction k (magnitude d) (fun a => .ofInt (χ.value a)) = .ok b ∧
      (1 < d.toInt.natAbs → d.toInt.sign ≠ (-1) ^ k.toInt.toNat → b = 0) := by
  obtain ⟨χ, hχ, rfl⟩ := exists_ofDiscriminant hd
  refine ⟨χ, hχ, _, χ.bernoulliForCharacter_of_le h0 hk, χ.bernoulliForFunction_value h0 hk, ?_⟩
  intro hmod hsign
  exact χ.twistedSum_eq_zero_of_vanishesAt (toNat_lt_size hk)
    ((χ.vanishesAt_iff _).mpr ⟨hmod, hsign⟩)

/-- The square 9 is a discriminant that is not fundamental; its character is even, so the number of
weight 3 is zero. -/
theorem bernoulliForCharacter_eq_bernoulliForFunction_nine :
    ∃ χ, ofDiscriminant .discriminant 9 = .ok χ ∧ bernoulliForCharacter χ 3 = .ok 0 ∧
      bernoulliForFunction 3 (magnitude 9) (fun a => .ofInt (χ.value a)) = .ok 0 := by
  obtain ⟨χ, hχ, b, hb, hf, hzero⟩ :=
    bernoulliForCharacter_eq_bernoulliForFunction (d := 9) (k := 3) (by decide) (by decide)
      (by decide)
  rw [hzero (by decide) (by decide)] at hb hf
  exact ⟨χ, hχ, hb, hf⟩

end ZetaValues.QuadraticCharacter
