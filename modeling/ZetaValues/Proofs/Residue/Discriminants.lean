import ZetaValues.Proofs.Residue.Kronecker

/-! # Kronecker symbols of discriminants

For a `d` that is 0 or 1 modulo 4 the symbol `(d/n)` is periodic in `n` modulo `|d|`. If `d` is 1
modulo 4 it is `(n/|d|)` by reciprocity (`kroneckerSymbol_of_one_mod_four`); if 4 divides `d` it
vanishes at even `n`, and at odd ones it is `(d/4 / n)`, which is periodic modulo `4 |d/4|`.
Negative `n` follow from the value at `-1`, which is the value at `|d| - 1` as well. -/

namespace ZetaValues.Residue

open NumberTheorySymbols
open ZMod (χ₄ χ₈)

variable {d : ℤ}

/-! ### Odd discriminants -/

theorem χ₄_natAbs (hd : d % 4 = 1) : χ₄ (d.natAbs : ZMod 4) = if d < 0 then -1 else 1 := by
  split_ifs with h
  · exact ZMod.χ₄_nat_three_mod_four (by omega)
  · exact ZMod.χ₄_nat_one_mod_four (by omega)

theorem χ₈_natAbs (d : ℤ) : χ₈ (d.natAbs : ZMod 8) = χ₈ (d : ZMod 8) := by
  have heven : ∀ x : ZMod 8, χ₈ (-x) = χ₈ x := by decide
  rcases Int.natAbs_eq d with h | h
  · conv_rhs => rw [h, Int.cast_natCast]
  · conv_rhs => rw [h, Int.cast_neg, heven, Int.cast_natCast]

/-- Reciprocity for a numerator that is 1 modulo 4, whatever its sign. -/
theorem jacobiSym_of_one_mod_four (hd : d % 4 = 1) {m : ℕ} (hm : m % 2 = 1) :
    J(d | m) = J(m | d.natAbs) := by
  have hmo := Nat.odd_iff.mpr hm
  have hdo : d.natAbs % 2 = 1 := by omega
  rcases lt_or_ge d 0 with h | h
  · have hneg : J(d | m) = χ₄ m * J(d.natAbs | m) := by
      rw [← jacobiSym.neg _ hmo]; congr 1; omega
    rw [hneg]
    rcases Nat.odd_mod_four_iff.mp hm with h4 | h4
    · rw [ZMod.χ₄_nat_one_mod_four h4, one_mul]
      exact jacobiSym.quadratic_reciprocity_one_mod_four' (Nat.odd_iff.mpr hdo) h4
    · rw [ZMod.χ₄_nat_three_mod_four h4,
        jacobiSym.quadratic_reciprocity_three_mod_four (by omega) h4]
      ring
  · have hpos : J(d | m) = J(d.natAbs | m) := by congr 1; omega
    rw [hpos]
    exact jacobiSym.quadratic_reciprocity_one_mod_four (by omega) hmo

/-- **A discriminant that is 1 modulo 4** changes places with the lower argument. -/
theorem kroneckerSymbol_of_one_mod_four (hd : d % 4 = 1) (n : ℕ) :
    kroneckerSymbol d n = J(n | d.natAbs) := by
  have hdo : d.natAbs % 2 = 1 := by omega
  rcases eq_or_ne n 0 with rfl | hn
  · rw [Nat.cast_zero, kroneckerSymbol_zero_right]
    split_ifs with h1
    · have : d.natAbs = 1 := by omega
      rw [this, jacobiSym.one_right]
    · exact (jacobiSym.zero_left (by omega)).symm
  · obtain ⟨e, m, hm, rfl⟩ := exists_eq_two_pow_mul hn
    rw [kroneckerSymbol_two_pow_mul d e hm, jacobiSym_of_one_mod_four hd hm, ← χ₈_natAbs,
      ← jacobiSym.at_two (Nat.odd_iff.mpr hdo), ← jacobiSym.pow_left, ← jacobiSym.mul_left]
    push_cast
    rfl

/-! ### Even discriminants -/

theorem kroneckerSymbol_of_even (hd : d % 4 = 0) {n : ℕ} (hn : n % 2 = 0) :
    kroneckerSymbol d n = 0 := by
  rcases eq_or_ne n 0 with rfl | hn0
  · rw [Nat.cast_zero, kroneckerSymbol_zero_right, if_neg (by omega)]
  · obtain ⟨e, m, hm, rfl⟩ := exists_eq_two_pow_mul hn0
    have he : e ≠ 0 := by
      rintro rfl
      rw [pow_zero, one_mul] at hn
      omega
    have hχ : χ₈ (d : ZMod 8) = 0 := by rw [ZMod.χ₈_int_eq_if_mod_eight, if_pos (by omega)]
    rw [kroneckerSymbol_two_pow_mul d e hm, hχ, zero_pow he, zero_mul]

/-- At odd numbers the symbol of `d` is that of `d / 4`, so its period is `|d|`. -/
theorem jacobiSym_mod_right_of_four_dvd (hd : d % 4 = 0) {n : ℕ} (hn : n % 2 = 1) :
    J(d | n) = J(d | n % d.natAbs) := by
  have hmod : n % d.natAbs % 2 = 1 := by
    rw [Nat.mod_mod_of_dvd n (by omega : 2 ∣ d.natAbs), hn]
  have hfour : 4 * (d / 4).natAbs = d.natAbs := by omega
  rw [← jacobiSym.div_four_left hd hn, ← jacobiSym.div_four_left hd hmod,
    jacobiSym.mod_right _ (Nat.odd_iff.mpr hn), hfour]

/-! ### Periodicity at natural numbers -/

theorem kroneckerSymbol_natCast_mod (hd : d % 4 = 0 ∨ d % 4 = 1) (n : ℕ) :
    kroneckerSymbol d n = kroneckerSymbol d (n % d.natAbs : ℕ) := by
  rcases hd with hd | hd
  · have hdvd : 2 ∣ d.natAbs := by omega
    have hmod : n % d.natAbs % 2 = n % 2 := Nat.mod_mod_of_dvd n hdvd
    rcases Nat.mod_two_eq_zero_or_one n with hn | hn
    · rw [kroneckerSymbol_of_even hd hn, kroneckerSymbol_of_even hd (hmod.trans hn)]
    · rw [kroneckerSymbol_odd d hn, kroneckerSymbol_odd d (hmod.trans hn)]
      exact jacobiSym_mod_right_of_four_dvd hd hn
  · rw [kroneckerSymbol_of_one_mod_four hd, kroneckerSymbol_of_one_mod_four hd, jacobiSym.mod_left,
      Int.natCast_mod]

/-! ### Multiplicativity -/

theorem kroneckerSymbol_one_left (n : ℤ) : kroneckerSymbol 1 n = 1 := by
  rw [kroneckerSymbol_natAbs, if_neg (by omega), one_mul,
    kroneckerSymbol_of_one_mod_four (by decide)]
  exact jacobiSym.one_right _

/-- **The symbol of a discriminant is multiplicative**, at zero as well. -/
theorem kroneckerSymbol_mul (hd : d % 4 = 0 ∨ d % 4 = 1) (m n : ℤ) :
    kroneckerSymbol d (m * n) = kroneckerSymbol d m * kroneckerSymbol d n := by
  -- only 1 has a value other than 0 at zero; `-1` is not a discriminant
  rcases eq_or_ne d 1 with rfl | h1
  · simp only [kroneckerSymbol_one_left, mul_one]
  have hzero : kroneckerSymbol d 0 = 0 := by
    rw [kroneckerSymbol_zero_right, if_neg (by omega)]
  rcases eq_or_ne m 0 with rfl | hm
  · rw [zero_mul, hzero, zero_mul]
  rcases eq_or_ne n 0 with rfl | hn
  · rw [mul_zero, hzero, mul_zero]
  exact kroneckerSymbol_mul_right d hm hn

/-! ### Periodicity across zero -/

/-- The value at `-1` is the sign of the upper argument. -/
theorem kroneckerSymbol_neg_one (d : ℤ) : kroneckerSymbol d (-1) = if d < 0 then -1 else 1 := by
  rw [kroneckerSymbol_natAbs, Int.natAbs_neg, Int.natAbs_one, Nat.cast_one,
    kroneckerSymbol_one_right, mul_one]
  split_ifs <;> omega

/-- The value at `|d| - 1` is the sign of `d` too. -/
theorem kroneckerSymbol_natAbs_sub_one (h0 : d ≠ 0) (hd : d % 4 = 0 ∨ d % 4 = 1) :
    kroneckerSymbol d (d.natAbs - 1 : ℕ) = if d < 0 then -1 else 1 := by
  rcases hd with hd | hd
  · have hodd : (d.natAbs - 1) % 2 = 1 := by omega
    have hone : J(d.natAbs | d.natAbs - 1) = 1 := by
      rw [jacobiSym.mod_left, show (d.natAbs : ℤ) = 1 + (d.natAbs - 1 : ℕ) by omega,
        Int.add_emod_right, ← jacobiSym.mod_left, jacobiSym.one_left]
    rw [kroneckerSymbol_odd d hodd]
    split_ifs with h
    · have hneg : d = -(d.natAbs : ℤ) := by omega
      conv_lhs => rw [hneg]
      rw [Int.natAbs_neg, Int.natAbs_natCast, jacobiSym.neg _ (Nat.odd_iff.mpr hodd), hone,
        ZMod.χ₄_nat_three_mod_four (by omega), mul_one]
    · have hpos : d = (d.natAbs : ℤ) := by omega
      conv_lhs => rw [hpos]
      exact hone
  · rw [kroneckerSymbol_of_one_mod_four hd, ← χ₄_natAbs hd,
      ← jacobiSym.at_neg_one (Nat.odd_iff.mpr (by omega))]
    refine jacobiSym.mod_left' ?_
    rw [show ((d.natAbs - 1 : ℕ) : ℤ) = -1 + d.natAbs by omega, Int.add_emod_right]

/-- The symbol of a negative number, as that of a natural number in the same class. -/
theorem kroneckerSymbol_neg (h0 : d ≠ 0) (hd : d % 4 = 0 ∨ d % 4 = 1) (n : ℕ) :
    kroneckerSymbol d (-n) = kroneckerSymbol d ((d.natAbs - 1) * n : ℕ) := by
  rw [neg_eq_neg_one_mul, Nat.cast_mul, kroneckerSymbol_mul hd, kroneckerSymbol_mul hd,
    kroneckerSymbol_neg_one, kroneckerSymbol_natAbs_sub_one h0 hd]

/-- **The symbol of a discriminant is periodic** modulo `|d|`, across zero as well. -/
theorem kroneckerSymbol_mod (h0 : d ≠ 0) (hd : d % 4 = 0 ∨ d % 4 = 1) (n : ℤ) :
    kroneckerSymbol d (n % d.natAbs) = kroneckerSymbol d n := by
  obtain ⟨m, rfl | rfl⟩ := n.eq_nat_or_neg
  · exact (kroneckerSymbol_natCast_mod hd m).symm
  · have hclass : (((d.natAbs - 1) * m : ℕ) : ℤ) = -m + d.natAbs * m := by
      rw [Nat.cast_mul, Nat.cast_sub (by omega)]; ring
    rw [kroneckerSymbol_neg h0 hd, kroneckerSymbol_natCast_mod hd, Int.natCast_mod, hclass,
      Int.add_mul_emod_self_left]

/-! ### Zeros -/

/-- **The symbol of a discriminant vanishes** at numbers that have a factor in common with it. -/
theorem kroneckerSymbol_eq_zero (h0 : d ≠ 0) (hd : d % 4 = 0 ∨ d % 4 = 1) {n : ℤ}
    (hn : n.gcd d ≠ 1) : kroneckerSymbol d n = 0 := by
  rw [kroneckerSymbol_natAbs, mul_eq_zero]
  right
  rcases hd with hd | hd
  · rcases Nat.mod_two_eq_zero_or_one n.natAbs with h2 | h2
    · exact kroneckerSymbol_of_even hd h2
    · rw [kroneckerSymbol_odd d h2, jacobiSym.eq_zero_iff]
      refine ⟨by omega, ?_⟩
      rwa [Int.gcd_comm, Int.gcd, Int.natAbs_natCast]
  · rw [kroneckerSymbol_of_one_mod_four hd, jacobiSym.eq_zero_iff]
    exact ⟨Int.natAbs_ne_zero.mpr h0, hn⟩

/-! ### Square factors -/

theorem sq_emod_four (f : ℤ) : f ^ 2 % 4 = f % 2 := by
  rcases Int.even_or_odd' f with ⟨j, rfl | rfl⟩
  · rw [show (2 * j) ^ 2 = 4 * j ^ 2 by ring]; omega
  · rw [show (2 * j + 1) ^ 2 = 4 * (j ^ 2 + j) + 1 by ring]; omega

theorem mul_sq_emod_four {d : ℤ} (hd : d % 4 = 0 ∨ d % 4 = 1) (f : ℤ) :
    d * f ^ 2 % 4 = 0 ∨ d * f ^ 2 % 4 = 1 := by
  rw [Int.mul_emod, sq_emod_four]
  rcases hd with h | h <;> rcases Int.emod_two_eq_zero_or_one f with h2 | h2 <;>
    rw [h, h2] <;> decide

/-- An odd square is 1 modulo 4. -/
theorem mul_sq_emod_four_of_odd (d : ℤ) {f : ℤ} (hf : f % 2 = 1) : d * f ^ 2 % 4 = d % 4 := by
  rw [Int.mul_emod, sq_emod_four, hf, mul_one, Int.emod_emod_of_dvd _ dvd_rfl]

theorem natAbs_mul_sq (d : ℤ) (f : ℕ) : (d * f ^ 2).natAbs = d.natAbs * f ^ 2 := by
  rw [Int.natAbs_mul, Int.natAbs_pow, Int.natAbs_natCast]

theorem dvd_natAbs_mul_sq (d : ℤ) (f : ℕ) : f ∣ (d * f ^ 2).natAbs := by
  rw [natAbs_mul_sq]
  exact Dvd.dvd.mul_left (dvd_pow_self f two_ne_zero) _

/-- The symbol of a square only asks for common factors. -/
theorem kroneckerSymbol_sq {f : ℕ} (hf : f ≠ 0) (n : ℕ) :
    kroneckerSymbol (f ^ 2) n = if n.Coprime f then 1 else 0 := by
  have h0 : (f : ℤ) ^ 2 ≠ 0 := pow_ne_zero 2 (by exact_mod_cast hf)
  have h4 : (f : ℤ) ^ 2 % 4 = f % 2 := sq_emod_four f
  split_ifs with hcop
  · have hgcd : Int.gcd n f = 1 := by rwa [Int.gcd_natCast_natCast]
    rcases Nat.mod_two_eq_zero_or_one f with h2 | h2
    · -- an even square meets an odd `n`
      have hodd : n % 2 = 1 := by
        by_contra hn
        exact Nat.not_coprime_of_dvd_of_dvd one_lt_two (by omega : 2 ∣ n) (by omega) hcop
      rw [kroneckerSymbol_odd _ hodd, jacobiSym.sq_one' (by rwa [Int.gcd_comm])]
    · rw [kroneckerSymbol_of_one_mod_four (by omega), Int.natAbs_pow, Int.natAbs_natCast,
        jacobiSym.pow_right, jacobiSym.sq_one hgcd]
  · refine kroneckerSymbol_eq_zero h0 (by omega) fun hg => hcop ?_
    rw [← Nat.cast_pow, Int.gcd_natCast_natCast] at hg
    exact (Nat.coprime_pow_right_iff two_pos n f).mp hg

/-- **A square factor of the discriminant** removes the numbers that are not coprime to it. -/
theorem kroneckerSymbol_mul_sq (a : ℤ) {f n : ℕ} (hf : f ≠ 0) (hn : n ≠ 0) :
    kroneckerSymbol (a * f ^ 2) n = if n.Coprime f then kroneckerSymbol a n else 0 := by
  rw [kroneckerSymbol_mul_left _ _ hn, kroneckerSymbol_sq hf, mul_ite, mul_one, mul_zero]

end ZetaValues.Residue
