import ZetaValues.Proofs.Discriminant
import Mathlib.Data.Nat.ChineseRemainder
import Mathlib.FieldTheory.Finite.Basic

/-! # Fundamental discriminants have primitive characters

The character of `d` comes from a smaller modulus `m` if its value is 1 at every number that is 1
modulo `m` and has no factor in common with `d`. If `d = e f ^ 2` for a discriminant `e`, it comes
from `|e|` (`kroneckerSymbol_eq_one_of_mul_sq`). If `d` is fundamental, each prime `p` that divides
it has a number that is 1 modulo `|d| / p` and has the value `-1` (`Fundamental.exists_value`): for
an odd `p` it is not a square modulo `p`, and for 2 it is `|d| / 2 + 1`. -/

namespace ZetaValues.Residue

open NumberTheorySymbols
open ZMod (χ₄ χ₈)

variable {d e : ℤ}

/-! ### Numbers that are 1 modulo a discriminant -/

theorem kroneckerSymbol_of_modEq_one (he : e % 4 = 0 ∨ e % 4 = 1) {a : ℕ}
    (ha : a ≡ 1 [MOD e.natAbs]) : kroneckerSymbol e a = 1 := by
  rw [kroneckerSymbol_natCast_mod he, ha, ← kroneckerSymbol_natCast_mod he, Nat.cast_one,
    kroneckerSymbol_one_right]

/-- The smaller modulus of a discriminant with a square factor. -/
theorem kroneckerSymbol_eq_one_of_mul_sq (he : e % 4 = 0 ∨ e % 4 = 1) {f a : ℕ} (hf : f ≠ 0)
    (ha0 : a ≠ 0) (ha : a ≡ 1 [MOD e.natAbs]) (hcop : a.Coprime f) :
    kroneckerSymbol (e * f ^ 2) a = 1 := by
  rw [kroneckerSymbol_mul_sq _ hf ha0, if_pos hcop, kroneckerSymbol_of_modEq_one he ha]

/-! ### Odd primes -/

/-- An odd prime with the sign that makes it 1 modulo 4 leaves a discriminant. -/
theorem exists_eq_signed_mul (hd : d % 4 = 0 ∨ d % 4 = 1) {p : ℕ} (hp : p % 2 = 1)
    (hdvd : p ∣ d.natAbs) :
    ∃ q e : ℤ, d = q * e ∧ q.natAbs = p ∧ q % 4 = 1 ∧ (e % 4 = 0 ∨ e % 4 = 1) := by
  obtain ⟨q, hqp, hq4⟩ : ∃ q : ℤ, q.natAbs = p ∧ q % 4 = 1 := by
    by_cases h : p % 4 = 1
    · exact ⟨p, by omega, by omega⟩
    · exact ⟨-p, by omega, by omega⟩
  obtain ⟨e, rfl⟩ : q ∣ d := Int.natAbs_dvd_natAbs.mp (by rwa [hqp])
  have he4 : (q * e) % 4 = e % 4 := by
    rw [Int.mul_emod, hq4, one_mul, Int.emod_emod_of_dvd _ dvd_rfl]
  rw [he4] at hd
  exact ⟨q, e, rfl, hqp, hq4, hd⟩

theorem exists_jacobiSym_eq_neg_one {p : ℕ} (hp : p.Prime) (h2 : p ≠ 2) :
    ∃ r : ℕ, J(r | p) = -1 := by
  have : Fact p.Prime := ⟨hp⟩
  obtain ⟨x, hx⟩ := FiniteField.exists_nonsquare (F := ZMod p) (by rwa [ZMod.ringChar_zmod_n])
  refine ⟨x.val, ?_⟩
  rw [← jacobiSym.legendreSym.to_jacobiSym, legendreSym.eq_neg_one_iff', ZMod.natCast_zmod_val]
  exact hx

theorem ne_zero_of_kroneckerSymbol {a : ℕ} (h : kroneckerSymbol d a = -1) : a ≠ 0 := by
  rintro rfl
  rw [Nat.cast_zero, kroneckerSymbol_zero_right] at h
  split_ifs at h

/-- At an odd prime whose square does not divide, a number that is 1 modulo the rest only has the
symbol of the prime. -/
theorem exists_value_of_odd (hd : d % 4 = 0 ∨ d % 4 = 1) {p : ℕ} (hp : p.Prime) (h2 : p ≠ 2)
    (hdvd : p ∣ d.natAbs) (hsq : ¬ (p * p : ℤ) ∣ d) :
    ∃ a ≤ d.natAbs, a ≡ 1 [MOD d.natAbs / p] ∧ kroneckerSymbol d a = -1 := by
  obtain ⟨q, e, rfl, hqp, hq4, he⟩ :=
    exists_eq_signed_mul hd (hp.eq_two_or_odd.resolve_left h2) hdvd
  have hnot : ¬ p ∣ e.natAbs := by
    intro h
    refine hsq (Int.natAbs_dvd_natAbs.mp ?_)
    rw [Int.natAbs_mul, Int.natAbs_mul, Int.natAbs_natCast, hqp]
    exact Nat.mul_dvd_mul_left p h
  have he0 : e.natAbs ≠ 0 := fun h => hnot (h ▸ dvd_zero p)
  have hcop : p.Coprime e.natAbs := hp.coprime_iff_not_dvd.mpr hnot
  obtain ⟨r, hr⟩ := exists_jacobiSym_eq_neg_one hp h2
  obtain ⟨a, ⟨har, ha1⟩, hlt⟩ : ∃ a, (a ≡ r [MOD p] ∧ a ≡ 1 [MOD e.natAbs]) ∧ a < p * e.natAbs :=
    ⟨_, (Nat.chineseRemainder hcop r 1).2, Nat.chineseRemainder_lt_mul hcop r 1 hp.ne_zero he0⟩
  have hq : kroneckerSymbol q a = -1 := by
    rw [kroneckerSymbol_of_one_mod_four hq4, hqp, jacobiSym.mod_left, ← Int.natCast_mod, har,
      Int.natCast_mod, ← jacobiSym.mod_left, hr]
  rw [Int.natAbs_mul, hqp, Nat.mul_div_cancel_left _ hp.pos]
  refine ⟨a, hlt.le, ha1, ?_⟩
  rw [kroneckerSymbol_mul_left _ _ (ne_zero_of_kroneckerSymbol hq), hq,
    kroneckerSymbol_of_modEq_one he ha1, mul_one]

/-! ### The prime 2 -/

/-- Modulo `2 |m| + 1` the number `4 m` is `-2` or 2, by the sign of `m`. -/
theorem kroneckerSymbol_four_mul {m : ℤ} (hm : m % 4 = 2 ∨ m % 4 = 3) :
    kroneckerSymbol (4 * m) (2 * m.natAbs + 1 : ℕ) = -1 := by
  set a : ℕ := 2 * m.natAbs + 1 with ha
  have hodd : Odd a := ⟨m.natAbs, ha⟩
  rw [kroneckerSymbol_odd _ (Nat.odd_iff.mp hodd)]
  rcases lt_or_ge m 0 with hneg | hpos
  · have hmod : 4 * m % a = 2 % a := by
      rw [show 4 * m = 2 + a * (-2) by omega, Int.add_mul_emod_self_left]
    rw [jacobiSym.mod_left' hmod, jacobiSym.at_two hodd, ZMod.χ₈_nat_eq_if_mod_eight,
      if_neg (by omega), if_neg (by omega)]
  · have hmod : 4 * m % a = -2 % a := by
      rw [show 4 * m = -2 + a * 2 by omega, Int.add_mul_emod_self_left]
    rw [jacobiSym.mod_left' hmod, jacobiSym.at_neg_two hodd, ZMod.χ₈'_nat_eq_if_mod_eight,
      if_neg (by omega), if_neg (by omega)]

end ZetaValues.Residue

namespace ZetaValues

open Exact Residue

/-! ### Fundamental discriminants -/

/-- **Each prime of a fundamental discriminant is needed**: a number that is 1 modulo the rest of it
may have the value `-1`. -/
theorem Fundamental.exists_value {d : ℤ} (hd : Fundamental d) {p : ℕ} (hp : p.Prime)
    (hdvd : p ∣ d.natAbs) :
    ∃ a ≤ d.natAbs, a ≡ 1 [MOD d.natAbs / p] ∧ kroneckerSymbol d a = -1 := by
  by_cases h2 : p = 2
  · subst h2
    rcases hd with ⟨h1, -⟩ | ⟨m, rfl, hm, -⟩
    · omega
    · rw [show (4 * m).natAbs / 2 = 2 * m.natAbs by omega]
      exact ⟨2 * m.natAbs + 1, by omega, Nat.add_modEq_left, kroneckerSymbol_four_mul hm⟩
  · exact exists_value_of_odd hd.mod_four hp h2 hdvd (hd.not_sq_dvd hp h2)

/-- A proper divisor divides what is left without one of the primes. -/
theorem exists_prime_dvd_div {m n : ℕ} (hm : m ∈ n.properDivisors) :
    ∃ p, p.Prime ∧ p ∣ n ∧ m ∣ n / p := by
  obtain ⟨⟨c, rfl⟩, hlt⟩ := Nat.mem_properDivisors.mp hm
  have hc : c ≠ 1 := by
    rintro rfl
    rw [mul_one] at hlt
    exact lt_irrefl m hlt
  obtain ⟨p, hp, b, rfl⟩ := Nat.exists_prime_and_dvd hc
  refine ⟨p, hp, ⟨m * b, by ring⟩, ⟨b, ?_⟩⟩
  rw [show m * (p * b) = p * (m * b) by ring, Nat.mul_div_cancel_left _ hp.pos]

/-- **The values do not come from a proper divisor** of a fundamental discriminant. -/
theorem Fundamental.exists_value_of_properDivisor {d : ℤ} (hd : Fundamental d) {m : ℕ}
    (hm : m ∈ d.natAbs.properDivisors) :
    ∃ a ≤ d.natAbs, 1 ≤ a ∧ Int.gcd a d = 1 ∧ a ≡ 1 [MOD m] ∧ kroneckerSymbol d a = -1 := by
  obtain ⟨p, hp, hdvd, hmp⟩ := exists_prime_dvd_div hm
  obtain ⟨a, hle, ha1, hval⟩ := hd.exists_value hp hdvd
  have ha0 : a ≠ 0 := ne_zero_of_kroneckerSymbol hval
  have hgcd : Int.gcd a d = 1 := by
    by_contra hg
    rw [kroneckerSymbol_eq_zero (by omega) hd.mod_four hg] at hval
    exact absurd hval (by decide)
  exact ⟨a, hle, by omega, hgcd, ha1.of_dvd hmp, hval⟩

/-- **A discriminant that is not fundamental** has its values from a proper divisor. -/
theorem exists_properDivisor {d : ℤ} (h0 : d ≠ 0) (hd : d % 4 = 0 ∨ d % 4 = 1)
    (h : ¬ Fundamental d) : ∃ m ∈ d.natAbs.properDivisors, ∀ a : ℕ, a ≠ 0 → Int.gcd a d = 1 →
      a ≡ 1 [MOD m] → kroneckerSymbol d a = 1 := by
  obtain ⟨e, f, hf, rfl, he⟩ := exists_eq_mul_sq h0 hd h
  have hpos : 0 < e.natAbs := Int.natAbs_pos.mpr (left_ne_zero_of_mul h0)
  have hsq : 1 < f ^ 2 := Nat.one_lt_pow two_ne_zero hf
  have hproper : e.natAbs ∈ (e * f ^ 2).natAbs.properDivisors := by
    rw [natAbs_mul_sq, Nat.mem_properDivisors]
    exact ⟨Dvd.intro _ rfl, lt_mul_of_one_lt_right hpos hsq⟩
  refine ⟨e.natAbs, hproper, fun a ha0 hgcd ha1 => ?_⟩
  have hcop : a.Coprime f := Nat.Coprime.coprime_dvd_right (dvd_natAbs_mul_sq e f) hgcd
  exact kroneckerSymbol_eq_one_of_mul_sq he (by omega) ha0 ha1 hcop

/-- **The fundamental discriminants are those with a primitive character**: for every proper divisor
`m` of `|d|` there is a number without a common factor with `d` that is 1 modulo `m` and where the
value is `-1`, so that the values do not come from the modulus `m`. -/
theorem isFundamental_iff_primitive {d : Int64} (hd : IsDiscriminant d) :
    IsFundamental d ↔ ∀ m ∈ d.toInt.natAbs.properDivisors,
      ∃ a : UInt64, 1 ≤ a.toNat ∧ a.toNat ≤ d.toInt.natAbs ∧ Int.gcd a.toNat d.toInt = 1 ∧
        a.toNat ≡ 1 [MOD m] ∧ kronecker d a = -1 := by
  have h0 : d.toInt ≠ 0 := fun h => hd.1 (Int64.toInt_inj.mp h)
  rw [isFundamental_iff]
  constructor
  · intro hfund m hm
    obtain ⟨a, hle, hpos, hgcd, ha1, hval⟩ := hfund.exists_value_of_properDivisor hm
    have hword : (UInt64.ofNat a).toNat = a := by
      have hlt := (magnitude d).toNat_lt
      rw [toNat_magnitude] at hlt
      exact UInt64.toNat_ofNat_of_lt' (by unfold UInt64.size; omega)
    refine ⟨.ofNat a, ?_⟩
    rw [kronecker_eq, hword]
    exact ⟨hpos, hle, hgcd, ha1, hval⟩
  · intro hprim
    by_contra hfund
    obtain ⟨m, hm, hone⟩ := exists_properDivisor h0 hd.2 hfund
    obtain ⟨a, hpos, -, hgcd, ha1, hval⟩ := hprim m hm
    rw [kronecker_eq, hone a.toNat (by omega) hgcd ha1] at hval
    exact absurd hval (by decide)

/-- The discriminant `-20` is fundamental, and its values do not come from the modulus 4; those of
`-12` come from a smaller modulus. -/
theorem isFundamental_iff_primitive_minus_twenty :
    IsDiscriminant (-20) ∧ (∃ a : UInt64, 1 ≤ a.toNat ∧ a.toNat ≤ 20 ∧
        Int.gcd a.toNat (-20) = 1 ∧ a.toNat ≡ 1 [MOD 4] ∧ kronecker (-20) a = -1) ∧
      IsDiscriminant (-12) ∧ ¬ ∀ m ∈ (12 : ℕ).properDivisors, ∃ a : UInt64, 1 ≤ a.toNat ∧
        a.toNat ≤ 12 ∧ Int.gcd a.toNat (-12) = 1 ∧ a.toNat ≡ 1 [MOD m] ∧
          kronecker (-12) a = -1 := by
  have h20 : IsDiscriminant (-20) := by decide
  have h12 : IsDiscriminant (-12) := by decide
  have hfund : IsFundamental (-20) := by
    have h5 : Squarefree (-5 : ℤ) := Int.squarefree_natAbs.mp Nat.prime_five.prime.squarefree
    exact (isFundamental_iff (-20)).mpr (Or.inr ⟨-5, rfl, by decide, h5⟩)
  have hnot : ¬ IsFundamental (-12) := by decide
  refine ⟨h20, ?_, h12, ?_⟩
  · exact (isFundamental_iff_primitive h20).mp hfund 4 (by decide)
  · exact fun h => hnot ((isFundamental_iff_primitive h12).mpr h)

end ZetaValues
