import ZetaValues.Residue.Kronecker
import ZetaValues.Proofs.Residue.Jacobi
import Mathlib.Data.Nat.Factorization.Basic

/-! # The Kronecker symbol

`kroneckerSymbol a n` is the symbol by the factors of `n`: the sign, the exponent of 2, and the odd
part, whose Jacobi symbol is a product over its prime factors. It is multiplicative in a nonzero `n`
(`kroneckerSymbol_mul_right`). The functions on words, which never look for prime factors, compute
it over their whole range (`kronecker_eq`, `kroneckerInt_eq`). -/

namespace ZetaValues.Residue

open Exact NumberTheorySymbols
open ZMod (χ₈)

/-- **The Kronecker symbol** `(a/n)`. At 2 it is the character modulo 8, and at `-1` the sign of
`a`. -/
def kroneckerSymbol (a n : ℤ) : ℤ :=
  if n = 0 then
    if a = 1 ∨ a = -1 then 1 else 0
  else
    (if n < 0 ∧ a < 0 then -1 else 1) *
      (χ₈ a ^ n.natAbs.factorization 2 * J(a | ordCompl[2] n.natAbs))

theorem kroneckerSymbol_zero_right (a : ℤ) :
    kroneckerSymbol a 0 = if a = 1 ∨ a = -1 then 1 else 0 := if_pos rfl

theorem kroneckerSymbol_natCast (a : ℤ) {n : ℕ} (hn : n ≠ 0) :
    kroneckerSymbol a n = χ₈ a ^ n.factorization 2 * J(a | ordCompl[2] n) := by
  rw [kroneckerSymbol, if_neg (by exact_mod_cast hn), if_neg (by omega), one_mul,
    Int.natAbs_natCast]

/-- A negative `n` counts by the sign of `a`. -/
theorem kroneckerSymbol_natAbs (a n : ℤ) :
    kroneckerSymbol a n = (if n < 0 ∧ a < 0 then -1 else 1) * kroneckerSymbol a n.natAbs := by
  rcases eq_or_ne n 0 with rfl | hn
  · rw [if_neg (by omega), one_mul]; rfl
  · rw [kroneckerSymbol_natCast a (Int.natAbs_ne_zero.mpr hn), kroneckerSymbol, if_neg hn]

/-- The symbol of a number that is split into a power of 2 and an odd part. -/
theorem kroneckerSymbol_two_pow_mul (a : ℤ) (e : ℕ) {m : ℕ} (hm : m % 2 = 1) :
    kroneckerSymbol a (2 ^ e * m : ℕ) = χ₈ a ^ e * J(a | m) := by
  have hm0 : m ≠ 0 := by omega
  have hpow : 2 ^ e ≠ 0 := pow_ne_zero e two_ne_zero
  have hf : (2 ^ e * m).factorization 2 = e := by
    rw [Nat.factorization_mul hpow hm0, Finsupp.add_apply, Nat.prime_two.factorization_pow,
      Finsupp.single_eq_same, Nat.factorization_eq_zero_of_not_dvd (by omega), add_zero]
  rw [kroneckerSymbol_natCast a (mul_ne_zero hpow hm0), hf,
    Nat.mul_div_cancel_left m (Nat.pos_of_ne_zero hpow)]

theorem kroneckerSymbol_odd (a : ℤ) {m : ℕ} (hm : m % 2 = 1) : kroneckerSymbol a m = J(a | m) := by
  have h := kroneckerSymbol_two_pow_mul a 0 hm
  rwa [pow_zero, pow_zero, one_mul, one_mul] at h

theorem kroneckerSymbol_one_right (a : ℤ) : kroneckerSymbol a 1 = 1 :=
  (kroneckerSymbol_odd a (m := 1) rfl).trans (jacobiSym.one_right a)

/-- Every nonzero number is split in this way. -/
theorem exists_eq_two_pow_mul {n : ℕ} (hn : n ≠ 0) : ∃ e m, m % 2 = 1 ∧ n = 2 ^ e * m := by
  obtain ⟨e, m, hm, hnm⟩ := Nat.exists_eq_pow_mul_and_not_dvd hn 2 (by decide)
  exact ⟨e, m, by omega, hnm⟩

/-- **The symbol is multiplicative in a nonzero lower argument.** -/
theorem kroneckerSymbol_mul_right (a : ℤ) {m n : ℤ} (hm : m ≠ 0) (hn : n ≠ 0) :
    kroneckerSymbol a (m * n) = kroneckerSymbol a m * kroneckerSymbol a n := by
  have hnat : kroneckerSymbol a (m * n).natAbs =
      kroneckerSymbol a m.natAbs * kroneckerSymbol a n.natAbs := by
    obtain ⟨e, u, hu, hmu⟩ := exists_eq_two_pow_mul (Int.natAbs_ne_zero.mpr hm)
    obtain ⟨f, v, hv, hnv⟩ := exists_eq_two_pow_mul (Int.natAbs_ne_zero.mpr hn)
    have huv : u * v % 2 = 1 := by rw [Nat.mul_mod, hu, hv]
    rw [Int.natAbs_mul, hmu, hnv, show 2 ^ e * u * (2 ^ f * v) = 2 ^ (e + f) * (u * v) by ring,
      kroneckerSymbol_two_pow_mul a _ huv, kroneckerSymbol_two_pow_mul a e hu,
      kroneckerSymbol_two_pow_mul a f hv, jacobiSym.mul_right' a (by omega) (by omega)]
    ring
  have hsign : (if m * n < 0 ∧ a < 0 then (-1 : ℤ) else 1) =
      (if m < 0 ∧ a < 0 then -1 else 1) * (if n < 0 ∧ a < 0 then -1 else 1) := by
    rcases lt_or_gt_of_ne hm with h1 | h1 <;> rcases lt_or_gt_of_ne hn with h2 | h2
    · have := mul_pos_of_neg_of_neg h1 h2
      split_ifs <;> omega
    · have := mul_neg_of_neg_of_pos h1 h2
      split_ifs <;> omega
    · have := mul_neg_of_pos_of_neg h1 h2
      split_ifs <;> omega
    · have := mul_pos h1 h2
      split_ifs <;> omega
  rw [kroneckerSymbol_natAbs a (m * n), kroneckerSymbol_natAbs a m, kroneckerSymbol_natAbs a n,
    hnat, hsign]
  ring

theorem kroneckerSymbol_mul_left (a b : ℤ) {n : ℕ} (hn : n ≠ 0) :
    kroneckerSymbol (a * b) n = kroneckerSymbol a n * kroneckerSymbol b n := by
  rw [kroneckerSymbol_natCast _ hn, kroneckerSymbol_natCast _ hn, kroneckerSymbol_natCast _ hn,
    Int.cast_mul, map_mul, mul_pow, jacobiSym.mul_left]
  ring

/-! ### The functions on words -/

/-- What is split off are all factors 2. -/
theorem splitTwos_spec (n : UInt64) (hn : n.toNat ≠ 0) :
    (splitTwos n).2.toNat % 2 = 1 ∧ n.toNat = 2 ^ (splitTwos n).1 * (splitTwos n).2.toNat := by
  induction n using splitTwos.induct with
  | case1 n h =>
    have hodd : ¬ n.toNat % 2 = 0 := by
      rcases h with rfl | h
      · exact absurd rfl hn
      · rwa [Ne, mod_two_eq_zero_iff] at h
    rw [splitTwos, if_pos h]
    exact ⟨by show n.toNat % 2 = 1; omega, (one_mul _).symm⟩
  | case2 n h e m hem ih =>
    have heven : n.toNat % 2 = 0 :=
      (mod_two_eq_zero_iff n).mp (by_contra fun h2 => h (Or.inr h2))
    have hhalf : (n / 2).toNat = n.toNat / 2 := toNat_half n
    obtain ⟨hodd, hsplit⟩ := ih (by omega)
    rw [splitTwos, if_neg h]
    refine ⟨hodd, ?_⟩
    show n.toNat = 2 ^ ((splitTwos (n / 2)).1 + 1) * (splitTwos (n / 2)).2.toNat
    rw [pow_succ, mul_right_comm, ← hsplit, hhalf]
    omega

theorem toNat_magnitude (a : Int64) : (magnitude a).toNat = a.toInt.natAbs := by
  have h1 := a.toInt_lt
  have h2 := a.le_toInt
  exact UInt64.toNat_ofNat_of_lt' (by unfold UInt64.size; omega)

theorem toNat_residue (a : Int64) {n : UInt64} (hn : n.toNat ≠ 0) :
    ((residue a n).toNat : ℤ) = a.toInt % n.toNat := by
  have h0 := Int.emod_nonneg a.toInt (b := n.toNat) (by omega)
  have h1 := Int.emod_lt_of_pos a.toInt (b := n.toNat) (by omega)
  have h2 := n.toNat_lt_size
  rw [residue, UInt64.toNat_ofNat_of_lt' (by omega), Int.toNat_of_nonneg h0]

/-- Of a power of `χ₈` at an odd number only the parity counts. -/
theorem χ₈_pow_eq_ite {a : ℤ} (ha : a % 2 = 1) (e : ℕ) :
    χ₈ a ^ e = if e % 2 = 0 then 1 else symbolOfTwo a := by
  have hsq : symbolOfTwo a ^ 2 = 1 := by unfold symbolOfTwo; split_ifs <;> rfl
  rw [← symbolOfTwo_eq ha, ← Nat.div_add_mod e 2, pow_add, pow_mul, hsq, one_pow, one_mul,
    Nat.mul_add_mod, Nat.mod_mod]
  rcases Nat.mod_two_eq_zero_or_one e with h | h <;> simp [h]

/-- **The symbol on words**, for a natural lower argument. -/
theorem kronecker_eq (a : Int64) (n : UInt64) :
    kronecker a n = kroneckerSymbol a.toInt n.toNat := by
  by_cases h0 : n = 0
  · subst h0
    rw [kronecker, if_pos rfl, UInt64.toNat_zero, Nat.cast_zero, kroneckerSymbol_zero_right]
    simp only [← Int64.toInt_inj]
    rfl
  have hn : n.toNat ≠ 0 := fun h => h0 (UInt64.toNat_inj.mp h)
  obtain ⟨hodd, hsplit⟩ := splitTwos_spec n hn
  rw [hsplit, kroneckerSymbol_two_pow_mul _ _ hodd, kronecker, if_neg h0]
  by_cases heven : a.toInt % 2 = 0 ∧ n % 2 = 0
  · have he : (splitTwos n).1 ≠ 0 := by
      intro he
      rw [he, pow_zero, one_mul] at hsplit
      have := (mod_two_eq_zero_iff n).mp heven.2
      omega
    have hχ : χ₈ (a.toInt : ZMod 8) = 0 := by
      rw [ZMod.χ₈_int_eq_if_mod_eight, if_pos heven.1]
    rw [if_pos heven, hχ, zero_pow he, zero_mul]
  · -- an even `a` meets an odd `n` here, with no factor 2 to count
    have hχ : χ₈ (a.toInt : ZMod 8) ^ (splitTwos n).1 =
        if (splitTwos n).1 % 2 = 0 then 1 else symbolOfTwo a.toInt := by
      rcases Int.emod_two_eq_zero_or_one a.toInt with ha | ha
      · rw [splitTwos, if_pos (Or.inr fun h => heven ⟨ha, h⟩)]; exact pow_zero _
      · exact χ₈_pow_eq_ite ha _
    rw [if_neg heven]
    show _ * oddSymbol _ _ = _
    rw [oddSymbol_eq _ _ hodd, toNat_residue a (by omega), ← jacobiSym.mod_left, hχ]

/-- **The symbol on words.** -/
theorem kroneckerInt_eq (a n : Int64) : kroneckerInt a n = kroneckerSymbol a.toInt n.toInt := by
  have hmag : (magnitude n).toNat = n.toInt.natAbs := toNat_magnitude n
  rw [kroneckerSymbol_natAbs, ← hmag, ← kronecker_eq, kroneckerInt]
  split_ifs
  · rw [neg_one_mul]
  · rw [one_mul]

end ZetaValues.Residue
