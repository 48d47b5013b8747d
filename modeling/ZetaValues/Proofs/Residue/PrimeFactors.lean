import ZetaValues.Proofs.Residue.Kronecker
import Mathlib.Algebra.BigOperators.Group.Finset.Lemmas

/-! # Symbols by prime factors

The symbols of an odd prime are the Legendre symbols, and those of 2 go by the residue modulo 8.
Both symbols of words are products of these, one factor for each prime factor of the modulus: the
Jacobi symbol of an odd modulus (`jacobi_eq_prod`), and the Kronecker symbol of any number that is
not zero, where a negative number adds the sign (`kronecker_eq_symbolByPrimes`). -/

namespace ZetaValues.Residue

open Exact NumberTheorySymbols
open ZMod (χ₈)

/-! ### Odd primes -/

/-- **The Legendre symbol** `(a/p)`: it is 0 if `p` divides `a`, and else 1 exactly at the squares
modulo `p`. -/
def legendre (a : ℤ) (p : ℕ) : ℤ :=
  if (p : ℤ) ∣ a then 0 else if ∃ x < p, (x : ℤ) ^ 2 ≡ a [ZMOD p] then 1 else -1

theorem isSquare_iff {p : ℕ} [NeZero p] (a : ℤ) :
    IsSquare (a : ZMod p) ↔ ∃ x < p, (x : ℤ) ^ 2 ≡ a [ZMOD p] := by
  constructor
  · rintro ⟨y, hy⟩
    refine ⟨y.val, y.val_lt, ?_⟩
    rw [← ZMod.intCast_eq_intCast_iff, hy]
    push_cast
    rw [ZMod.natCast_zmod_val, sq]
  · rintro ⟨x, -, hx⟩
    refine ⟨x, ?_⟩
    rw [← (ZMod.intCast_eq_intCast_iff _ _ _).mpr hx]
    push_cast
    exact sq _

theorem legendre_eq (a : ℤ) (p : ℕ) [Fact p.Prime] : legendre a p = legendreSym p a := by
  have hzero : (a : ZMod p) = 0 ↔ (p : ℤ) ∣ a := ZMod.intCast_zmod_eq_zero_iff_dvd a p
  unfold legendre
  split_ifs with h0 hsq
  · exact ((legendreSym.eq_zero_iff p a).mpr (hzero.mpr h0)).symm
  · rw [← hzero] at h0
    exact ((legendreSym.eq_one_iff p h0).mpr ((isSquare_iff a).mpr hsq)).symm
  · exact ((legendreSym.eq_neg_one_iff p).mpr fun h => hsq ((isSquare_iff a).mp h)).symm

theorem jacobiSym_eq_prod (a : ℤ) (n : ℕ) :
    J(a | n) = (n.primeFactorsList.map (legendre a)).prod := by
  rw [jacobiSym, ← List.pmap_eq_map (H := fun _ h => Nat.prime_of_mem_primeFactorsList h)]
  refine congrArg List.prod (List.pmap_congr_left _ fun p hp _ _ => ?_)
  have : Fact p.Prime := ⟨Nat.prime_of_mem_primeFactorsList hp⟩
  exact (legendre_eq a p).symm

theorem mod_two_eq_one_iff (n : UInt64) : n % 2 = 1 ↔ n.toNat % 2 = 1 := by
  rw [← UInt64.toNat_inj, UInt64.toNat_mod]; rfl

theorem jacobi_of_odd (a : UInt64) {n : UInt64} (hn : n.toNat % 2 = 1) :
    jacobi a n = .ok J(a.toNat | n.toNat) := by
  rw [jacobi, if_pos ((mod_two_eq_one_iff n).mpr hn), oddSymbol_eq _ _ hn, UInt64.toNat_mod,
    Int.natCast_mod, ← jacobiSym.mod_left]

/-- **The Jacobi symbol of words** is the product of the Legendre symbols of the prime factors of an
odd modulus, each as often as it divides; for an even modulus it is refused. -/
theorem jacobi_eq_prod (a n : UInt64) :
    (n.toNat % 2 = 1 →
        jacobi a n = .ok (n.toNat.primeFactorsList.map (legendre a.toNat)).prod) ∧
      (n.toNat % 2 = 0 → jacobi a n = .error .evenModulus) := by
  constructor
  · intro hn
    rw [jacobi_of_odd a hn, jacobiSym_eq_prod]
  · intro hn
    have hodd : ¬ n % 2 = 1 := by
      rw [mod_two_eq_one_iff]
      omega
    rw [jacobi, if_neg hodd]

/-- The modulus 45 has the prime factor 3 twice, so only 5 counts at a number that 3 does not
divide; 0 is even. -/
theorem jacobi_eq_prod_forty_five :
    (45 : UInt64).toNat % 2 = 1 ∧ jacobi 7 45 = .ok (legendre 7 3 * (legendre 7 3 * legendre 7 5)) ∧
      jacobi 7 45 = .ok (-1) ∧
      (0 : UInt64).toNat % 2 = 0 ∧ jacobi 7 0 = .error .evenModulus := by
  have hn : (45 : UInt64).toNat % 2 = 1 := by decide
  have h0 : (0 : UInt64).toNat % 2 = 0 := by decide
  have hlist : (45 : UInt64).toNat.primeFactorsList = [3, 3, 5] := by decide +kernel
  have hprod : jacobi 7 45 = .ok (legendre 7 3 * (legendre 7 3 * legendre 7 5)) := by
    rw [(jacobi_eq_prod 7 45).1 hn, hlist]
    simp only [List.map_cons, List.map_nil, List.prod_cons, List.prod_nil, mul_one]
    rfl
  have hvalue : legendre 7 3 * (legendre 7 3 * legendre 7 5) = -1 := by decide
  exact ⟨hn, hprod, by rw [hprod, hvalue], h0, (jacobi_eq_prod 7 0).2 h0⟩

/-! ### Every prime -/

/-- The symbol `(a/p)` of a prime; at 2 it goes by the residue of `a` modulo 8. -/
def symbolAtPrime (a : ℤ) (p : ℕ) : ℤ :=
  if p = 2 then
    if a % 2 = 0 then 0 else if a % 8 = 1 ∨ a % 8 = 7 then 1 else -1
  else
    legendre a p

/-- **The Kronecker symbol by prime factors**: the product over the prime factors of `n`, with their
exponents, and the sign of `a` for a negative `n`. -/
def symbolByPrimes (a n : ℤ) : ℤ :=
  if n = 0 then
    if a = 1 ∨ a = -1 then 1 else 0
  else
    (if n < 0 ∧ a < 0 then -1 else 1) *
      ∏ p ∈ n.natAbs.primeFactors, symbolAtPrime a p ^ n.natAbs.factorization p

theorem symbolAtPrime_two (a : ℤ) : symbolAtPrime a 2 = χ₈ a :=
  (ZMod.χ₈_int_eq_if_mod_eight a).symm

theorem symbolAtPrime_of_ne_two (a : ℤ) {p : ℕ} (hp : p ≠ 2) : symbolAtPrime a p = legendre a p :=
  if_neg hp

/-- The exponents count how often a prime factor occurs. -/
theorem prod_primeFactors_eq (f : ℕ → ℤ) (n : ℕ) :
    ∏ p ∈ n.primeFactors, f p ^ n.factorization p = (n.primeFactorsList.map f).prod := by
  rw [Finset.prod_list_map_count]
  refine Finset.prod_congr rfl fun p _ => ?_
  rw [Nat.primeFactorsList_count_eq]

/-- Of a power of 2 and an odd part, the first gives a power of the symbol at 2, and the second
Legendre symbols only. -/
theorem prod_two_pow_mul (a : ℤ) (e : ℕ) {m : ℕ} (hm : m % 2 = 1) :
    ((2 ^ e * m).primeFactorsList.map (symbolAtPrime a)).prod = χ₈ a ^ e * J(a | m) := by
  have hperm := Nat.perm_primeFactorsList_mul (pow_ne_zero e two_ne_zero) (by omega : m ≠ 0)
  have hodd : m.primeFactorsList.map (symbolAtPrime a) = m.primeFactorsList.map (legendre a) := by
    refine List.map_congr_left fun p hp => symbolAtPrime_of_ne_two a ?_
    rintro rfl
    have := Nat.dvd_of_mem_primeFactorsList hp
    omega
  rw [(hperm.map _).prod_eq, List.map_append, List.prod_append, hodd, ← jacobiSym_eq_prod,
    Nat.prime_two.primeFactorsList_pow, List.map_replicate, List.prod_replicate, symbolAtPrime_two]

theorem kroneckerSymbol_eq_symbolByPrimes (a n : ℤ) : kroneckerSymbol a n = symbolByPrimes a n := by
  rcases eq_or_ne n 0 with rfl | hn
  · rw [kroneckerSymbol_zero_right, symbolByPrimes, if_pos rfl]
  · have hn' := Int.natAbs_ne_zero.mpr hn
    obtain ⟨e, m, hm, hsplit⟩ := exists_eq_two_pow_mul hn'
    rw [kroneckerSymbol_natAbs, symbolByPrimes, if_neg hn, prod_primeFactors_eq, hsplit,
      prod_two_pow_mul a e hm, kroneckerSymbol_two_pow_mul a e hm]

/-! ### Words -/

/-- Every value is 0, 1 or `-1`. -/
theorem natAbs_kroneckerSymbol_le (a n : ℤ) : (kroneckerSymbol a n).natAbs ≤ 1 := by
  rcases eq_or_ne n 0 with rfl | hn
  · rw [kroneckerSymbol_zero_right]
    split_ifs <;> decide
  · have hsign : (if n < 0 ∧ a < 0 then (-1 : ℤ) else 1).natAbs ≤ 1 := by split_ifs <;> decide
    have htwo : (χ₈ (a : ZMod 8)).natAbs ≤ 1 := by
      rw [ZMod.χ₈_int_eq_if_mod_eight]
      split_ifs <;> decide
    have hodd : J(a | ordCompl[2] n.natAbs).natAbs ≤ 1 := by
      rcases jacobiSym.trichotomy a (ordCompl[2] n.natAbs) with h | h | h <;> rw [h] <;> decide
    rw [kroneckerSymbol, if_neg hn, Int.natAbs_mul, Int.natAbs_mul, Int.natAbs_pow]
    calc _ ≤ 1 * (1 ^ n.natAbs.factorization 2 * 1) :=
          Nat.mul_le_mul hsign (Nat.mul_le_mul (Nat.pow_le_pow_left htwo _) hodd)
      _ = 1 := by rw [one_pow, mul_one, mul_one]

/-- What is left of a modulus without its factors 2 is a modulus that the Jacobi symbol accepts, and
the residue is reduced already. -/
theorem jacobi_residue (a : Int64) {n : UInt64} (hn : n.toNat % 2 = 1) :
    jacobi (residue a n) n = .ok (oddSymbol (residue a n) n) := by
  rw [jacobi_of_odd _ hn, oddSymbol_eq _ _ hn]

/-- **The Kronecker symbol of words** is the symbol by prime factors, over the whole range of both
arguments, and every value is 0, 1 or `-1`. On the way nothing is lost: a modulus is the power of 2
times the odd part, the residue to that part and the magnitude of a negative modulus are words, and
the Jacobi symbol is not refused. -/
theorem kronecker_eq_symbolByPrimes (a : Int64) :
    (∀ n : UInt64, kronecker a n = symbolByPrimes a.toInt n.toNat ∧ (kronecker a n).natAbs ≤ 1 ∧
        (n ≠ 0 → n.toNat = 2 ^ (splitTwos n).1 * (splitTwos n).2.toNat ∧
          ((residue a (splitTwos n).2).toNat : ℤ) = a.toInt % (splitTwos n).2.toNat ∧
          jacobi (residue a (splitTwos n).2) (splitTwos n).2 =
            .ok (oddSymbol (residue a (splitTwos n).2) (splitTwos n).2))) ∧
      ∀ n : Int64, kroneckerInt a n = symbolByPrimes a.toInt n.toInt ∧
        (kroneckerInt a n).natAbs ≤ 1 ∧ (magnitude n).toNat = n.toInt.natAbs := by
  constructor
  · intro n
    refine ⟨?_, ?_, fun hn => ?_⟩
    · rw [kronecker_eq, kroneckerSymbol_eq_symbolByPrimes]
    · rw [kronecker_eq]
      exact natAbs_kroneckerSymbol_le _ _
    · obtain ⟨hodd, hsplit⟩ := splitTwos_spec n fun h => hn (UInt64.toNat_inj.mp h)
      exact ⟨hsplit, toNat_residue a (by omega), jacobi_residue a hodd⟩
  · intro n
    refine ⟨?_, ?_, toNat_magnitude n⟩
    · rw [kroneckerInt_eq, kroneckerSymbol_eq_symbolByPrimes]
    · rw [kroneckerInt_eq]
      exact natAbs_kroneckerSymbol_le _ _

/-- The least word over the largest modulus, which is odd, and over itself, where both are even. -/
theorem kronecker_eq_symbolByPrimes_least :
    kronecker Int64.minValue 18446744073709551615 =
        symbolByPrimes (-9223372036854775808) 18446744073709551615 ∧
      (18446744073709551615 : UInt64) ≠ 0 ∧
      jacobi (residue Int64.minValue 18446744073709551615) 18446744073709551615 =
        .ok (oddSymbol (residue Int64.minValue 18446744073709551615) 18446744073709551615) ∧
      kroneckerInt Int64.minValue Int64.minValue =
        symbolByPrimes (-9223372036854775808) (-9223372036854775808) ∧
      kroneckerInt Int64.minValue Int64.minValue = 0 := by
  obtain ⟨hnatural, hinteger⟩ := kronecker_eq_symbolByPrimes Int64.minValue
  have hn : (18446744073709551615 : UInt64) ≠ 0 := by decide
  have hsplit : splitTwos 18446744073709551615 = (0, 18446744073709551615) := by
    rw [splitTwos, if_pos (by decide)]
  obtain ⟨hvalue, -, hodd⟩ := hnatural 18446744073709551615
  obtain ⟨-, -, hjacobi⟩ := hodd hn
  rw [hsplit] at hjacobi
  exact ⟨hvalue, hn, hjacobi, (hinteger Int64.minValue).1, by decide +kernel⟩

end ZetaValues.Residue
