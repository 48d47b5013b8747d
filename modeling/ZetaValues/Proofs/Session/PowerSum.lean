import ZetaValues.Proofs.Query
import ZetaValues.Proofs.Bernoulli.Polynomial
import ZetaValues.Proofs.Session.Caching

/-! # Power sums

A sum of powers is never added up: it is the numerator of the difference of two values of a
Bernoulli polynomial, divided by its degree. The step from `x` to `x + 1` adds one power to the
value, so `n` steps from 1 add the powers of `1, …, n` (`eval_polynomial_sub_eval_one`), and the
fraction is the sum of powers itself (`Query.powerSumOf_eq`). -/

namespace ZetaValues

open ZetaValues.Bernoulli

/-- **The steps from 1 to `n + 1`** add one power each. -/
theorem Bernoulli.eval_polynomial_sub_eval_one {k : ℕ} (hk : k + 1 < UInt32.size) (n : ℕ) :
    (polynomial (upTo (k + 1)) (k + 1)).eval (n + 1) - (polynomial (upTo (k + 1)) (k + 1)).eval 1 =
      (k + 1) * ∑ a ∈ Finset.Icc 1 n, (a : ℚ) ^ k := by
  induction n with
  | zero => simp
  | succ n ih =>
    have hstep := eval_polynomial_add_one hk ((n + 1 : ℕ) : ℚ)
    rw [Nat.add_sub_cancel] at hstep
    rw [hstep, Finset.sum_Icc_succ_top (by omega), mul_add, ← ih]
    push_cast
    ring

namespace Query

/-- **The fraction is the sum of powers**, for exponent 0 as well. -/
theorem powerSumOf_eq {k : ℕ} (hk : k + 1 < UInt32.size) (n : ℕ) :
    powerSumOf (polynomial (upTo (k + 1)) (k + 1)) k n =
      ((∑ a ∈ Finset.Icc 1 n, (a : ℤ) ^ k : ℤ) : ℚ) := by
  have hdeg : ((k : ℚ) + 1) ≠ 0 := by exact_mod_cast Nat.succ_ne_zero k
  rw [powerSumOf, eval_polynomial_sub_eval_one hk, Nat.cast_add, Nat.cast_one,
    mul_div_cancel_left₀ _ hdeg]
  push_cast
  rfl

/-- Accepted arguments are answered by the numerator. -/
theorem powerSum_of_lt {k n : Int64} (h0 : 0 ≤ k.toInt) (hk : k.toInt < maxIndex)
    (hn : 0 ≤ n.toInt) :
    let i := k.toInt.toNat
    (powerSum k n).map fresh =
      .ok (powerSumOf (polynomial (upTo (i + 1)) (i + 1)) i n.toInt.toNat).num := by
  intro i
  rw [powerSum_eq, Argument.k.indexBelow_of_lt h0 hk]
  show Except.map _ (do let n ← Argument.n.natural n; _) = _
  rw [Argument.n.natural_of_nonneg hn]
  rfl

end Query

namespace Session

variable {s : Session} {settings : Settings}

theorem Reached.perform_bernoulliPolynomial (hs : s.Reached settings) (n : Int64) :
    (s.perform (.question (.bernoulliPolynomial n))).1 = (bernoulliPolynomial n).map .polynomial :=
  hs.perform_question_of_query rfl

theorem Reached.perform_powerSum (hs : s.Reached settings) (k n : Int64) :
    (s.perform (.question (.powerSum k n))).1 =
      ((Query.powerSum k n).map Query.fresh).map .integer :=
  hs.perform_question_of_query rfl

/-- **A power sum is the sum of the powers.** Under any settings and after any history, up to the
largest word: the fraction formed from the Bernoulli polynomial of degree `k + 1` has denominator 1,
and the answer is `1 ^ k + ⋯ + n ^ k`. -/
theorem powerSum_eq_sum_pow {k n : Int64} (h0 : 0 ≤ k.toInt) (hk : k.toInt < maxIndex)
    (hn : 0 ≤ n.toInt) (settings : Settings) (history : List Request) :
    let s := (start settings).after history
    ∃ p, (k + 1).toInt = k.toInt + 1 ∧
      (s.perform (.question (.bernoulliPolynomial (k + 1)))).1 = .ok (.polynomial p) ∧
      Query.powerSumOf p k.toInt.toNat n.toInt.toNat =
        (p.eval (n.toInt + 1) - p.eval 1) / (k.toInt + 1) ∧
      (Query.powerSumOf p k.toInt.toNat n.toInt.toNat).den = 1 ∧
      (s.perform (.question (.powerSum k n))).1 =
        .ok (.integer (∑ a ∈ Finset.Icc 1 n.toInt.toNat, (a : ℤ) ^ k.toInt.toNat)) := by
  intro s
  have hs : s.Reached settings := (reached_start settings).after history
  have hsucc := Argument.toInt_add_one h0 hk
  have hdegree : (k + 1).toInt.toNat = k.toInt.toNat + 1 := by omega
  have hlt : k.toInt.toNat + 1 < UInt32.size := by
    rw [← hdegree]
    exact toNat_lt_size (by omega)
  have hk' : (k.toInt.toNat : ℚ) = k.toInt := by exact_mod_cast Int.toNat_of_nonneg h0
  have hn' : (n.toInt.toNat : ℚ) = n.toInt := by exact_mod_cast Int.toNat_of_nonneg hn
  refine ⟨polynomial (upTo (k.toInt.toNat + 1)) (k.toInt.toNat + 1), hsucc, ?_, ?_, ?_, ?_⟩
  · rw [hs.perform_bernoulliPolynomial, bernoulliPolynomial_of_le (by omega) (by omega), hdegree]
    rfl
  · rw [Query.powerSumOf, hn', Nat.cast_add, hk', Nat.cast_one]
  · rw [Query.powerSumOf_eq hlt, Rat.den_intCast]
  · rw [hs.perform_powerSum, Query.powerSum_of_lt h0 hk hn, Query.powerSumOf_eq hlt,
      Rat.num_intCast]
    rfl

/-- The sum of all positive words, in a session that may keep two numbers. -/
theorem powerSum_eq_sum_pow_largest :
    0 ≤ (1 : Int64).toInt ∧ (1 : Int64).toInt < maxIndex ∧ 0 ≤ Int64.maxValue.toInt ∧
      let s := (start { tableLimit := 1 }).after [.question (.bernoulliNumbers 6), .tableClear]
      (∃ p, (s.perform (.question (.bernoulliPolynomial 2))).1 = .ok (.polynomial p) ∧
        (Query.powerSumOf p 1 9223372036854775807).den = 1) ∧
      (s.perform (.question (.powerSum 1 Int64.maxValue))).1 =
        .ok (.integer (∑ a ∈ Finset.Icc (1 : ℕ) 9223372036854775807, (a : ℤ) ^ 1)) ∧
      (s.perform (.question (.powerSum 1 Int64.maxValue))).1 =
        .ok (.integer 42535295865117307928310139910543638528) := by
  have h0 : 0 ≤ (1 : Int64).toInt := by decide
  have hk : (1 : Int64).toInt < maxIndex := by decide
  have hn : 0 ≤ Int64.maxValue.toInt := by decide
  obtain ⟨p, -, hp, -, hden, hsum⟩ := powerSum_eq_sum_pow h0 hk hn { tableLimit := 1 }
    [.question (.bernoulliNumbers 6), .tableClear]
  have hone : (1 : Int64).toInt.toNat = 1 := rfl
  have hmax : Int64.maxValue.toInt.toNat = 9223372036854775807 := rfl
  rw [hone, hmax] at hden hsum
  exact ⟨h0, hk, hn, ⟨p, hp, hden⟩, hsum, by cbv⟩

end Session

end ZetaValues
