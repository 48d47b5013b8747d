import ZetaValues.Proofs.Bernoulli.TwistedSum
import Mathlib.NumberTheory.ZetaValues

/-! # Twisted sums over a multiple of the modulus

By the multiplication theorem of the Bernoulli polynomials (`eval_natCast_mul`) a function with
period `M` has the same twisted sum over every multiple of `M` (`twistedSum_mul`). -/

namespace ZetaValues.Bernoulli

/-! ### The multiplication theorem -/

theorem bernoulliFun_ratCast (k : ℕ) (x : ℚ) :
    bernoulliFun k x = ((Polynomial.bernoulli k).eval x : ℚ) := by
  rw [bernoulliFun, Polynomial.eval_map_algebraMap]
  exact Polynomial.aeval_algebraMap_apply_eq_algebraMap_eval x _

/-- **The multiplication theorem** at the fractions. -/
theorem eval_natCast_mul (k : ℕ) {t : ℕ} (ht : t ≠ 0) (x : ℚ) :
    (Polynomial.bernoulli k).eval (t * x) =
      (t : ℚ) ^ k / t * ∑ j ∈ Finset.range t, (Polynomial.bernoulli k).eval (x + j / t) := by
  have h := bernoulliFun_mul k ht x
  have hterm : ∀ j : ℕ, bernoulliFun k (x + j / t) =
      ((Polynomial.bernoulli k).eval (x + j / t) : ℚ) := by
    intro j
    rw [← bernoulliFun_ratCast]
    push_cast
    rfl
  rw [Finset.sum_congr rfl fun j _ => hterm j, ← Rat.cast_natCast, ← Rat.cast_mul,
    bernoulliFun_ratCast] at h
  exact_mod_cast h

/-! ### Multiples of the period -/

section Period
variable {k M : ℕ} {χ : ℕ → ℤ}

theorem apply_add_mul {L : ℕ} (hχ : ∀ a, 1 ≤ a → a + M ≤ L → χ (a + M) = χ a) {b j : ℕ}
    (hb : 1 ≤ b) (hj : b + M * j ≤ L) : χ (b + M * j) = χ b := by
  induction j with
  | zero => rfl
  | succ j ih =>
    rw [Nat.mul_succ] at hj ⊢
    rw [← Nat.add_assoc, hχ _ (by omega) (by omega)]
    exact ih (by omega)

/-- The points of one class, brought together by the multiplication theorem. -/
theorem sum_eval_class (k : ℕ) {M t : ℕ} (hM : M ≠ 0) (ht : t ≠ 0) (b : ℕ) :
    ∑ j ∈ Finset.range t,
        (Polynomial.bernoulli k).eval (((b + M * j : ℕ) : ℚ) / ((M * t : ℕ) : ℚ)) =
      (t : ℚ) / t ^ k * (Polynomial.bernoulli k).eval (b / M : ℚ) := by
  have hM' : (M : ℚ) ≠ 0 := Nat.cast_ne_zero.mpr hM
  have ht' : (t : ℚ) ≠ 0 := Nat.cast_ne_zero.mpr ht
  have hpoint : (b / M : ℚ) = t * (b / (M * t)) := by field_simp
  have hterm : ∀ j : ℕ, ((b + M * j : ℕ) : ℚ) / ((M * t : ℕ) : ℚ) = b / (M * t) + j / t := by
    intro j
    push_cast
    field_simp
  rw [hpoint, eval_natCast_mul k ht]
  simp only [hterm]
  field_simp

/-- **The modulus does not matter**: a function with period `M` has one twisted sum over all
multiples of `M`. -/
theorem twistedSum_mul (hk : k < UInt32.size) (hM : M ≠ 0) {t : ℕ} (ht : t ≠ 0)
    (hχ : ∀ a, 1 ≤ a → a + M ≤ M * t → χ (a + M) = χ a) :
    twistedSum (upTo k) k (M * t) χ = twistedSum (upTo k) k M χ := by
  have hM' : (M : ℚ) ≠ 0 := Nat.cast_ne_zero.mpr hM
  have ht' : (t : ℚ) ≠ 0 := Nat.cast_ne_zero.mpr ht
  have hclass : ∀ b ∈ Finset.Icc 1 M, ∑ j ∈ Finset.range t, (χ (b + M * j) : ℚ) *
      (Polynomial.bernoulli k).eval (((b + M * j : ℕ) : ℚ) / ((M * t : ℕ) : ℚ)) =
        (t : ℚ) / t ^ k * ((χ b : ℚ) * (Polynomial.bernoulli k).eval (b / M : ℚ)) := by
    intro b hb
    rw [Finset.mem_Icc] at hb
    have hvalue : ∀ j ∈ Finset.range t, χ (b + M * j) = χ b := by
      intro j hj
      have hle : M * j + M ≤ M * t := by
        rw [← Nat.mul_succ]
        exact Nat.mul_le_mul_left M (Finset.mem_range.mp hj)
      exact apply_add_mul hχ hb.1 (by omega)
    rw [Finset.sum_congr rfl fun j hj => by rw [hvalue j hj], ← Finset.mul_sum,
      sum_eval_class k hM ht]
    ring
  rw [twistedSum_eq hk (mul_ne_zero hM ht), twistedSum_eq hk hM, sum_Icc_mul, Finset.sum_comm,
    Finset.sum_congr rfl hclass, ← Finset.mul_sum, Nat.cast_mul, mul_pow]
  field_simp

end Period

/-! ### Accepted arguments -/

/-- The function that is 1 everywhere has the period 1. -/
theorem twistedSum_one {k N : ℕ} (hk : k < UInt32.size) (hN : N ≠ 0) :
    twistedSum (upTo k) k N (fun _ => 1) = bernoulli' k := by
  have h := twistedSum_mul (χ := fun _ => 1) hk one_ne_zero hN fun _ _ _ => rfl
  rw [one_mul] at h
  rw [h, twistedSum_eq hk one_ne_zero]
  simp [Polynomial.bernoulli_eval_one]

section Word
variable {k : Int64} (h0 : 0 ≤ k.toInt) (hk : k.toInt ≤ maxIndex)
include h0 hk

theorem exists_bernoulliForFunction_mul {M t : UInt64} {χ : UInt64 → Int64} (hM : 1 ≤ M.toNat)
    (ht : 1 ≤ t.toNat) (hfits : M.toNat * t.toNat < UInt64.size)
    (hχ : ∀ a : UInt64, 1 ≤ a.toNat → a.toNat + M.toNat < UInt64.size → χ (a + M) = χ a) :
    ∃ b, bernoulliForFunction k (M * t) χ = .ok b ∧ bernoulliForFunction k M χ = .ok b := by
  have hword : (M * t).toNat = M.toNat * t.toNat := by
    rw [UInt64.toNat_mul]
    exact Nat.mod_eq_of_lt hfits
  have hpos : 1 ≤ (M * t).toNat := by
    rw [hword]
    exact Nat.mul_pos hM ht
  -- the period as a word is the period of the function on the numbers below the modulus
  have hperiod : ∀ a, 1 ≤ a → a + M.toNat ≤ M.toNat * t.toNat →
      (χ (.ofNat (a + M.toNat))).toInt = (χ (.ofNat a)).toInt := by
    intro a ha hle
    have hofNat : UInt64.ofNat (a + M.toNat) = .ofNat a + M := by
      rw [UInt64.ofNat_add, UInt64.ofNat_toNat]
    have haN : (UInt64.ofNat a).toNat = a := UInt64.toNat_ofNat_of_lt' (by omega)
    rw [hofNat, hχ _ (by omega) (by omega)]
  refine ⟨_, ?_, bernoulliForFunction_of_le h0 hk (ne_zero_of_one_le hM) χ⟩
  rw [bernoulliForFunction_of_le h0 hk (ne_zero_of_one_le hpos), hword,
    twistedSum_mul (toNat_lt_size hk) (by omega) (by omega) hperiod]

theorem bernoulliForFunction_one {N : UInt64} (hN : 1 ≤ N.toNat) :
    bernoulliForFunction k N (fun _ => 1) = .ok (bernoulli' k.toInt.toNat) := by
  rw [bernoulliForFunction_of_le h0 hk (ne_zero_of_one_le hN),
    ← twistedSum_one (toNat_lt_size hk) (Nat.one_le_iff_ne_zero.mp hN)]
  rfl

/-- The two conventions differ at the index 1. -/
theorem bernoulliNumber_of_ne_one (h1 : k ≠ 1) :
    bernoulliNumber k = .ok (bernoulli' k.toInt.toNat) := by
  have h1' : k.toInt.toNat ≠ 1 := by
    intro h
    have hone : (1 : Int64).toInt = 1 := rfl
    exact h1 (Int64.toInt_inj.mp (by omega))
  rw [bernoulliNumber_of_le h0 hk, bernoulli_eq_bernoulli'_of_ne_one h1']

end Word

/-- **The modulus may be any multiple of the period.** For the function that is 1 everywhere the
number is the Bernoulli number for every modulus, with `B_1 = 1/2`. -/
theorem bernoulliForFunction_mul {k : Int64} (h0 : 0 ≤ k.toInt) (hk : k.toInt ≤ maxIndex) :
    (∀ (M t : UInt64) (χ : UInt64 → Int64), 1 ≤ M.toNat → 1 ≤ t.toNat →
      M.toNat * t.toNat < UInt64.size →
      (∀ a : UInt64, 1 ≤ a.toNat → a.toNat + M.toNat < UInt64.size → χ (a + M) = χ a) →
        ∃ b, bernoulliForFunction k (M * t) χ = .ok b ∧ bernoulliForFunction k M χ = .ok b) ∧
      ∀ N : UInt64, 1 ≤ N.toNat → bernoulliForFunction k N (fun _ => 1) =
        if k = 1 then .ok (1 / 2) else bernoulliNumber k := by
  constructor
  · intro M t χ hM ht hfits hχ
    exact exists_bernoulliForFunction_mul h0 hk hM ht hfits hχ
  · intro N hN
    rw [bernoulliForFunction_one h0 hk hN]
    split_ifs with h1
    · subst h1
      exact congrArg Except.ok bernoulli'_one
    · exact (bernoulliNumber_of_ne_one h0 hk h1).symm

/-- The odd character modulo 4, summed up to 12 as well; and the function 1 with the largest modulus
at weight 1. -/
theorem bernoulliForFunction_mul_twelve :
    let χ : UInt64 → Int64 := fun a => if a % 4 = 1 then 1 else if a % 4 = 3 then -1 else 0
    0 ≤ (3 : Int64).toInt ∧ (3 : Int64).toInt ≤ maxIndex ∧
      (∀ a : UInt64, 1 ≤ a.toNat → a.toNat + (4 : UInt64).toNat < UInt64.size →
        χ (a + 4) = χ a) ∧
      (∃ b, bernoulliForFunction 3 12 χ = .ok b ∧ bernoulliForFunction 3 4 χ = .ok b) ∧
      bernoulliForFunction 1 18446744073709551615 (fun _ => 1) = .ok (1 / 2) := by
  intro χ
  have hχ : ∀ a : UInt64, 1 ≤ a.toNat → a.toNat + (4 : UInt64).toNat < UInt64.size →
      χ (a + 4) = χ a := by
    intro a _ ha
    have hmod : (a + 4) % 4 = a % 4 := by
      rw [← UInt64.toNat_inj, UInt64.toNat_mod, UInt64.toNat_mod, UInt64.toNat_add,
        Nat.mod_eq_of_lt ha]
      exact Nat.add_mod_right _ _
    simp only [χ, hmod]
  have h3 := (bernoulliForFunction_mul (k := 3) (by decide) (by decide)).1 4 3 χ (by decide)
    (by decide) (by decide) hχ
  have h1 := (bernoulliForFunction_mul (k := 1) (by decide) (by decide)).2 18446744073709551615
    (by decide)
  exact ⟨by decide, by decide, hχ, h3, h1⟩

end ZetaValues.Bernoulli
