import ZetaValues.Proofs.Bernoulli.TwistedSum
import Mathlib.NumberTheory.DirichletCharacter.Basic

/-! # The first moment of a character

The generalized Bernoulli number of weight 1 of an odd character modulo `N` is its first moment, the
sum of `a χ(a)` over the residues, divided by `N` (`twistedSum_of_odd`). To multiply the residues by
a unit `c` only permutes them, so `c χ(c)` times the moment is the moment again, modulo `N`
(`mul_moment`). If `N = 2 h` and the step from `a` to `a + h` changes the sign of the character, the
moment is a multiple of `h` (`moment_of_half`), and for `N = 4 m` with `m > 1` one of `N`
(`moment_of_quarter`). -/

namespace ZetaValues

open ZetaValues.Bernoulli

variable {N : ℕ} {χ : DirichletCharacter ℤ N}

theorem apply_neg_of_odd (hodd : χ (-1) = -1) (x : ZMod N) : χ (-x) = -χ x := by
  rw [neg_eq_neg_one_mul, map_mul, hodd, neg_one_mul]

variable [NeZero N]

/-- **The first moment**: the sum of `a χ(a)` over the residues. -/
def moment (χ : DirichletCharacter ℤ N) : ℤ := ∑ a ∈ Finset.range N, a * χ (a : ZMod N)

theorem sum_range_natCast {R : Type*} [AddCommMonoid R] (f : ZMod N → R) :
    ∑ a ∈ Finset.range N, f a = ∑ x, f x := by
  refine Finset.sum_nbij' (fun a => (a : ZMod N)) ZMod.val (fun _ _ => Finset.mem_univ _)
    (fun x _ => Finset.mem_range.mpr x.val_lt) (fun a ha => ?_) (fun x _ => ZMod.natCast_zmod_val x)
    fun _ _ => rfl
  exact ZMod.val_cast_of_lt (Finset.mem_range.mp ha)

/-! ### Odd characters -/

section odd
variable (hodd : χ (-1) = -1)
include hodd

theorem ne_one_of_odd : N ≠ 1 := by
  rintro rfl
  rw [Subsingleton.elim (-1 : ZMod 1) 1, map_one] at hodd
  exact absurd hodd (by decide)

theorem apply_zero_of_odd : χ 0 = 0 := by
  have : Nontrivial (ZMod N) := ZMod.nontrivial_iff.mpr (ne_one_of_odd hodd)
  exact χ.map_zero

theorem sum_of_odd : ∑ a ∈ Finset.range N, χ (a : ZMod N) = 0 := by
  rw [sum_range_natCast (fun x => χ x)]
  refine MulChar.sum_eq_zero_of_ne_one fun h1 => ?_
  rw [h1, MulChar.one_apply isUnit_one.neg] at hodd
  exact absurd hodd (by decide)

/-- **The number of weight 1** is the first moment, divided by the modulus. -/
theorem twistedSum_of_odd :
    twistedSum (upTo 1) 1 N (fun a => χ (a : ZMod N)) = moment χ / N := by
  have hN : (N : ℚ) ≠ 0 := Nat.cast_ne_zero.mpr (NeZero.ne N)
  have h0 : χ ((0 : ℕ) : ZMod N) = 0 := by rw [Nat.cast_zero, apply_zero_of_odd hodd]
  have hend : χ (N : ZMod N) = 0 := by rw [ZMod.natCast_self, apply_zero_of_odd hodd]
  have hterm : ∀ a : ℕ, (χ (a : ZMod N) : ℚ) * (Polynomial.bernoulli 1).eval (a / N : ℚ) =
      ((a * χ (a : ZMod N) : ℤ) : ℚ) / N - ((χ (a : ZMod N) : ℤ) : ℚ) / 2 := by
    intro a
    rw [Polynomial.bernoulli_one, Polynomial.eval_sub, Polynomial.eval_X, Polynomial.eval_C]
    push_cast
    ring
  have hmoment : ∑ a ∈ Finset.Icc 1 N, (a * χ (a : ZMod N) : ℤ) = moment χ := by
    rw [sum_Icc_eq_sum_range (by rw [hend, h0, mul_zero, mul_zero])]
    rfl
  have hsum : ∑ a ∈ Finset.Icc 1 N, χ (a : ZMod N) = 0 := by
    rw [sum_Icc_eq_sum_range (by rw [hend, h0]), sum_of_odd hodd]
  rw [twistedSum_eq (by decide) (NeZero.ne N), Finset.sum_congr rfl fun a _ => hterm a,
    Finset.sum_sub_distrib, ← Finset.sum_div, ← Finset.sum_div, ← Int.cast_sum, ← Int.cast_sum,
    hmoment, hsum, pow_one, div_self hN]
  ring

end odd

/-! ### Units -/

theorem cast_moment (χ : DirichletCharacter ℤ N) :
    (moment χ : ZMod N) = ∑ x : ZMod N, x * (χ x : ZMod N) := by
  rw [moment, ← sum_range_natCast (fun x : ZMod N => x * (χ x : ZMod N))]
  push_cast
  rfl

/-- **Multiplication by a unit** permutes the residues. -/
theorem mul_moment (χ : DirichletCharacter ℤ N) (c : (ZMod N)ˣ) :
    (c : ZMod N) * (χ c : ZMod N) * (moment χ : ZMod N) = moment χ := by
  rw [cast_moment, Finset.mul_sum]
  refine Fintype.sum_equiv (Units.mulLeft c) _ _ fun x => ?_
  rw [Units.mulLeft_apply, map_mul]
  push_cast
  ring

theorem dvd_mul_moment (χ : DirichletCharacter ℤ N) {a : ℕ} (ha : a.Coprime N) :
    (N : ℤ) ∣ (a * χ (a : ZMod N) - 1) * moment χ := by
  have h := mul_moment χ (ZMod.unitOfCoprime a ha)
  rw [ZMod.coe_unitOfCoprime] at h
  rw [← ZMod.intCast_zmod_eq_zero_iff_dvd]
  push_cast
  linear_combination h

/-! ### Half of the modulus -/

section half
variable {h : ℕ} (hN : N = 2 * h) (hsign : χ (h + 1 : ℕ) = -1)
include hN hsign

/-- Half of the modulus changes the sign: at units it does what `h + 1` does. -/
theorem apply_add_half (x : ZMod N) : χ (x + h) = -χ x := by
  have htwo : (2 * h : ZMod N) = 0 := by
    exact_mod_cast (ZMod.natCast_eq_zero_iff (2 * h) N).mpr hN.dvd
  have hunit : ∀ x : ZMod N, IsUnit x → χ (x + h) = -χ x := by
    intro x hx
    rw [← ZMod.natCast_zmod_val x, ZMod.isUnit_iff_coprime] at hx
    obtain ⟨k, hk⟩ : ∃ k, x.val = 2 * k + 1 := by
      refine ⟨x.val / 2, ?_⟩
      by_contra heven
      exact Nat.not_coprime_of_dvd_of_dvd one_lt_two (by omega : 2 ∣ x.val) (by omega) hx
    have hval : x = 2 * k + 1 := by
      rw [← ZMod.natCast_zmod_val x, hk]
      push_cast
      rfl
    have hstep : x + h = x * (h + 1 : ℕ) := by
      push_cast
      linear_combination (-h : ZMod N) * hval - (k : ZMod N) * htwo
    rw [hstep, map_mul, hsign, mul_neg_one]
  by_cases hx : IsUnit x
  · exact hunit x hx
  · by_cases hy : IsUnit (x + h)
    · have hback : x + h + h = x := by linear_combination htwo
      have := hunit _ hy
      rw [hback] at this
      rw [this, neg_neg]
    · rw [χ.map_nonunit hx, χ.map_nonunit hy, neg_zero]

theorem moment_of_half : moment χ = -(h * ∑ a ∈ Finset.range h, χ (a : ZMod N)) := by
  have hupper : ∀ a : ℕ, ((h + a : ℕ) : ℤ) * χ ((h + a : ℕ) : ZMod N) =
      -(h * χ (a : ZMod N)) - a * χ (a : ZMod N) := by
    intro a
    have hz : χ ((h + a : ℕ) : ZMod N) = -χ (a : ZMod N) := by
      rw [Nat.cast_add, add_comm, apply_add_half hN hsign]
    rw [hz, Nat.cast_add]
    ring
  have hrange : Finset.range N = Finset.range (h + h) := by rw [hN, two_mul]
  rw [moment, hrange, Finset.sum_range_add, Finset.sum_congr rfl fun a _ => hupper a,
    Finset.sum_sub_distrib, Finset.sum_neg_distrib, ← Finset.mul_sum]
  ring

theorem dvd_two_mul_moment : (N : ℤ) ∣ 2 * moment χ := by
  refine ⟨-∑ a ∈ Finset.range h, χ (a : ZMod N), ?_⟩
  have hN' : (N : ℤ) = 2 * h := by exact_mod_cast hN
  rw [moment_of_half hN hsign, hN']
  ring

end half

/-- If the character is odd, then half of the residues are twice a quarter of them. -/
theorem sum_half_of_odd {m : ℕ} (hN : N = 2 * (2 * m)) (hsign : χ (2 * m + 1 : ℕ) = -1)
    (hodd : χ (-1) = -1) (hm : m ≠ 1) :
    ∑ a ∈ Finset.range (2 * m), χ (a : ZMod N) = 2 * ∑ a ∈ Finset.range m, χ (a : ZMod N) := by
  have hend : χ (m : ZMod N) = 0 := by
    refine χ.map_nonunit fun hu => hm ?_
    rw [ZMod.isUnit_iff_coprime] at hu
    exact Nat.eq_one_of_dvd_coprimes hu dvd_rfl ⟨4, by omega⟩
  have hreflect : ∀ x : ZMod N, χ (-x + (2 * m : ℕ)) = χ x := by
    intro x
    rw [apply_add_half hN hsign, apply_neg_of_odd hodd, neg_neg]
  -- the upper quarter, read backward, is the lower one without 0 and with `m`
  have hupper : ∑ a ∈ Finset.range m, χ ((m + a : ℕ) : ZMod N) =
      ∑ a ∈ Finset.range m, χ ((a + 1 : ℕ) : ZMod N) := by
    rw [← Finset.sum_range_reflect]
    refine Finset.sum_congr rfl fun a ha => ?_
    rw [Finset.mem_range] at ha
    have hpoint : -((m + (m - 1 - a) : ℕ) : ZMod N) + (2 * m : ℕ) = (a + 1 : ℕ) := by
      rw [show 2 * m = m + (m - 1 - a) + (a + 1) by omega, Nat.cast_add (m + (m - 1 - a)),
        neg_add_cancel_left]
    rw [← hreflect, hpoint]
  have hshift : ∑ a ∈ Finset.range m, χ ((a + 1 : ℕ) : ZMod N) =
      ∑ a ∈ Finset.range m, χ (a : ZMod N) := by
    have h := Finset.sum_range_succ (fun a => χ (a : ZMod N)) m
    rw [Finset.sum_range_succ', Nat.cast_zero, apply_zero_of_odd hodd, hend, add_zero,
      add_zero] at h
    exact h
  rw [two_mul m, Finset.sum_range_add, hupper, hshift, two_mul]

/-- **A quarter of the modulus**: the moment of an odd character is a multiple of the modulus. -/
theorem moment_of_quarter {m : ℕ} (hN : N = 2 * (2 * m)) (hsign : χ (2 * m + 1 : ℕ) = -1)
    (hodd : χ (-1) = -1) (hm : m ≠ 1) : (N : ℤ) ∣ moment χ := by
  refine ⟨-∑ a ∈ Finset.range m, χ (a : ZMod N), ?_⟩
  have hN' : (N : ℤ) = 2 * (2 * m) := by exact_mod_cast hN
  rw [moment_of_half hN hsign, sum_half_of_odd hN hsign hodd hm, hN']
  push_cast
  ring

end ZetaValues
