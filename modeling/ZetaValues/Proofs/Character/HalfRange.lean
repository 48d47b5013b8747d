import ZetaValues.Proofs.Character.ClassNumber

/-! # Class numbers by half of the residues

The first moment of an odd character modulo `N`, times `2 - χ(2)`, is `-N` times the sum of its
values below half of `N`. If `N` is odd, the numbers below it are paired with their reflections: a
pair gives `(2 a - N) χ(a)` to the moment, whichever of the two is called `a`
(`moment_eq_sum_pairs`). With the smaller one of each pair, and again with the even one, these are
two equations that share the sum of `a χ(a)` below half of `N`, and that sum is eliminated
(`two_sub_mul_moment_of_odd_modulus`). If `N` is even, then `χ(2)` is 0, and for a fundamental
discriminant half of `N` changes the sign of the character (`two_sub_mul_moment_of_half`). -/

namespace ZetaValues

open ZetaValues.Bernoulli Exact Residue

/-! ### Odd characters -/

variable {N : ℕ} {χ : DirichletCharacter ℤ N}

/-- **The sum below half of the modulus.** -/
def halfSum (χ : DirichletCharacter ℤ N) : ℤ :=
  ∑ a ∈ Finset.range N with 1 ≤ a ∧ 2 * a < N, χ (a : ZMod N)

theorem halfSum_eq {h : ℕ} (hle : 2 * h < N) (hlt : N ≤ 2 * h + 2) (χ : DirichletCharacter ℤ N) :
    halfSum χ = ∑ a ∈ Finset.Icc 1 h, χ (a : ZMod N) := by
  refine Finset.sum_congr (Finset.ext fun a => ?_) fun _ _ => rfl
  rw [Finset.mem_filter, Finset.mem_range, Finset.mem_Icc]
  omega

section oddModulus
variable {h : ℕ} (hN : N = 2 * h + 1) (hodd : χ (-1) = -1)
include hN hodd

/-- **The moment, by pairs.** -/
theorem moment_eq_sum_pairs (p : ℕ → Prop) [DecidablePred p]
    (hp : ∀ a ∈ Finset.Icc 1 (2 * h), p (2 * h + 1 - a) ↔ ¬ p a) :
    moment χ = ∑ a ∈ Finset.Icc 1 (2 * h), if p a then (2 * a - N) * χ (a : ZMod N) else 0 := by
  have hpair : ∀ a ∈ Finset.Icc 1 (2 * h), ((a : ℤ) * χ (a : ZMod N) +
      (2 * h + 1 - a : ℕ) * χ ((2 * h + 1 - a : ℕ) : ZMod N)) = (2 * a - N) * χ (a : ZMod N) := by
    intro a ha
    have hle : a ≤ N := by
      rw [Finset.mem_Icc] at ha
      omega
    rw [← hN, Nat.cast_sub hle, Nat.cast_sub hle, ZMod.natCast_self, zero_sub,
      apply_neg_of_odd hodd]
    ring
  have hrange : moment χ = ∑ a ∈ Finset.Icc 1 (2 * h), (a : ℤ) * χ (a : ZMod N) := by
    rw [sum_Icc_one_eq (by rw [Nat.cast_zero, zero_mul]), ← hN]
    rfl
  rw [hrange, sum_Icc_pairs _ p hp]
  refine Finset.sum_congr rfl fun a ha => ?_
  rw [hpair a ha]

theorem moment_eq_sum_lower :
    moment χ = ∑ a ∈ Finset.Icc 1 h, (2 * a - N) * χ (a : ZMod N) := by
  rw [moment_eq_sum_pairs hN hodd (· ≤ h) fun a ha => by rw [Finset.mem_Icc] at ha; omega,
    ← Finset.sum_filter]
  refine Finset.sum_congr (Finset.ext fun a => ?_) fun _ _ => rfl
  rw [Finset.mem_filter, Finset.mem_Icc, Finset.mem_Icc]
  omega

theorem moment_eq_sum_even :
    moment χ = χ 2 * ∑ a ∈ Finset.Icc 1 h, (4 * a - N) * χ (a : ZMod N) := by
  have hdouble : ∀ a : ℕ, (2 * (2 * a : ℕ) - N : ℤ) * χ ((2 * a : ℕ) : ZMod N) =
      χ 2 * ((4 * a - N) * χ (a : ZMod N)) := by
    intro a
    rw [Nat.cast_mul, Nat.cast_mul, map_mul, Nat.cast_ofNat, Nat.cast_ofNat]
    ring
  rw [moment_eq_sum_pairs hN hodd (2 ∣ ·) fun a ha => by rw [Finset.mem_Icc] at ha; omega,
    mul_comm 2 h, sum_Icc_multiples _ h two_pos, Finset.sum_congr rfl fun a _ => hdouble a,
    Finset.mul_sum]

/-- The two ways to choose from the pairs leave one equation without the sum of `a χ(a)`. -/
theorem two_sub_mul_moment_of_odd_modulus : (2 - χ 2) * moment χ = -(N * halfSum χ) := by
  have hunit : χ 2 ^ 2 = 1 := by
    have htwo : IsUnit ((2 : ℕ) : ZMod N) :=
      (ZMod.isUnit_iff_coprime 2 N).mpr (Nat.coprime_two_left.mpr ⟨h, hN⟩)
    rw [Nat.cast_ofNat] at htwo
    rcases Int.isUnit_iff.mp (htwo.map χ) with h1 | h1 <;> rw [h1] <;> rfl
  have hsplit : ∀ c : ℤ, ∑ a ∈ Finset.Icc 1 h, (c * a - N) * χ (a : ZMod N) =
      c * (∑ a ∈ Finset.Icc 1 h, a * χ (a : ZMod N)) - N * halfSum χ := by
    intro c
    rw [halfSum_eq (h := h) (by omega) (by omega), Finset.mul_sum, Finset.mul_sum,
      ← Finset.sum_sub_distrib]
    refine Finset.sum_congr rfl fun a _ => ?_
    ring
  have hlower := moment_eq_sum_lower hN hodd
  have heven := moment_eq_sum_even hN hodd
  rw [hsplit] at hlower heven
  generalize ∑ a ∈ Finset.Icc 1 h, a * χ (a : ZMod N) = T at hlower heven
  -- `2 T - N S` and `χ(2) (4 T - N S)` are both the moment
  linear_combination 2 * hlower - χ 2 * heven - (4 * T - N * halfSum χ) * hunit

end oddModulus

/-- If half of the modulus changes the sign, the moment is that half times the sum. -/
theorem two_sub_mul_moment_of_half [NeZero N] {h : ℕ} (hN : N = 2 * h)
    (hsign : χ (h + 1 : ℕ) = -1) (hodd : χ (-1) = -1) :
    (2 - χ 2) * moment χ = -(N * halfSum χ) := by
  have hN' : (N : ℤ) = 2 * h := by exact_mod_cast hN
  have hpos : 0 < N := NeZero.pos N
  have htwo : χ 2 = 0 := by
    refine χ.map_nonunit fun hu => ?_
    rw [← Nat.cast_ofNat, ZMod.isUnit_iff_coprime] at hu
    exact Nat.not_coprime_of_dvd_of_dvd one_lt_two dvd_rfl ⟨h, hN⟩ hu
  have hsum : ∑ a ∈ Finset.range h, χ (a : ZMod N) = halfSum χ := by
    have hzero : χ ((0 : ℕ) : ZMod N) = 0 := by rw [Nat.cast_zero, apply_zero_of_odd hodd]
    rw [halfSum_eq (h := h - 1) (by omega) (by omega), sum_Icc_one_eq hzero,
      Nat.sub_add_cancel (by omega)]
  rw [htwo, moment_of_half hN hsign, hsum, hN']
  ring

/-! ### Class numbers -/

namespace QuadraticCharacter

variable (χ : QuadraticCharacter)

theorem value_two : χ.value 2 = χ.dirichlet 2 := by
  rw [value_eq]
  rfl

/-- The values at words below half of the modulus. -/
theorem sum_value_eq_halfSum :
    ∑ a ∈ Finset.range χ.modulus.toNat with 1 ≤ a ∧ 2 * a < χ.modulus.toNat, χ.value (.ofNat a) =
      halfSum χ.dirichlet := by
  refine Finset.sum_congr rfl fun a ha => χ.value_ofNat ?_
  rw [Finset.mem_filter, Finset.mem_range] at ha
  exact ha.1.le

variable (hfund : Fundamental χ.discriminant.toInt) (hneg : χ.discriminant.toInt < 0)
include hfund hneg

/-- **The moment of an imaginary field** by the values below half of the modulus. -/
theorem two_sub_mul_moment :
    (2 - χ.dirichlet 2) * moment χ.dirichlet = -(χ.modulus.toNat * halfSum χ.dirichlet) := by
  have hodd := χ.dirichlet_neg_one_of_neg hneg
  rcases hfund with ⟨h1, -⟩ | ⟨m, hd, hm, -⟩
  · have hN : χ.modulus.toNat = 2 * (χ.modulus.toNat / 2) + 1 := by
      rw [toNat_modulus]
      omega
    exact two_sub_mul_moment_of_odd_modulus hN hodd
  · exact two_sub_mul_moment_of_half (χ.modulus_of_four_mul hd) (χ.dirichlet_half_add_one hd hm)
      hodd

/-- **The half-range formula** for the fraction that gives the class number. -/
theorem two_sub_mul_eq_halfSum {h : ℤ}
    (hh : Query.classNumberOf χ.discriminant (moment χ.dirichlet / χ.modulus.toNat) = h) :
    (2 - χ.dirichlet 2) * h =
      (Query.rootsOfUnity χ.discriminant / 2 : ℕ) * halfSum χ.dirichlet := by
  have hN : (χ.modulus.toNat : ℤ) ≠ 0 := Nat.cast_ne_zero.mpr (NeZero.ne _)
  have hN' : (χ.modulus.toNat : ℚ) ≠ 0 := Nat.cast_ne_zero.mpr (NeZero.ne _)
  have hmoment := χ.two_sub_mul_moment hfund hneg
  rw [Query.classNumberOf] at hh
  generalize Query.rootsOfUnity χ.discriminant / 2 = w at hh ⊢
  have hmul : -(w * moment χ.dirichlet) = χ.modulus.toNat * h := by
    have hq : -((w : ℚ) * moment χ.dirichlet) = χ.modulus.toNat * h := by
      rw [← hh]
      field_simp
    exact_mod_cast hq
  refine mul_left_cancel₀ hN ?_
  linear_combination -(2 - χ.dirichlet 2) * hmul - w * hmoment

end QuadraticCharacter

namespace Session

/-- **Dirichlet's half-range formula.** For a negative fundamental discriminant, under any settings
and after any history, `2 - (d/2)` times the class number is `w / 2` times the sum of the symbols
`(d/a)` below half of `|d|`. -/
theorem two_sub_kronecker_mul_classNumber {d : Int64} (hneg : d.toInt < 0) (hfund : IsFundamental d)
    (settings : Settings) (history : List Request) :
    let s := (start settings).after history
    let w : ℤ := if d = -3 then 6 else if d = -4 then 4 else 2
    ∃ h : ℤ, (s.perform (.question (.classNumber d))).1 = .ok (.integer h) ∧
      (2 - kronecker d 2) * h = w / 2 *
        ∑ a ∈ Finset.range d.toInt.natAbs with 1 ≤ a ∧ 2 * a < d.toInt.natAbs,
          kronecker d (.ofNat a) := by
  intro s w
  have hs : s.Reached settings := (reached_start settings).after history
  obtain ⟨χ, rfl⟩ : ∃ χ : QuadraticCharacter, χ.discriminant = d := ⟨⟨d, hfund.isDiscriminant⟩, rfl⟩
  obtain ⟨h, hh⟩ := χ.exists_classNumberOf_eq ((isFundamental_iff _).mp hfund) hneg
  have hw : ((Query.rootsOfUnity χ.discriminant / 2 : ℕ) : ℤ) = w / 2 := by
    simp only [Query.rootsOfUnity, w]
    split_ifs <;> rfl
  refine ⟨h, ?_, ?_⟩
  · rw [hs.perform_classNumber hfund hneg, χ.bernoulliForCharacter_one hneg]
    show Except.ok (Answer.integer (Query.classNumberOf _ _).num) = _
    rw [hh, Rat.num_intCast]
  · have hformula := χ.two_sub_mul_eq_halfSum ((isFundamental_iff _).mp hfund) hneg hh
    rw [← χ.value_two, ← χ.sum_value_eq_halfSum, hw, χ.toNat_modulus] at hformula
    exact hformula

/-- The discriminant `-3`, with six roots of unity and the value `-1` at 2, in a session that keeps
nothing. -/
theorem two_sub_kronecker_mul_classNumber_minus_three :
    (-3 : Int64).toInt < 0 ∧ IsFundamental (-3) ∧ kronecker (-3) 2 = -1 ∧
      let s := (start .forgetful).after [.question (.classNumber (-12))]
      (s.perform (.question (.classNumber (-3)))).1 = .ok (.integer 1) ∧
        (2 - kronecker (-3) 2) * 1 =
          3 * ∑ a ∈ Finset.range 3 with 1 ≤ a ∧ 2 * a < 3, kronecker (-3) (.ofNat a) := by
  have hneg : (-3 : Int64).toInt < 0 := by decide
  have hfund : IsFundamental (-3) := by decide +kernel
  obtain ⟨h, hanswer, hformula⟩ := two_sub_kronecker_mul_classNumber hneg hfund .forgetful
    [.question (.classNumber (-12))]
  have hone : (((start .forgetful).after [.question (.classNumber (-12))]).perform
      (.question (.classNumber (-3)))).1 = .ok (.integer 1) := by cbv
  obtain rfl : h = 1 := by simpa [hone] using hanswer.symm
  exact ⟨hneg, hfund, by decide +kernel, hone, hformula⟩

end Session

end ZetaValues
