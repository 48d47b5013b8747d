import ZetaValues.Proofs.Character.Moment
import ZetaValues.Proofs.Character.Parity
import ZetaValues.Proofs.Character.Primitive
import ZetaValues.Proofs.Session.Refusals

/-! # The class number is an integer

For a negative fundamental discriminant `d` the class number is `-(w / 2)` times the first moment of
the character, divided by `|d|`. If `d` is odd, `|d|` divides the moment (`dvd_moment_of_odd`): the
unit 2 shows it up to a factor 3, and if 3 divides `|d|`, a number that is 1 modulo 3 and has the
value `-1` does the rest. If 4 divides `d`, half of `|d|` changes the sign of the character, and the
moment is a sum over a quarter of the residues, multiplied by `|d|` (`dvd_moment_of_even`). The
discriminants `-3` and `-4`, where neither works, have more roots of unity instead. -/

namespace ZetaValues

open ZetaValues.Bernoulli Exact Residue

namespace QuadraticCharacter

variable (χ : QuadraticCharacter)

/-! ### Divisibility -/

theorem dirichlet_neg_one_of_neg (h : χ.discriminant.toInt < 0) : χ.dirichlet (-1) = -1 := by
  rw [dirichlet_neg_one, parity, if_neg (by omega)]

/-- Modulo 3 the moment is seen by a number that is 1 modulo 3 and has the value `-1`. -/
theorem dvd_moment_of_three_dvd (hfund : Fundamental χ.discriminant.toInt)
    (h3 : 3 ∣ χ.modulus.toNat) (hne : χ.modulus.toNat ≠ 3)
    (hthree : (χ.modulus.toNat : ℤ) ∣ 3 * moment χ.dirichlet) :
    (χ.modulus.toNat : ℤ) ∣ moment χ.dirichlet := by
  have hproper : 3 ∈ χ.discriminant.toInt.natAbs.properDivisors := by
    rw [← toNat_modulus, Nat.mem_properDivisors]
    have hle := Nat.le_of_dvd (NeZero.pos _) h3
    exact ⟨h3, by omega⟩
  obtain ⟨a, -, -, hgcd, ha3, hval⟩ := hfund.exists_value_of_properDivisor hproper
  rw [gcd_discriminant] at hgcd
  have hstep := dvd_mul_moment χ.dirichlet hgcd
  rw [dirichlet_natCast, hval] at hstep
  obtain ⟨k, rfl⟩ : ∃ k, a = 3 * k + 1 := ⟨a / 3, by unfold Nat.ModEq at ha3; omega⟩
  -- `(k + 1) 3 - (3 k + 2) = 1`
  have hcomb := (hthree.mul_left (k + 1)).add hstep
  have hone : (k + 1) * (3 * moment χ.dirichlet) +
      (((3 * k + 1 : ℕ) : ℤ) * -1 - 1) * moment χ.dirichlet = moment χ.dirichlet := by
    push_cast
    ring
  rwa [hone] at hcomb

/-- **An odd discriminant** divides the moment, unless it is `-3`. -/
theorem dvd_moment_of_odd (hfund : Fundamental χ.discriminant.toInt)
    (h1 : χ.discriminant.toInt % 4 = 1) (hne : χ.modulus.toNat ≠ 3) :
    (χ.modulus.toNat : ℤ) ∣ moment χ.dirichlet := by
  have hodd : χ.modulus.toNat % 2 = 1 := by
    rw [toNat_modulus]
    omega
  have htwo : Nat.Coprime 2 χ.modulus.toNat := Nat.coprime_two_left.mpr (Nat.odd_iff.mpr hodd)
  have hstep := dvd_mul_moment χ.dirichlet htwo
  rcases χ.dirichlet_of_coprime htwo with hval | hval
  · rw [hval] at hstep
    simpa using hstep
  · have hthree : (χ.modulus.toNat : ℤ) ∣ 3 * moment χ.dirichlet := by
      rw [hval, show ((2 : ℕ) : ℤ) * -1 - 1 = -3 by decide, neg_mul] at hstep
      exact Int.dvd_neg.mp hstep
    by_cases h3 : 3 ∣ χ.modulus.toNat
    · exact χ.dvd_moment_of_three_dvd hfund h3 hne hthree
    · have hcop : IsCoprime (χ.modulus.toNat : ℤ) 3 := by
        have hcop3 := (Nat.prime_three.coprime_iff_not_dvd.mpr h3).symm
        exact_mod_cast Nat.isCoprime_iff_coprime.mpr hcop3
      exact hcop.dvd_of_dvd_mul_left hthree

section even
variable {m : ℤ} (hd : χ.discriminant.toInt = 4 * m)
include hd

theorem modulus_of_four_mul : χ.modulus.toNat = 2 * (2 * m.natAbs) := by
  rw [toNat_modulus]
  omega

variable (hm : m % 4 = 2 ∨ m % 4 = 3)
include hm

theorem dirichlet_half_add_one :
    χ.dirichlet ((2 * m.natAbs + 1 : ℕ) : ZMod χ.modulus.toNat) = -1 := by
  rw [dirichlet_natCast, hd, kroneckerSymbol_four_mul hm]

/-- **An even discriminant** divides the moment, unless it is `-4`. -/
theorem dvd_moment_of_even (hneg : χ.discriminant.toInt < 0) (hne : m.natAbs ≠ 1) :
    (χ.modulus.toNat : ℤ) ∣ moment χ.dirichlet :=
  moment_of_quarter (χ.modulus_of_four_mul hd) (χ.dirichlet_half_add_one hd hm)
    (χ.dirichlet_neg_one_of_neg hneg) hne

end even

/-- **The roots of unity make up for what is missing** at `-3` and `-4`. -/
theorem dvd_rootsOfUnity_mul_moment (hfund : Fundamental χ.discriminant.toInt)
    (hneg : χ.discriminant.toInt < 0) :
    (χ.modulus.toNat : ℤ) ∣ (Query.rootsOfUnity χ.discriminant / 2 : ℕ) * moment χ.dirichlet := by
  have hmod := χ.toNat_modulus
  unfold Query.rootsOfUnity
  by_cases h3 : χ.discriminant = -3
  · have hN : (χ.modulus.toNat : ℤ) = 3 := by rw [hmod, h3]; rfl
    rw [if_pos h3]
    exact ⟨moment χ.dirichlet, by rw [hN]; rfl⟩
  · have h3' : χ.discriminant.toInt ≠ -3 := fun h => h3 (Int64.toInt_inj.mp h)
    rw [if_neg h3]
    by_cases h4 : χ.discriminant = -4
    · have hd : χ.discriminant.toInt = 4 * -1 := by rw [h4]; rfl
      rw [if_pos h4]
      exact dvd_two_mul_moment (χ.modulus_of_four_mul hd)
        (χ.dirichlet_half_add_one hd (by decide))
    · have h4' : χ.discriminant.toInt ≠ -4 := fun h => h4 (Int64.toInt_inj.mp h)
      rw [if_neg h4]
      show _ ∣ 1 * moment χ.dirichlet
      rw [one_mul]
      have hcases := hfund
      rcases hcases with ⟨h1, -⟩ | ⟨m, hd, hm, -⟩
      · exact χ.dvd_moment_of_odd hfund h1 (by omega)
      · exact χ.dvd_moment_of_even hd hm hneg (by omega)

/-! ### The class number -/

/-- The number of weight 1 of an imaginary field. -/
theorem bernoulliForCharacter_one (hneg : χ.discriminant.toInt < 0) :
    bernoulliForCharacter χ 1 = .ok (moment χ.dirichlet / χ.modulus.toNat) := by
  have hvalue : ∀ a ∈ Finset.Icc 1 χ.modulus.toNat,
      χ.value (.ofNat a) = χ.dirichlet (a : ZMod χ.modulus.toNat) := fun a ha =>
    χ.value_ofNat (Finset.mem_Icc.mp ha).2
  rw [χ.bernoulliForCharacter_of_le (by decide) (by decide)]
  refine congrArg Except.ok ((twistedSum_congr hvalue).trans ?_)
  exact twistedSum_of_odd (χ.dirichlet_neg_one_of_neg hneg)

/-- **The class number is an integer**, before its numerator is taken. -/
theorem exists_classNumberOf_eq (hfund : Fundamental χ.discriminant.toInt)
    (hneg : χ.discriminant.toInt < 0) :
    ∃ h : ℤ, Query.classNumberOf χ.discriminant (moment χ.dirichlet / χ.modulus.toNat) = h := by
  obtain ⟨h, hh⟩ := χ.dvd_rootsOfUnity_mul_moment hfund hneg
  have hN : (χ.modulus.toNat : ℚ) ≠ 0 := Nat.cast_ne_zero.mpr (NeZero.ne _)
  refine ⟨-h, ?_⟩
  rw [Query.classNumberOf]
  generalize Query.rootsOfUnity χ.discriminant / 2 = w at hh ⊢
  have hh' : (w : ℚ) * moment χ.dirichlet = χ.modulus.toNat * h := by exact_mod_cast hh
  rw [div_mul_eq_mul_div, mul_comm, hh', mul_div_cancel_left₀ _ hN, Int.cast_neg]

end QuadraticCharacter

theorem Query.classNumberOf_eq (d : Int64) (b : ℚ) :
    classNumberOf d b = -((if d = -3 then 6 else if d = -4 then 4 else 2 : ℚ) / 2) * b := by
  unfold classNumberOf rootsOfUnity
  split_ifs <;> push_cast <;> ring

namespace Session

variable {s : Session} {settings : Settings} {χ : QuadraticCharacter}

theorem Reached.perform_forDiscriminant (hs : s.Reached settings)
    (hadmits : settings.admission.Admits χ.discriminant) (k : Int64) :
    (s.perform (.question (.forDiscriminant k χ.discriminant))).1 =
      (bernoulliForCharacter χ k).map .fraction := by
  have hq := Query.forDiscriminant_of_ok (χ.ofDiscriminant_of_admits hadmits) k
  exact hs.perform_question_of_query (by rw [Question.query, hq])

/-- A class number comes from the number of weight 1, whichever discriminants are admitted. -/
theorem Reached.perform_classNumber (hs : s.Reached settings)
    (hfund : IsFundamental χ.discriminant) (hneg : χ.discriminant.toInt < 0) :
    (s.perform (.question (.classNumber χ.discriminant))).1 =
      ((bernoulliForCharacter χ 1).map
        fun b => (Query.classNumberOf χ.discriminant b).num).map .integer := by
  have hχ : QuadraticCharacter.ofDiscriminant .fundamental χ.discriminant = .ok χ :=
    χ.ofDiscriminant_of_admits hfund
  have hquery : Query.classNumber settings.admission χ.discriminant =
      (Query.forCharacter χ 1).map
        (·.map fun b => (Query.classNumberOf χ.discriminant b).num) := by
    rw [Query.classNumber_eq, Query.classNumber, if_neg (by omega), if_neg (not_not.mpr hfund),
      Query.forDiscriminant_of_ok hχ]
    rfl
  rw [hs.perform_question_of_query rfl, hquery, Query.map_fresh_map]
  rfl

/-- **A class number is an integer.** For a negative fundamental discriminant, under any settings
and after any history, the fraction `-(w / 2) B_{1,χ}` has denominator 1, so the answer, which is
its numerator, is all of it. -/
theorem classNumber_eq_integer {d : Int64} (hneg : d.toInt < 0) (hfund : IsFundamental d)
    (settings : Settings) (history : List Request) :
    let s := (start settings).after history
    let w : ℚ := if d = -3 then 6 else if d = -4 then 4 else 2
    ∃ (b : ℚ) (h : ℤ), (s.perform (.question (.forDiscriminant 1 d))).1 = .ok (.fraction b) ∧
      Query.classNumberOf d b = -(w / 2) * b ∧ (Query.classNumberOf d b).den = 1 ∧
      (s.perform (.question (.classNumber d))).1 = .ok (.integer h) ∧
      (h : ℚ) = Query.classNumberOf d b := by
  intro s w
  have hs : s.Reached settings := (reached_start settings).after history
  obtain ⟨χ, rfl⟩ : ∃ χ : QuadraticCharacter, χ.discriminant = d := ⟨⟨d, hfund.isDiscriminant⟩, rfl⟩
  have hb := χ.bernoulliForCharacter_one hneg
  obtain ⟨h, hh⟩ := χ.exists_classNumberOf_eq ((isFundamental_iff _).mp hfund) hneg
  refine ⟨_, h, ?_, ?_, ?_, ?_, hh.symm⟩
  · rw [hs.perform_forDiscriminant (Admission.admits_of_isFundamental hfund _), hb]
    rfl
  · rw [Query.classNumberOf_eq]
  · rw [hh, Rat.den_intCast]
  · rw [hs.perform_classNumber hfund hneg, hb]
    show Except.ok (Answer.integer (Query.classNumberOf _ _).num) = _
    rw [hh, Rat.num_intCast]

/-- The discriminant `-4`, in a session that keeps nothing. -/
theorem classNumber_eq_integer_minus_four :
    (-4 : Int64).toInt < 0 ∧ IsFundamental (-4) ∧
      let s := (start .forgetful).after [.question (.zeta 3)]
      ∃ b : ℚ, (s.perform (.question (.forDiscriminant 1 (-4)))).1 = .ok (.fraction b) ∧
        Query.classNumberOf (-4) b = -(4 / 2) * b ∧ (Query.classNumberOf (-4) b).den = 1 ∧
        (s.perform (.question (.classNumber (-4)))).1 = .ok (.integer 1) ∧
        1 = Query.classNumberOf (-4) b := by
  have hneg : (-4 : Int64).toInt < 0 := by decide
  have hfund : IsFundamental (-4) := by decide +kernel
  obtain ⟨b, h, hb, hform, hden, hanswer, hh⟩ :=
    classNumber_eq_integer hneg hfund .forgetful [.question (.zeta 3)]
  have hone : (((start .forgetful).after [.question (.zeta 3)]).perform
      (.question (.classNumber (-4)))).1 = .ok (.integer 1) := by cbv
  obtain rfl : h = 1 := by simpa [hone] using hanswer.symm
  rw [Int.cast_one] at hh
  exact ⟨hneg, hfund, b, hb, hform, hden, hone, hh⟩

end Session

end ZetaValues
