import ZetaValues.Proofs.Discriminant

/-! # Conductors

Every discriminant is a fundamental one times a square `f ^ 2`, where `f ≥ 1` is its conductor. There
is such a pair, because a discriminant that is not fundamental is a smaller discriminant times a
square (`exists_fundamental_mul_sq`). There is only one: a fundamental discriminant is no
discriminant times a square above 1 (`Fundamental.eq_one_of_eq_mul_sq`), and if
`d f ^ 2 = e g ^ 2` for coprime `f` and `g`, then `d = c g ^ 2` and `e = c f ^ 2` for some `c`. That
is a discriminant, since one of `f` and `g` is odd, so both are 1
(`Fundamental.eq_one_of_coprime`). -/

namespace ZetaValues

open Residue

variable {d e : ℤ} {f g : ℕ}

/-! ### Existence -/

theorem Fundamental.ne_zero (h : Fundamental d) : d ≠ 0 := by
  rcases h with ⟨h1, -⟩ | ⟨m, rfl, hm, -⟩ <;> omega

/-- **Every discriminant** is a fundamental one times a square. -/
theorem exists_fundamental_mul_sq (h0 : d ≠ 0) (hd : d % 4 = 0 ∨ d % 4 = 1) :
    ∃ (d₀ : ℤ) (f : ℕ), Fundamental d₀ ∧ 1 ≤ f ∧ d = d₀ * f ^ 2 := by
  induction hn : d.natAbs using Nat.strong_induction_on generalizing d with
  | _ n ih =>
    by_cases hfund : Fundamental d
    · exact ⟨d, 1, hfund, le_rfl, by rw [Nat.cast_one, one_pow, mul_one]⟩
    · obtain ⟨e, f, hf, rfl, he⟩ := exists_eq_mul_sq h0 hd hfund
      have he0 : e ≠ 0 := left_ne_zero_of_mul h0
      have hlt : e.natAbs < n := by
        rw [← hn, natAbs_mul_sq]
        exact lt_mul_of_one_lt_right (Int.natAbs_pos.mpr he0) (Nat.one_lt_pow two_ne_zero hf)
      obtain ⟨d₀, g, hd₀, hg, rfl⟩ := ih _ hlt he0 he rfl
      refine ⟨d₀, g * f, hd₀, Nat.mul_pos hg (by omega), ?_⟩
      push_cast
      ring

/-! ### Uniqueness -/

/-- **A fundamental discriminant** is no discriminant times a square above 1. -/
theorem Fundamental.eq_one_of_eq_mul_sq (h : Fundamental d) (he : e % 4 = 0 ∨ e % 4 = 1)
    (hd : d = e * f ^ 2) : f = 1 := by
  have hunit : ∀ {m : ℤ}, Squarefree m → (f : ℤ) ^ 2 ∣ m → f = 1 := by
    intro m hm hdvd
    rw [sq] at hdvd
    simpa using Int.isUnit_iff_natAbs_eq.mp (hm f hdvd)
  rcases h with ⟨-, hsq⟩ | ⟨m, rfl, hm, hsq⟩
  · exact hunit hsq ⟨e, by rw [hd, mul_comm]⟩
  · rcases Nat.even_or_odd' f with ⟨j, rfl | rfl⟩
    · -- an even square takes away the factor 4, and leaves `m` a discriminant
      have hm' : m = e * j ^ 2 := by
        refine mul_left_cancel₀ (four_ne_zero : (4 : ℤ) ≠ 0) (hd.trans ?_)
        push_cast
        ring
      have hmod := mul_sq_emod_four he j
      omega
    · have hcop : IsCoprime (((2 * j + 1 : ℕ) : ℤ) ^ 2) (4 : ℤ) := by
        have htwo : IsCoprime ((2 * j + 1 : ℕ) : ℤ) 2 := ⟨1, -j, by push_cast; ring⟩
        exact htwo.pow (m := 2) (n := 2)
      exact hunit hsq (hcop.dvd_of_dvd_mul_left ⟨e, by rw [hd, mul_comm]⟩)

theorem Fundamental.eq_one_of_isSquare (h : Fundamental d) (hsq : IsSquare d) : d = 1 := by
  obtain ⟨r, rfl⟩ := hsq
  have hr : r * r = 1 * (r.natAbs : ℤ) ^ 2 := by rw [one_mul, Int.natAbs_sq, sq]
  have hone : r.natAbs = 1 := h.eq_one_of_eq_mul_sq (by decide) hr
  rw [hr, hone]
  rfl

/-- Of two coprime conductors of one number the second is 1; by symmetry the first is 1 as well. -/
theorem Fundamental.eq_one_of_coprime (hd : Fundamental d) (he : Fundamental e)
    (hcop : f.Coprime g) (hg : g ≠ 0) (h : d * f ^ 2 = e * g ^ 2) : g = 1 := by
  have hcop' : IsCoprime ((g : ℤ) ^ 2) ((f : ℤ) ^ 2) :=
    (Nat.isCoprime_iff_coprime.mpr hcop.symm).pow
  have hg' : (g : ℤ) ^ 2 ≠ 0 := pow_ne_zero 2 (Nat.cast_ne_zero.mpr hg)
  obtain ⟨c, rfl⟩ := hcop'.dvd_of_dvd_mul_right ⟨e, by rw [h, mul_comm]⟩
  have hec : e = c * f ^ 2 := mul_right_cancel₀ hg' (by rw [← h]; ring)
  rw [mul_comm] at hd
  refine hd.eq_one_of_eq_mul_sq ?_ rfl
  -- an odd square does not change the residue of `c`, which is that of `d` or of `e`
  rcases Nat.mod_two_eq_zero_or_one g with h2 | h2
  · have hf2 : (f : ℤ) % 2 = 1 := by
      by_contra hf2
      exact Nat.not_coprime_of_dvd_of_dvd one_lt_two (by omega : 2 ∣ f) (by omega) hcop
    rw [← mul_sq_emod_four_of_odd c hf2, ← hec]
    exact he.mod_four
  · rw [← mul_sq_emod_four_of_odd c (by omega : (g : ℤ) % 2 = 1)]
    exact hd.mod_four

/-- **There is only one pair** of a fundamental discriminant and a conductor. -/
theorem Fundamental.eq_of_mul_sq_eq (hd : Fundamental d) (he : Fundamental e) (hf : f ≠ 0)
    (hg : g ≠ 0) (h : d * f ^ 2 = e * g ^ 2) : d = e ∧ f = g := by
  obtain ⟨f', g', hcop, hf', hg'⟩ := Nat.exists_coprime f g
  generalize f.gcd g = c at hf' hg'
  subst hf' hg'
  have hc : ((c : ℤ) ^ 2) ≠ 0 := pow_ne_zero 2 (Nat.cast_ne_zero.mpr (right_ne_zero_of_mul hf))
  have hcancel : d * f' ^ 2 = e * g' ^ 2 := by
    refine mul_right_cancel₀ hc ?_
    push_cast at h
    linear_combination h
  obtain rfl : g' = 1 := hd.eq_one_of_coprime he hcop (left_ne_zero_of_mul hg) hcancel
  obtain rfl : f' = 1 :=
    he.eq_one_of_coprime hd hcop.symm (left_ne_zero_of_mul hf) hcancel.symm
  simpa using hcancel

/-! ### Words -/

/-- The word `d` is the fundamental discriminant `d₀` times `f ^ 2`, with the conductor `f`. The
product is that of the integers, so it does not wrap around. -/
structure HasConductor (d d₀ : Int64) (f : ℕ) : Prop where
  isFundamental : IsFundamental d₀
  one_le : 1 ≤ f
  eq_mul_sq : d.toInt = d₀.toInt * f ^ 2

theorem hasConductor_one {d : Int64} (h : IsFundamental d) : HasConductor d d 1 :=
  ⟨h, le_rfl, by rw [Nat.cast_one, one_pow, mul_one]⟩

theorem HasConductor.isDiscriminant {d d₀ : Int64} (h : HasConductor d d₀ f) :
    IsDiscriminant d :=
  isDiscriminant_of_eq_mul_sq h.isFundamental.isDiscriminant (Nat.pos_iff_ne_zero.mp h.one_le)
    h.eq_mul_sq

theorem HasConductor.unique {d d₀ e : Int64} (h : HasConductor d d₀ f) (h' : HasConductor d e g) :
    d₀ = e ∧ f = g := by
  have hf := h.one_le
  have hg := h'.one_le
  obtain ⟨hde, hfg⟩ := ((isFundamental_iff d₀).mp h.isFundamental).eq_of_mul_sq_eq
    ((isFundamental_iff e).mp h'.isFundamental) (f := f) (g := g) (by omega) (by omega)
    (h.eq_mul_sq.symm.trans h'.eq_mul_sq)
  exact ⟨Int64.toInt_inj.mp hde, hfg⟩

/-- The fundamental discriminant lies between zero and `d`, so it is a word. -/
theorem IsDiscriminant.exists_hasConductor {d : Int64} (h : IsDiscriminant d) :
    ∃ d₀ f, HasConductor d d₀ f := by
  have h0 : d.toInt ≠ 0 := fun h0 => h.1 (Int64.toInt_inj.mp h0)
  obtain ⟨d₀, f, hfund, hf, hd⟩ := exists_fundamental_mul_sq h0 h.2
  have hword : (Int64.ofInt d₀).toInt = d₀ := by
    have hle := d.le_toInt
    have hlt := d.toInt_lt
    have hsq : 1 ≤ (f : ℤ) ^ 2 := one_le_pow₀ (by exact_mod_cast hf)
    rw [hd] at hle hlt
    refine Int64.toInt_ofInt_of_le ?_ ?_
    · nlinarith
    · nlinarith
  refine ⟨.ofInt d₀, f, (isFundamental_iff _).mpr ?_, hf, ?_⟩
  · rwa [hword]
  · rw [hword, hd]

/-- **Discriminants are the fundamental ones times squares**: a word is a discriminant exactly if it
has a conductor, there is only one pair of a fundamental discriminant and a conductor, and the
fundamental discriminants are those with the conductor 1. So whatever is admitted as fundamental is
admitted as a discriminant. -/
theorem isDiscriminant_iff_hasConductor (d : Int64) :
    (IsDiscriminant d ↔ ∃ d₀ f, HasConductor d d₀ f) ∧
      (∀ d₀ e f g, HasConductor d d₀ f → HasConductor d e g → d₀ = e ∧ f = g) ∧
      (IsFundamental d ↔ IsDiscriminant d ∧ ∃ d₀, HasConductor d d₀ 1) ∧
      (Admission.fundamental.Admits d → Admission.discriminant.Admits d) := by
  refine ⟨⟨fun h => h.exists_hasConductor, ?_⟩, fun _ _ _ _ h h' => h.unique h', ⟨?_, ?_⟩, ?_⟩
  · rintro ⟨d₀, f, h⟩
    exact h.isDiscriminant
  · intro h
    exact ⟨h.isDiscriminant, d, hasConductor_one h⟩
  · rintro ⟨-, d₀, h⟩
    have hd : d = d₀ := Int64.toInt_inj.mp (by
      rw [h.eq_mul_sq, Nat.cast_one, one_pow, mul_one])
    rw [hd]
    exact h.isFundamental
  · exact fun h => Admission.Admits.isDiscriminant h

/-- The least word is `-8` times the square of `2 ^ 30` and in no other way, so it is a discriminant
and not a fundamental one. -/
theorem isDiscriminant_iff_hasConductor_least :
    HasConductor Int64.minValue (-8) 1073741824 ∧ IsDiscriminant Int64.minValue ∧
      (∀ e g, HasConductor Int64.minValue e g → -8 = e ∧ 1073741824 = g) ∧
      ¬ IsFundamental Int64.minValue := by
  have hcond : HasConductor Int64.minValue (-8) 1073741824 := by
    have h2 : Squarefree (-2 : ℤ) := Int.squarefree_natAbs.mp Nat.prime_two.prime.squarefree
    exact ⟨(isFundamental_iff (-8)).mpr (Or.inr ⟨-2, rfl, by decide, h2⟩), by decide, by decide⟩
  obtain ⟨hiff, hunique, hfund, -⟩ := isDiscriminant_iff_hasConductor Int64.minValue
  refine ⟨hcond, hiff.mpr ⟨_, _, hcond⟩, fun e g h => hunique _ _ _ _ hcond h, fun h => ?_⟩
  obtain ⟨-, d₀, hone⟩ := hfund.mp h
  exact absurd (hunique _ _ _ _ hcond hone).2 (by decide)

end ZetaValues
