import ZetaValues.QuadraticCharacter
import ZetaValues.Proofs.Residue.Discriminants
import Mathlib.NumberTheory.DirichletCharacter.Basic

/-! # Quadratic characters are Dirichlet characters

The Kronecker symbol of a discriminant `d` is a function on the classes modulo `|d|`, and as such a
Dirichlet character (`dirichlet`). The values at words are its values at their classes (`value_eq`,
`valueInt_eq`), whatever their sign, and the parity is its value at `-1` (`dirichlet_neg_one`). -/

namespace ZetaValues.QuadraticCharacter

open Exact Residue

variable (χ : QuadraticCharacter)

theorem toNat_modulus : χ.modulus.toNat = χ.discriminant.toInt.natAbs :=
  toNat_magnitude _

theorem toInt_discriminant_ne_zero : χ.discriminant.toInt ≠ 0 := fun h =>
  χ.isDiscriminant.1 (Int64.toInt_inj.mp h)

instance : NeZero χ.modulus.toNat :=
  ⟨by rw [toNat_modulus]; exact Int.natAbs_ne_zero.mpr χ.toInt_discriminant_ne_zero⟩

theorem gcd_discriminant (a : ℕ) : Int.gcd a χ.discriminant.toInt = a.gcd χ.modulus.toNat := by
  rw [toNat_modulus]; rfl

theorem kroneckerSymbol_val (n : ℤ) :
    kroneckerSymbol χ.discriminant.toInt (n : ZMod χ.modulus.toNat).val =
      kroneckerSymbol χ.discriminant.toInt n := by
  rw [ZMod.val_intCast, toNat_modulus]
  exact kroneckerSymbol_mod χ.toInt_discriminant_ne_zero χ.isDiscriminant.2 n

/-- **The Dirichlet character** of a quadratic character. -/
def dirichlet : DirichletCharacter ℤ χ.modulus.toNat where
  toFun x := kroneckerSymbol χ.discriminant.toInt x.val
  map_one' := by
    have h := χ.kroneckerSymbol_val 1
    rw [Int.cast_one] at h
    exact h.trans (kroneckerSymbol_one_right _)
  map_mul' x y := by
    have hxy : x * y = ((x.val * y.val : ℤ) : ZMod χ.modulus.toNat) := by
      push_cast
      rw [ZMod.natCast_zmod_val, ZMod.natCast_zmod_val]
    rw [hxy, kroneckerSymbol_val, kroneckerSymbol_mul χ.isDiscriminant.2]
  map_nonunit' x hx := by
    refine kroneckerSymbol_eq_zero χ.toInt_discriminant_ne_zero χ.isDiscriminant.2 fun hg => hx ?_
    rw [← ZMod.natCast_zmod_val x, ZMod.isUnit_iff_coprime]
    exact (χ.gcd_discriminant x.val).symm.trans hg

theorem dirichlet_intCast (n : ℤ) :
    χ.dirichlet (n : ZMod χ.modulus.toNat) = kroneckerSymbol χ.discriminant.toInt n :=
  χ.kroneckerSymbol_val n

theorem dirichlet_natCast (n : ℕ) :
    χ.dirichlet (n : ZMod χ.modulus.toNat) = kroneckerSymbol χ.discriminant.toInt n := by
  rw [← χ.dirichlet_intCast, Int.cast_natCast]

/-- **The values at natural numbers.** -/
theorem value_eq (a : UInt64) : χ.value a = χ.dirichlet (a.toNat : ZMod χ.modulus.toNat) := by
  rw [dirichlet_natCast]
  exact kronecker_eq _ _

/-- **The values at integers.** -/
theorem valueInt_eq (a : Int64) : χ.valueInt a = χ.dirichlet (a.toInt : ZMod χ.modulus.toNat) := by
  rw [dirichlet_intCast]
  exact kroneckerInt_eq _ _

theorem dirichlet_neg_one : χ.dirichlet (-1) = χ.parity := by
  have h := χ.dirichlet_intCast (-1)
  rw [Int.cast_neg, Int.cast_one, kroneckerSymbol_neg_one] at h
  have h0 := χ.toInt_discriminant_ne_zero
  rw [h, parity]
  split_ifs <;> omega

theorem dirichlet_of_coprime {a : ℕ} (ha : a.Coprime χ.modulus.toNat) :
    χ.dirichlet (a : ZMod χ.modulus.toNat) = 1 ∨ χ.dirichlet (a : ZMod χ.modulus.toNat) = -1 :=
  Int.isUnit_iff.mp (((ZMod.isUnit_iff_coprime a _).mpr ha).map χ.dirichlet)

/-- **The zeros** are what has a factor in common with the modulus. -/
theorem dirichlet_eq_zero_iff (a : ℕ) :
    χ.dirichlet (a : ZMod χ.modulus.toNat) = 0 ↔ ¬ a.Coprime χ.modulus.toNat := by
  constructor
  · intro h ha
    rcases χ.dirichlet_of_coprime ha with h1 | h1 <;> omega
  · intro ha
    exact MulChar.map_nonunit _ fun hu => ha ((ZMod.isUnit_iff_coprime a _).mp hu)

/-! ### The laws of the values -/

theorem value_eq_of_modEq {a b : UInt64} (h : a.toNat ≡ b.toNat [MOD χ.modulus.toNat]) :
    χ.value a = χ.value b := by
  rw [value_eq, value_eq, (ZMod.natCast_eq_natCast_iff _ _ _).mpr h]

theorem valueInt_eq_of_modEq {a b : Int64} (h : a.toInt ≡ b.toInt [ZMOD χ.modulus.toNat]) :
    χ.valueInt a = χ.valueInt b := by
  rw [valueInt_eq, valueInt_eq, (ZMod.intCast_eq_intCast_iff _ _ _).mpr h]

theorem valueInt_eq_value_of_modEq {a : Int64} {b : UInt64}
    (h : a.toInt ≡ b.toNat [ZMOD χ.modulus.toNat]) : χ.valueInt a = χ.value b := by
  rw [valueInt_eq, value_eq, (ZMod.intCast_eq_intCast_iff _ _ _).mpr h, Int.cast_natCast]

/-- The product may not be taken among words, where it could wrap around. -/
theorem valueInt_of_eq_mul {a b c : Int64} (h : c.toInt = a.toInt * b.toInt) :
    χ.valueInt c = χ.valueInt a * χ.valueInt b := by
  rw [valueInt_eq, valueInt_eq, valueInt_eq, h, Int.cast_mul, map_mul]

theorem value_eq_zero_iff (a : UInt64) :
    χ.value a = 0 ↔ 1 < Int.gcd a.toNat χ.discriminant.toInt := by
  have hpos : 0 < a.toNat.gcd χ.modulus.toNat := Nat.gcd_pos_of_pos_right _ (NeZero.pos _)
  rw [value_eq, dirichlet_eq_zero_iff, gcd_discriminant, Nat.coprime_iff_gcd_eq_one]
  omega

theorem value_of_ne_zero {a : UInt64} (h : χ.value a ≠ 0) : χ.value a = 1 ∨ χ.value a = -1 := by
  rw [value_eq] at h ⊢
  exact χ.dirichlet_of_coprime (not_not.mp fun ha => h ((χ.dirichlet_eq_zero_iff _).mpr ha))

theorem valueInt_neg_one : χ.valueInt (-1) = χ.parity := by
  have hone : ((-1 : Int64).toInt : ZMod χ.modulus.toNat) = -1 := by
    show ((-1 : ℤ) : ZMod χ.modulus.toNat) = -1
    rw [Int.cast_neg, Int.cast_one]
  rw [valueInt_eq, hone, dirichlet_neg_one]

theorem discriminant_of_ok {admission : Admission} {d : Int64}
    (h : ofDiscriminant admission d = .ok χ) : χ.discriminant = d := by
  unfold ofDiscriminant at h
  split_ifs at h
  rw [← Except.ok.inj h]

/-- **A character that is admitted is a real Dirichlet character** modulo `|d|`: it has the same
value at integers and natural numbers of one class, it is multiplicative, its zeros are the numbers
that have a factor in common with `d`, its other values are 1 and `-1`, and its parity is the value
at `-1`. -/
theorem values_of_admitted (admission : Admission) (d : Int64)
    (h : ofDiscriminant admission d = .ok χ) :
    (χ.modulus.toNat = d.toInt.natAbs ∧ ∃ ψ : DirichletCharacter ℤ χ.modulus.toNat,
        (∀ b : UInt64, χ.value b = ψ b.toNat) ∧ ∀ a : Int64, χ.valueInt a = ψ a.toInt) ∧
      (∀ (a : Int64) (b : UInt64), a.toInt ≡ b.toNat [ZMOD d.toInt.natAbs] →
        χ.valueInt a = χ.value b) ∧
      (∀ a b : UInt64, a.toNat ≡ b.toNat [MOD d.toInt.natAbs] → χ.value a = χ.value b) ∧
      (∀ a b : Int64, a.toInt ≡ b.toInt [ZMOD d.toInt.natAbs] → χ.valueInt a = χ.valueInt b) ∧
      (∀ a b c : Int64, c.toInt = a.toInt * b.toInt →
        χ.valueInt c = χ.valueInt a * χ.valueInt b) ∧
      (∀ a : UInt64, (χ.value a = 0 ↔ 1 < Int.gcd a.toNat d.toInt) ∧
        (χ.value a ≠ 0 → χ.value a = 1 ∨ χ.value a = -1)) ∧
      χ.valueInt (-1) = χ.parity := by
  have hd := χ.discriminant_of_ok h
  have hmod : χ.modulus.toNat = d.toInt.natAbs := by rw [toNat_modulus, hd]
  rw [← hmod, ← hd]
  refine ⟨⟨rfl, χ.dirichlet, χ.value_eq, χ.valueInt_eq⟩, ?_, ?_, ?_, ?_, ?_, χ.valueInt_neg_one⟩
  · intro a b hab
    exact χ.valueInt_eq_value_of_modEq hab
  · intro a b hab
    exact χ.value_eq_of_modEq hab
  · intro a b hab
    exact χ.valueInt_eq_of_modEq hab
  · intro a b c hc
    exact χ.valueInt_of_eq_mul hc
  · intro a
    exact ⟨χ.value_eq_zero_iff a, χ.value_of_ne_zero⟩

/-- The least word is a discriminant: its character at `-1`, at `2 ^ 63 - 1`, and at -15 as a
product. -/
theorem values_of_admitted_least :
    ∃ χ : QuadraticCharacter, ofDiscriminant .discriminant Int64.minValue = .ok χ ∧
      (-1 : Int64).toInt ≡ (9223372036854775807 : UInt64).toNat [ZMOD Int64.minValue.toInt.natAbs] ∧
      χ.valueInt (-1) = χ.value 9223372036854775807 ∧ χ.valueInt (-1) = χ.parity ∧
      (-15 : Int64).toInt = (-3 : Int64).toInt * (5 : Int64).toInt ∧
      χ.valueInt (-15) = χ.valueInt (-3) * χ.valueInt 5 := by
  have hd : IsDiscriminant Int64.minValue := by decide
  have hχ : ofDiscriminant .discriminant Int64.minValue = .ok ⟨Int64.minValue, hd⟩ := rfl
  obtain ⟨-, hclass, -, -, hmul, -, hparity⟩ := values_of_admitted _ _ _ hχ
  have h1 : (-1 : Int64).toInt ≡ (9223372036854775807 : UInt64).toNat
      [ZMOD Int64.minValue.toInt.natAbs] := by decide
  have h15 : (-15 : Int64).toInt = (-3 : Int64).toInt * (5 : Int64).toInt := by decide
  exact ⟨_, hχ, h1, hclass _ _ h1, hparity, h15, hmul _ _ _ h15⟩

end ZetaValues.QuadraticCharacter
