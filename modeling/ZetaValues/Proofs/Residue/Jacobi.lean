import ZetaValues.Residue.Jacobi
import Mathlib.NumberTheory.LegendreSymbol.JacobiSymbol

/-! # The reciprocity loop computes the Jacobi symbol

Each step of `oddSymbol` is one of the laws of the Jacobi symbol: the value at 2, quadratic
reciprocity, and periodicity in the numerator. The modulus stays odd, so the recursion ends in the
symbol (`oddSymbol_eq`). -/

namespace ZetaValues.Residue

open NumberTheorySymbols
open ZMod (χ₈)

/-! ### Words -/

theorem mod_two_eq_zero_iff (n : UInt64) : n % 2 = 0 ↔ n.toNat % 2 = 0 := by
  rw [← UInt64.toNat_inj, UInt64.toNat_mod]; rfl

theorem toNat_half (n : UInt64) : (n / 2).toNat = n.toNat / 2 := UInt64.toNat_div n 2

/-! ### The signs -/

theorem symbolOfTwo_eq {a : ℤ} (ha : a % 2 = 1) : symbolOfTwo a = χ₈ a := by
  rw [ZMod.χ₈_int_eq_if_mod_eight, symbolOfTwo]
  split_ifs <;> omega

theorem symbolOfTwo_natCast {n : ℕ} (hn : n % 2 = 1) : symbolOfTwo n = J(2 | n) := by
  rw [jacobiSym.at_two (Nat.odd_iff.mpr hn), symbolOfTwo_eq (by omega), Int.cast_natCast]

theorem reciprocitySign_eq (a n : UInt64) :
    reciprocitySign a n = if a.toNat % 4 = 3 ∧ n.toNat % 4 = 3 then -1 else 1 := by
  unfold reciprocitySign
  simp only [← UInt64.toNat_inj, UInt64.toNat_mod]
  rfl

/-- An odd numerator and the modulus change places. -/
theorem reciprocitySign_mul {a n : UInt64} (ha : a.toNat % 2 = 1) (hn : n.toNat % 2 = 1) :
    reciprocitySign a n * J(n.toNat | a.toNat) = J(a.toNat | n.toNat) := by
  rw [reciprocitySign_eq, ← jacobiSym.quadratic_reciprocity_if ha hn]
  split_ifs
  · rw [neg_one_mul]
  · rw [one_mul]

/-! ### The loop -/

/-- **The loop computes the Jacobi symbol** of an odd modulus. -/
theorem oddSymbol_eq (a n : UInt64) (hn : n.toNat % 2 = 1) :
    oddSymbol a n = J(a.toNat | n.toNat) := by
  induction a, n using oddSymbol.induct with
  | case1 =>
    rw [oddSymbol, if_pos rfl, if_pos rfl]
    exact (jacobiSym.one_right _).symm
  | case2 n h1 =>
    have h1' : n.toNat ≠ 1 := fun h => h1 (UInt64.toNat_inj.mp h)
    rw [oddSymbol, if_pos rfl, if_neg h1]
    exact (jacobiSym.zero_left (by omega)).symm
  | case3 a n h0 he ih =>
    have he' : a.toNat % 2 = 0 := (mod_two_eq_zero_iff a).mp he
    rw [oddSymbol, if_neg h0, if_pos he, ih hn, symbolOfTwo_natCast hn, ← jacobiSym.mul_left,
      toNat_half]
    congr 1
    omega
  | case4 a n h0 ho ih =>
    have ho' : a.toNat % 2 = 1 := by
      rw [mod_two_eq_zero_iff] at ho
      omega
    rw [oddSymbol, if_neg h0, if_neg ho, ih ho', UInt64.toNat_mod, Int.natCast_mod,
      ← jacobiSym.mod_left, reciprocitySign_mul ho' hn]

end ZetaValues.Residue
