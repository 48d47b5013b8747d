import ZetaValues.Argument
import Mathlib.Tactic.SplitIfs

/-! # Arguments that are accepted

A check passes a word on as the natural number it stands for, and what follows the check may rely on
its bound. -/

namespace ZetaValues.Argument

theorem natural_of_nonneg (a : Argument) {v : Int64} (h : 0 ≤ v.toInt) :
    a.natural v = .ok v.toInt.toNat := by
  rw [natural, if_neg (by omega)]

theorem indexUpTo_of_le (a : Argument) {bound : Nat} {v : Int64} (h0 : 0 ≤ v.toInt)
    (h : v.toInt ≤ bound) : a.indexUpTo bound v = .ok v.toInt.toNat := by
  rw [indexUpTo, natural_of_nonneg a h0]
  show (if bound < v.toInt.toNat then _ else _) = _
  rw [if_neg (by omega)]

theorem index_of_le (a : Argument) {v : Int64} (h0 : 0 ≤ v.toInt) (h : v.toInt ≤ maxIndex) :
    a.index v = .ok v.toInt.toNat :=
  a.indexUpTo_of_le h0 h

theorem indexBelow_of_lt (a : Argument) {v : Int64} (h0 : 0 ≤ v.toInt) (h : v.toInt < maxIndex) :
    a.indexBelow v = .ok v.toInt.toNat :=
  a.indexUpTo_of_le h0 (by omega)

theorem weight_of_pos (a : Argument) {v : Int64} (h1 : 1 ≤ v.toInt) :
    a.weight v = .ok v.toInt.toNat :=
  if_neg (Int.not_lt.mpr h1)

theorem positive_of_ne_zero (a : Argument) {m : UInt64} (h : m ≠ 0) : a.positive m = .ok m.toNat :=
  if_neg h

/-- A word that stands for an index is accepted as that index. -/
theorem index_ofNat (a : Argument) {i : Nat} (h : i ≤ maxIndex) : a.index (.ofNat i) = .ok i := by
  have hmax : maxIndex = 16384 := rfl
  have hword : (Int64.ofNat i).toInt = i := Int64.toInt_ofNat_of_lt (by omega)
  rw [index_of_le a (by omega) (by omega), hword, Int.toNat_natCast]

/-! ### What is accepted -/

theorem natural_eq_ok {a : Argument} {v : Int64} {i : Nat} (h : a.natural v = .ok i) :
    v.toInt = i := by
  unfold natural at h
  split_ifs at h
  have := Except.ok.inj h
  omega

theorem indexUpTo_eq_ok {a : Argument} {bound : Nat} {v : Int64} {i : Nat}
    (h : a.indexUpTo bound v = .ok i) : v.toInt = i ∧ i ≤ bound := by
  unfold indexUpTo at h
  cases hi : a.natural v with
  | error e =>
    rw [hi] at h
    cases h
  | ok j =>
    rw [hi] at h
    change (if bound < j then _ else _) = _ at h
    split_ifs at h with hj
    obtain rfl := Except.ok.inj h
    exact ⟨natural_eq_ok hi, Nat.le_of_not_lt hj⟩

/-- What follows the check of an index may rely on its successor being an index as well. -/
theorem indexBelow_bind_congr {α : Type} (a : Argument) (v : Int64) {f g : Nat → Checked α}
    (h : ∀ i, i + 1 ≤ maxIndex → f i = g i) : a.indexBelow v >>= f = a.indexBelow v >>= g := by
  cases hi : a.indexBelow v with
  | error e => rfl
  | ok i =>
    have hmax : maxIndex = 16384 := rfl
    have hle : i ≤ maxIndex - 1 := (indexUpTo_eq_ok hi).2
    exact h i (by omega)

/-! ### Words of accepted arguments -/

/-- An index that has a successor has it as a word. -/
theorem toInt_add_one {v : Int64} (h0 : 0 ≤ v.toInt) (h : v.toInt < maxIndex) :
    (v + 1).toInt = v.toInt + 1 := by
  have hone : (1 : Int64).toInt = 1 := rfl
  have hmax : maxIndex = 16384 := rfl
  rw [Int64.toInt_add, hone]
  exact Int.bmod_eq_of_le (by omega) (by omega)

/-- A difference that is not negative is not below zero as a word either. -/
theorem toInt_sub_of_le {v w : Int64} (h0 : 0 ≤ w.toInt) (h : w.toInt ≤ v.toInt) :
    (v - w).toInt = v.toInt - w.toInt := by
  have hv := v.toInt_lt
  rw [Int64.toInt_sub]
  exact Int.bmod_eq_of_le (by omega) (by omega)

end ZetaValues.Argument
