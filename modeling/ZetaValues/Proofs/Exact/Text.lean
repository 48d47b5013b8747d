import ZetaValues.Exact.Text
import Mathlib.Data.List.TakeWhile
import Mathlib.Data.Rat.Lemmas
import Mathlib.Tactic.SplitIfs

/-! # Written forms of fractions can be told apart

A text is cut before the first place where a mark stands: if no part before the cut has the mark and
each part after it is empty or starts with it, then both parts are determined by the whole
(`append_inj_of_marked`). A fraction is cut at its `/`, which does not occur in a numerator, and
what is on either side of it are decimal numbers (`fractionText_injective`), whose digits can be read
back (`ofDigitChars_repr`). -/

namespace ZetaValues.Exact

/-! ### Cutting a text at a mark -/

/-- The text is empty, or the mark `c` stands at its head. -/
def Marked (c : Char) (t : String) : Prop := t = "" ∨ t.toList.head? = some c

theorem marked_append {c : Char} {t : String} (h : t.toList.head? = some c) (u : String) :
    Marked c (t ++ u) := by
  right
  rw [String.toList_append, List.head?_append, h, Option.some_or]

/-- What stands before the first mark is read back by taking characters up to it. -/
theorem takeWhile_append_of_marked {c : Char} {a s : String} (ha : c ∉ a.toList)
    (hs : Marked c s) : (a ++ s).toList.takeWhile (· ≠ c) = a.toList := by
  have hfree : ∀ x ∈ a.toList, decide (x ≠ c) = true := by
    intro x hx
    exact decide_eq_true (ne_of_mem_of_not_mem hx ha)
  rw [String.toList_append, List.takeWhile_append_of_pos hfree]
  rcases hs with rfl | hs
  · exact List.append_nil _
  · obtain ⟨l, hl⟩ := List.head?_eq_some_iff.mp hs
    rw [hl, List.takeWhile_cons_of_neg (by simp), List.append_nil]

/-- **The cut is unique.** -/
theorem append_inj_of_marked {c : Char} {a b s t : String} (ha : c ∉ a.toList)
    (hb : c ∉ b.toList) (hs : Marked c s) (ht : Marked c t) (h : a ++ s = b ++ t) :
    a = b ∧ s = t := by
  have hab : a = b := by
    rw [← String.toList_inj, ← takeWhile_append_of_marked ha hs, h,
      takeWhile_append_of_marked hb ht]
  subst hab
  exact ⟨rfl, (String.append_right_inj a).mp h⟩

/-! ### Numbers -/

/-- The decimal digits of a number, read back. -/
theorem ofDigitChars_repr (n : ℕ) : Nat.ofDigitChars 10 n.repr.toList 0 = n := by
  rw [Nat.toList_repr, Nat.ofDigitChars_ten_toDigits]

theorem eq_of_repr_eq {m n : ℕ} (h : m.repr = n.repr) : m = n := by
  rw [← ofDigitChars_repr m, h, ofDigitChars_repr]

theorem isDigit_of_mem_repr {n : ℕ} {x : Char} (h : x ∈ n.repr.toList) : x.isDigit = true := by
  rw [Nat.toList_repr] at h
  exact Nat.isDigit_of_mem_toDigits (by decide) (by decide) h

theorem mem_integerText {n : ℤ} {x : Char} (h : x ∈ (integerText n).toList) :
    x = '-' ∨ x.isDigit = true := by
  rw [integerText, Int.repr_eq_if] at h
  split_ifs at h with hn
  · exact Or.inr (isDigit_of_mem_repr h)
  · rw [String.toList_append, List.mem_append] at h
    rcases h with h | h
    · exact Or.inl (List.mem_singleton.mp h)
    · exact Or.inr (isDigit_of_mem_repr h)

/-- A sign tells the numbers below zero from the others. -/
theorem repr_ne_minus_append (m n : ℕ) : m.repr ≠ "-" ++ n.repr := by
  intro h
  have hminus : '-' ∈ m.repr.toList := by
    rw [h, String.toList_append]
    exact List.mem_append_left _ (List.mem_singleton.mpr rfl)
  exact absurd (isDigit_of_mem_repr hminus) (by decide)

/-- **The text of an integer determines it.** -/
theorem integerText_injective : Function.Injective integerText := by
  intro m n h
  rw [integerText, integerText, Int.repr_eq_if, Int.repr_eq_if] at h
  split_ifs at h with hm hn hn
  · have heq := eq_of_repr_eq h
    omega
  · exact absurd h (repr_ne_minus_append _ _)
  · exact absurd h.symm (repr_ne_minus_append _ _)
  · have heq := eq_of_repr_eq ((String.append_right_inj "-").mp h)
    omega

/-! ### Fractions -/

/-- The text of a denominator other than 1, with the `/` before it. -/
def denominatorText (d : ℕ) : String :=
  if d = 1 then "" else "/" ++ d.repr

theorem fractionText_eq (q : ℚ) : fractionText q = integerText q.num ++ denominatorText q.den := by
  unfold fractionText denominatorText
  split_ifs
  · exact String.append_empty.symm
  · exact String.append_assoc

theorem marked_denominatorText (d : ℕ) : Marked '/' (denominatorText d) := by
  unfold denominatorText
  split_ifs
  · exact Or.inl rfl
  · exact marked_append rfl _

theorem denominatorText_injective : Function.Injective denominatorText := by
  intro d e h
  unfold denominatorText at h
  split_ifs at h with hd he he
  · rw [hd, he]
  · simp at h
  · simp at h
  · exact eq_of_repr_eq ((String.append_right_inj "/").mp h)

theorem mem_denominatorText {d : ℕ} {x : Char} (h : x ∈ (denominatorText d).toList) :
    x = '/' ∨ x.isDigit = true := by
  unfold denominatorText at h
  split_ifs at h
  · simp at h
  · rw [String.toList_append, List.mem_append] at h
    rcases h with h | h
    · exact Or.inl (List.mem_singleton.mp h)
    · exact Or.inr (isDigit_of_mem_repr h)

theorem mem_fractionText {q : ℚ} {x : Char} (h : x ∈ (fractionText q).toList) :
    x = '-' ∨ x = '/' ∨ x.isDigit = true := by
  rw [fractionText_eq, String.toList_append, List.mem_append] at h
  rcases h with h | h
  · exact (mem_integerText h).imp_right Or.inr
  · exact Or.inr (mem_denominatorText h)

theorem notMem_fractionText {c : Char} (hminus : c ≠ '-') (hslash : c ≠ '/')
    (hdigit : c.isDigit = false) (q : ℚ) : c ∉ (fractionText q).toList := by
  intro h
  rcases mem_fractionText h with h | h | h
  · exact hminus h
  · exact hslash h
  · rw [hdigit] at h; exact Bool.false_ne_true h

/-- **The text of a fraction determines it.** -/
theorem fractionText_injective : Function.Injective fractionText := by
  intro p q h
  -- a sign may stand in front of the numerator, so the characters before the cut are not all digits
  have hslash : ∀ n : ℤ, '/' ∉ (integerText n).toList := by
    intro n hmem
    exact absurd (mem_integerText hmem) (by decide)
  rw [fractionText_eq, fractionText_eq] at h
  obtain ⟨hnum, hden⟩ := append_inj_of_marked (hslash p.num) (hslash q.num)
    (marked_denominatorText p.den) (marked_denominatorText q.den) h
  exact Rat.ext (integerText_injective hnum) (denominatorText_injective hden)

/-- **The text of a fraction in lowest terms**, however it is given. -/
theorem fractionText_div {n : ℤ} {d : ℕ} (hd : d ≠ 0) (h : n.natAbs.Coprime d) :
    fractionText (n / d) = integerText n ++ denominatorText d := by
  have hpos : (0 : ℤ) < d := Int.natCast_pos.mpr (Nat.pos_of_ne_zero hd)
  have hnum : (n / d : ℚ).num = n := Rat.num_div_eq_of_coprime hpos h
  have hden : ((n / d : ℚ).den : ℤ) = d := Rat.den_div_eq_of_coprime hpos h
  rw [fractionText_eq, hnum, Int.natCast_inj.mp hden]

end ZetaValues.Exact
