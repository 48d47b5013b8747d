import ZetaValues.DensePoly.Text
import ZetaValues.Proofs.Exact.Text
import Mathlib.Data.List.Sort

/-! # The written form of a polynomial determines its coefficients

The text is undone from the outside in. No term has a space, so a text of joined terms has only one
list of terms (`eq_of_intercalate_eq`); no coefficient has a `*`, so a term has only one coefficient
and one degree (`termText_inj`). The terms that are written are those with a nonzero coefficient, in
falling degree, and so they are the same exactly if the coefficients are (`writtenTerms_eq_iff`). -/

namespace ZetaValues.DensePoly

open Exact

/-! ### One term -/

/-- What a term has after its coefficient. -/
def powerText : ℕ → String
  | 0 => ""
  | 1 => "*x"
  | i => "*x^" ++ i.repr

theorem powerText_add_two (i : ℕ) : powerText (i + 2) = "*x^" ++ (i + 2).repr := rfl

theorem termText_eq (c : ℚ) (i : ℕ) : termText c i = fractionText c ++ powerText i := by
  match i with
  | 0 => exact String.append_empty.symm
  | 1 => rfl
  | _ + 2 => exact String.append_assoc

theorem marked_powerText (i : ℕ) : Marked '*' (powerText i) := by
  match i with
  | 0 => exact Or.inl rfl
  | 1 => exact Or.inr rfl
  | _ + 2 => exact marked_append rfl _

theorem powerText_injective : Function.Injective powerText := by
  intro i j h
  match i, j with
  | 0, 0 | 1, 1 => rfl
  | _ + 2, _ + 2 => exact eq_of_repr_eq ((String.append_right_inj "*x^").mp h)
  -- the shapes differ in length, or at the `^`
  | 0, 1 | 1, 0 | 0, _ + 2 | _ + 2, 0 | 1, _ + 2 | _ + 2, 1 =>
    simp [powerText, ← String.toList_inj] at h

/-- **A term** has one coefficient and one degree. -/
theorem termText_inj {c d : ℚ} {i j : ℕ} (h : termText c i = termText d j) : c = d ∧ i = j := by
  have hstar : ∀ q : ℚ, '*' ∉ (fractionText q).toList :=
    notMem_fractionText (by decide) (by decide) (by decide)
  rw [termText_eq, termText_eq] at h
  obtain ⟨hcoeff, hpower⟩ := append_inj_of_marked (hstar c) (hstar d) (marked_powerText i)
    (marked_powerText j) h
  exact ⟨fractionText_injective hcoeff, powerText_injective hpower⟩

theorem space_notMem_powerText (i : ℕ) : ' ' ∉ (powerText i).toList := by
  match i with
  | 0 => decide
  | 1 => decide
  | i + 2 =>
    intro h
    rw [powerText_add_two, String.toList_append, List.mem_append] at h
    rcases h with h | h
    · exact absurd h (by decide)
    · exact absurd (isDigit_of_mem_repr h) (by decide)

theorem space_notMem_termText (c : ℚ) (i : ℕ) : ' ' ∉ (termText c i).toList := by
  rw [termText_eq, String.toList_append, List.mem_append, not_or]
  exact ⟨notMem_fractionText (by decide) (by decide) (by decide) c, space_notMem_powerText i⟩

/-! ### Joined terms -/

/-- What stands after the first term. -/
def afterFirst : List String → String
  | [] => ""
  | ts => " + " ++ " + ".intercalate ts

theorem afterFirst_of_ne_nil {ts : List String} (h : ts ≠ []) :
    afterFirst ts = " + " ++ " + ".intercalate ts := by
  cases ts with
  | nil => exact absurd rfl h
  | cons t ts => rfl

theorem intercalate_cons_eq (t : String) (ts : List String) :
    " + ".intercalate (t :: ts) = t ++ afterFirst ts := by
  cases ts with
  | nil => rw [String.intercalate_singleton, afterFirst, String.append_empty]
  | cons u ts => rw [String.intercalate_cons_cons, String.append_assoc]; rfl

theorem marked_afterFirst (ts : List String) : Marked ' ' (afterFirst ts) := by
  cases ts with
  | nil => exact Or.inl rfl
  | cons t ts => exact marked_append rfl _

section
variable {ts us : List String} (hts : ∀ t ∈ ts, ' ' ∉ t.toList) (hus : ∀ u ∈ us, ' ' ∉ u.toList)
include hts hus

theorem eq_of_afterFirst_eq (h : afterFirst ts = afterFirst us) : ts = us := by
  induction ts generalizing us with
  | nil =>
    cases us with
    | nil => rfl
    | cons u us => exact absurd h (by simp [afterFirst])
  | cons t ts ih =>
    cases us with
    | nil => exact absurd h (by simp [afterFirst])
    | cons u us =>
      rw [List.forall_mem_cons] at hts hus
      have hjoined := (String.append_right_inj " + ").mp h
      rw [intercalate_cons_eq, intercalate_cons_eq] at hjoined
      obtain ⟨rfl, hrest⟩ := append_inj_of_marked hts.1 hus.1 (marked_afterFirst ts)
        (marked_afterFirst us) hjoined
      rw [ih hts.2 hus.2 hrest]

/-- **Joining can be undone** for terms without a space. -/
theorem eq_of_intercalate_eq (hts0 : ts ≠ []) (hus0 : us ≠ [])
    (h : " + ".intercalate ts = " + ".intercalate us) : ts = us := by
  refine eq_of_afterFirst_eq hts hus ?_
  rw [afterFirst_of_ne_nil hts0, afterFirst_of_ne_nil hus0, h]

end

/-! ### The terms that are written -/

/-- The terms that are written: those with a nonzero coefficient, from the highest degree down. -/
def writtenTerms (p : DensePoly) : List (ℚ × ℕ) :=
  p.coeffs.zipIdx.reverse.filter fun (c, _) => c ≠ 0

theorem mem_writtenTerms {p : DensePoly} {c : ℚ} {i : ℕ} :
    (c, i) ∈ p.writtenTerms ↔ c ≠ 0 ∧ p.coeff i = c := by
  rw [writtenTerms, List.mem_filter, List.mem_reverse, List.mk_mem_zipIdx_iff_getElem?, and_comm,
    decide_eq_true_iff, coeff, List.getD_eq_getElem?_getD]
  refine and_congr_right fun hc => ?_
  cases p.coeffs[i]? with
  | none => exact iff_of_false (by simp) (Ne.symm hc)
  | some d => exact Option.some_inj

/-- The first term is of a higher degree than the second. -/
def Above (s t : ℚ × ℕ) : Prop := t.2 < s.2

instance : Std.Irrefl Above := ⟨fun s => Nat.lt_irrefl s.2⟩

instance : Std.Antisymm Above := ⟨fun _ _ hst hts => absurd hst (Nat.lt_asymm hts)⟩

theorem pairwise_writtenTerms (p : DensePoly) : p.writtenTerms.Pairwise Above := by
  have hrising : (p.coeffs.zipIdx.map Prod.snd).Pairwise (· < ·) := by
    rw [List.zipIdx_map_snd]
    exact List.pairwise_lt_range'
  exact (List.pairwise_reverse.mpr (List.pairwise_map.mp hrising)).filter _

theorem coeff_eq_of_writtenTerms_eq {p q : DensePoly} (h : p.writtenTerms = q.writtenTerms) {i : ℕ}
    (hi : p.coeff i ≠ 0) : q.coeff i = p.coeff i := by
  have hmem : (p.coeff i, i) ∈ p.writtenTerms := mem_writtenTerms.mpr ⟨hi, rfl⟩
  rw [h] at hmem
  exact (mem_writtenTerms.mp hmem).2

/-- **The terms that are written** are the same exactly if all the coefficients are. -/
theorem writtenTerms_eq_iff {p q : DensePoly} :
    p.writtenTerms = q.writtenTerms ↔ ∀ i, p.coeff i = q.coeff i := by
  constructor
  · intro h i
    by_cases hp : p.coeff i = 0
    · by_contra hne
      have hq : q.coeff i ≠ 0 := fun hq => hne (hp.trans hq.symm)
      exact hne (coeff_eq_of_writtenTerms_eq h.symm hq)
    · exact (coeff_eq_of_writtenTerms_eq h hp).symm
  · intro h
    refine (pairwise_writtenTerms p).eq_of_mem_iff (pairwise_writtenTerms q) ?_
    rintro ⟨c, i⟩
    rw [mem_writtenTerms, mem_writtenTerms, h i]

/-! ### The whole text -/

/-- The terms that are shown: the constant term 0 if there are none to write. That is not a term
that is ever written, so these can be read off. -/
def shownTerms (p : DensePoly) : List (ℚ × ℕ) :=
  if p.writtenTerms = [] then [(0, 0)] else p.writtenTerms

theorem shownTerms_ne_nil (p : DensePoly) : p.shownTerms ≠ [] := by
  unfold shownTerms
  split_ifs with h
  · exact List.cons_ne_nil _ _
  · exact h

/-- Without terms the text is that of the constant term 0. -/
theorem text_eq_intercalate (p : DensePoly) :
    p.text = " + ".intercalate (p.shownTerms.map fun (c, i) => termText c i) := by
  have hterms : p.termTexts = p.writtenTerms.map fun (c, i) => termText c i := rfl
  unfold text shownTerms
  rw [hterms]
  by_cases h : p.writtenTerms = []
  · rw [if_pos h, h]; rfl
  · rw [if_neg h, if_neg (by simpa using h)]

theorem writtenTerms_eq_filter (p : DensePoly) :
    p.writtenTerms = p.shownTerms.filter fun (c, _) => c ≠ 0 := by
  unfold shownTerms
  split_ifs with h
  · rw [h]; rfl
  · refine (List.filter_eq_self.mpr ?_).symm
    rintro ⟨c, i⟩ hmem
    exact decide_eq_true (mem_writtenTerms.mp hmem).1

theorem shownTerms_eq_of_text_eq {p q : DensePoly} (h : p.text = q.text) :
    p.shownTerms = q.shownTerms := by
  have hspace : ∀ r : DensePoly, ∀ t ∈ r.shownTerms.map fun (c, i) => termText c i,
      ' ' ∉ t.toList := by
    intro r t ht
    obtain ⟨⟨c, i⟩, -, rfl⟩ := List.mem_map.mp ht
    exact space_notMem_termText c i
  have hne : ∀ r : DensePoly, (r.shownTerms.map fun (c, i) => termText c i) ≠ [] := fun r =>
    mt List.map_eq_nil_iff.mp r.shownTerms_ne_nil
  rw [text_eq_intercalate, text_eq_intercalate] at h
  refine List.map_injective_iff.mpr ?_ (eq_of_intercalate_eq (hspace p) (hspace q) (hne p) (hne q) h)
  rintro ⟨c, i⟩ ⟨d, j⟩ hterm
  obtain ⟨rfl, rfl⟩ := termText_inj hterm
  rfl

/-- **The text determines the coefficients**, and is determined by them. -/
theorem text_eq_iff {p q : DensePoly} : p.text = q.text ↔ ∀ i, p.coeff i = q.coeff i := by
  rw [← writtenTerms_eq_iff]
  constructor
  · intro h
    rw [writtenTerms_eq_filter, shownTerms_eq_of_text_eq h, ← writtenTerms_eq_filter]
  · intro h
    rw [text_eq_intercalate, text_eq_intercalate, shownTerms, shownTerms, h]

example : text ⟨[-1 / 30, 0, 1]⟩ = "1*x^2 + -1/30" := by cbv

/-- **The written form determines a polynomial up to zeros at the end**: two texts are equal exactly
if all coefficients are, `0` is written exactly if they all vanish, and a coefficient is determined
by its text, which is that of its numerator and denominator in lowest terms. -/
theorem text_determines (p q : DensePoly) (a b : ℚ) :
    (p.text = q.text ↔ ∀ i, p.coeff i = q.coeff i) ∧ (p.text = "0" ↔ ∀ i, p.coeff i = 0) ∧
      (fractionText a = fractionText b ↔ a = b) ∧
      ∀ (n : ℤ) (d : ℕ), d ≠ 0 → n.natAbs.Coprime d →
        fractionText (n / d) = if d = 1 then n.repr else n.repr ++ "/" ++ d.repr := by
  refine ⟨text_eq_iff, ?_, fractionText_injective.eq_iff, fun n d hd hcop => ?_⟩
  · have hzero : text zero = "0" := rfl
    rw [← hzero, text_eq_iff]
    rfl
  · rw [fractionText_div hd hcop, denominatorText]
    split_ifs
    · exact String.append_empty
    · exact String.append_assoc.symm

/-- A polynomial with a fraction for its constant term, beside itself with a zero at the end, and a
polynomial with nothing but zeros. -/
theorem text_determines_trailing_zero :
    (2730 : ℕ) ≠ 0 ∧ (-691 : ℤ).natAbs.Coprime 2730 ∧
      fractionText ((-691 : ℤ) / (2730 : ℕ)) = "-691/2730" ∧
      text ⟨[-691 / 2730, 0, 1]⟩ = text ⟨[-691 / 2730, 0, 1, 0]⟩ ∧ text ⟨[0, 0]⟩ = "0" := by
  have hd : (2730 : ℕ) ≠ 0 := by decide
  have hcop : (-691 : ℤ).natAbs.Coprime 2730 := by decide
  obtain ⟨hsame, -, -, hform⟩ := text_determines ⟨[-691 / 2730, 0, 1]⟩ ⟨[-691 / 2730, 0, 1, 0]⟩ 0 0
  obtain ⟨-, hzero, -⟩ := text_determines ⟨[0, 0]⟩ zero 0 0
  refine ⟨hd, hcop, hform (-691) 2730 hd hcop, hsame.mpr ?_, hzero.mpr ?_⟩
  · intro i
    match i with
    | 0 | 1 | 2 | 3 | _ + 4 => rfl
  · intro i
    match i with
    | 0 | 1 | _ + 2 => rfl

end ZetaValues.DensePoly
