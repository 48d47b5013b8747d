import ZetaValues.Exact.Word
import ZetaValues.TrialDivision

/-! # Discriminants

A discriminant is a nonzero integer that is 0 or 1 modulo 4. It is fundamental if it is 1 modulo 4
and squarefree, or four times a squarefree number that is 2 or 3 modulo 4; the discriminant 1 of the
rational field is one of them. -/

namespace ZetaValues

open Exact TrialDivision

/-- A discriminant is nonzero, and 0 or 1 modulo 4. -/
def IsDiscriminant (d : Int64) : Prop :=
  d ≠ 0 ∧ (d.toInt % 4 = 0 ∨ d.toInt % 4 = 1)

instance : DecidablePred IsDiscriminant :=
  fun d => inferInstanceAs (Decidable (d ≠ 0 ∧ (d.toInt % 4 = 0 ∨ d.toInt % 4 = 1)))

/-- A fundamental discriminant is that of a quadratic field, or 1. -/
def IsFundamental (d : Int64) : Prop :=
  if d.toInt % 4 = 1 then
    isSquarefree (magnitude d) = true
  else
    d.toInt % 4 = 0 ∧ ((d / 4).toInt % 4 = 2 ∨ (d / 4).toInt % 4 = 3) ∧
      isSquarefree (magnitude (d / 4)) = true

instance : DecidablePred IsFundamental :=
  fun d => inferInstanceAs (Decidable (if d.toInt % 4 = 1 then _ else _))

/-- Zero is excluded, since a quarter of it is 0 modulo 4. -/
theorem IsFundamental.isDiscriminant {d : Int64} (h : IsFundamental d) : IsDiscriminant d := by
  refine ⟨fun h0 => ?_, ?_⟩
  · subst h0
    simp [IsFundamental] at h
  · unfold IsFundamental at h
    split at h
    · exact .inr ‹_›
    · exact .inl h.1

/-- Which discriminants are admitted. -/
inductive Admission where
  /-- Fundamental discriminants only, so that their characters are primitive. -/
  | fundamental
  | discriminant
  deriving DecidableEq

namespace Admission

def Admits : Admission → Int64 → Prop
  | fundamental, d => IsFundamental d
  | discriminant, d => IsDiscriminant d

instance (a : Admission) : DecidablePred a.Admits :=
  match a with
  | fundamental => inferInstanceAs (DecidablePred IsFundamental)
  | discriminant => inferInstanceAs (DecidablePred IsDiscriminant)

theorem Admits.isDiscriminant {a : Admission} {d : Int64} (h : a.Admits d) : IsDiscriminant d :=
  match a, h with
  | fundamental, h => IsFundamental.isDiscriminant h
  | discriminant, h => h

end Admission

end ZetaValues
