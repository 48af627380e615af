import Mathlib.Algebra.Field.IsField
import Mathlib.FieldTheory.Finite.Basic

/-! Rings with computed inverses.

`IsInverse inv` says that the call `inv` finds an inverse of every element but zero. A
nontrivial ring that has one is a field, and a finite one has as many roots of unity
as it should. -/
namespace OpenvmSim

variable {R : Type} [CommRing R]

structure IsInverse (inv : R → Option R) : Prop where
  zero : inv 0 = none
  of_ne_zero : ∀ {x : R}, x ≠ 0 → ∃ y, inv x = some y ∧ x * y = 1

namespace IsInverse
variable {inv : R → Option R} (h : IsInverse inv)
include h

theorem isField [Nontrivial R] : IsField R where
  exists_pair_ne := exists_pair_ne R
  mul_comm := mul_comm
  mul_inv_cancel hx := by
    obtain ⟨y, -, hy⟩ := h.of_ne_zero hx
    exact ⟨y, hy⟩

theorem eq_zero_of_sq {x : R} (hx : x ^ 2 = 0) : x = 0 := by
  by_contra hne
  obtain ⟨y, -, hy⟩ := h.of_ne_zero hne
  refine hne ?_
  calc x = x * (x * y) := by rw [hy, mul_one]
    _ = x ^ 2 * y := by ring
    _ = 0 := by rw [hx, zero_mul]

theorem isDomain [Nontrivial R] : IsDomain R := h.isField.isDomain

/-- Fermat's theorem. -/
theorem pow_card_sub_one [Nontrivial R] [Fintype R] {x : R} (hx : x ≠ 0) :
    x ^ (Fintype.card R - 1) = 1 := by
  let := h.isField.toField
  exact FiniteField.pow_card_sub_one_eq_one x hx

end IsInverse

end OpenvmSim
