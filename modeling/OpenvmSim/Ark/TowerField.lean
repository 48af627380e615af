import Mathlib.NumberTheory.LegendreSymbol.Basic
import OpenvmSim.Ark.Tower

/-! The towers are fields.

`IsTower p ξ` states what makes them so: `p` is three modulo four, so that `-1` is no
square, and the norm of `ξ` is neither a square nor a cube in the base field, so that
`ξ` is no cube and `v` no square. Every level then has inverses, computed as the code
computes them, and `Fq12` has `p ^ 12` elements. -/
namespace OpenvmSim.Ark

/-! ### Quadratic extensions -/

section Card
variable {R : Type} {a b : R} [Fintype R]

instance fintypeQuad : Fintype (QuadraticAlgebra R a b) :=
  Fintype.ofEquiv _ (QuadraticAlgebra.equivProd a b).symm

theorem card_quad : Fintype.card (QuadraticAlgebra R a b) = Fintype.card R ^ 2 := by
  rw [Fintype.card_congr (QuadraticAlgebra.equivProd a b), Fintype.card_prod, pow_two]

end Card

section Quadratic
variable {R : Type} [CommRing R] {a b : R} {inv : R → Option R}

theorem quad_norm_eq_zero_iff (hinv : IsInverse inv) (hr : ∀ r : R, r ^ 2 ≠ a + b * r)
    {x : QuadraticAlgebra R a b} : QuadraticAlgebra.norm x = 0 ↔ x = 0 := by
  constructor
  · intro h
    rw [QuadraticAlgebra.norm_def] at h
    by_cases hi : x.im = 0
    · rw [hi] at h
      have hre : x.re = 0 := hinv.eq_zero_of_sq (by linear_combination h)
      ext
      · exact hre
      · exact hi
    · obtain ⟨z, -, hz⟩ := hinv.of_ne_zero hi
      refine absurd ?_ (hr (-x.re * z))
      linear_combination z ^ 2 * h - (b * x.re * z - a * (x.im * z + 1)) * hz
  · rintro rfl
    exact QuadraticAlgebra.norm_zero

theorem isInverse_quad (hinv : IsInverse inv) (hr : ∀ r : R, r ^ 2 ≠ a + b * r) :
    IsInverse (quadInverse inv : QuadraticAlgebra R a b → Option _) where
  zero := by
    rw [quadInverse, QuadraticAlgebra.norm_zero, hinv.zero]
    rfl
  of_ne_zero {x} hx := by
    obtain ⟨n, hn, hone⟩ := hinv.of_ne_zero (mt (quad_norm_eq_zero_iff hinv hr).mp hx)
    refine ⟨n • star x, by rw [quadInverse, hn]; rfl, ?_⟩
    rw [mul_smul_comm, ← QuadraticAlgebra.algebraMap_norm_eq_mul_star,
      QuadraticAlgebra.algebraMap_eq, QuadraticAlgebra.smul_mk, smul_eq_mul, mul_comm, hone, smul_zero]
    rfl

end Quadratic

/-! ### The towers -/

structure IsTower (p : ℕ) (ξ : Fq2 p) : Prop where
  prime : p.Prime
  mod_four : p % 4 = 3
  square : ∀ r : Fq p, r ^ 2 ≠ QuadraticAlgebra.norm ξ
  cube : ∀ r : Fq p, r ^ 3 ≠ QuadraticAlgebra.norm ξ

namespace IsTower
variable {p : ℕ} {ξ : Fq2 p} (h : IsTower p ξ)
include h

theorem isInverse : IsInverse (Fq.inverse : Fq p → Option _) where
  zero := if_pos rfl
  of_ne_zero {x} hx := by
    have : Fact p.Prime := ⟨h.prime⟩
    exact ⟨x⁻¹, if_neg hx, mul_inv_cancel₀ hx⟩

theorem isInverse2 : IsInverse (Fq2.inverse : Fq2 p → Option _) := by
  refine isInverse_quad h.isInverse fun r hr => ?_
  have : Fact p.Prime := ⟨h.prime⟩
  rw [zero_mul, add_zero, pow_two] at hr
  exact ZMod.exists_sq_eq_neg_one_iff.mp ⟨r, hr.symm⟩ h.mod_four

theorem isInverse6 : IsInverse (Fq6.inverse : Fq6 p ξ → Option _) := by
  refine CubicAlgebra.isInverse h.isInverse2 fun r hr => h.cube (QuadraticAlgebra.norm r) ?_
  rw [← map_pow, hr]

theorem isInverse12 : IsInverse (Fq12.inverse : Fq12 p ξ → Option _) := by
  refine isInverse_quad h.isInverse6 fun r hr =>
    h.square (QuadraticAlgebra.norm (CubicAlgebra.norm r)) ?_
  rw [zero_mul, add_zero, pow_two] at hr
  rw [pow_two, ← map_mul, ← CubicAlgebra.norm_mul, hr, CubicAlgebra.norm_root]

end IsTower

theorem card_fq12 {p : ℕ} [NeZero p] {ξ : Fq2 p} : Fintype.card (Fq12 p ξ) = p ^ 12 := by
  rw [card_quad, CubicAlgebra.card_eq, card_quad, ZMod.card, ← pow_mul, ← pow_mul]

namespace IsTower
variable {p : ℕ} {ξ : Fq2 p} (h : IsTower p ξ)
include h

theorem nontrivial : Nontrivial (Fq12 p ξ) := by
  have : Fact p.Prime := ⟨h.prime⟩
  infer_instance

theorem isDomain : IsDomain (Fq12 p ξ) :=
  have := h.nontrivial
  h.isInverse12.isDomain

theorem pow_card {f : Fq12 p ξ} (hf : f ≠ 0) : f ^ (p ^ 12 - 1) = 1 := by
  have := h.nontrivial
  have : NeZero p := ⟨h.prime.ne_zero⟩
  rw [← card_fq12 (ξ := ξ)]
  exact h.isInverse12.pow_card_sub_one hf

end IsTower

end OpenvmSim.Ark
