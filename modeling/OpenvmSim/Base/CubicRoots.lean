import Mathlib.FieldTheory.Finite.Basic
import Mathlib.Tactic.LinearCombination
import OpenvmSim.Base.Power

/-! Cubics without roots modulo a prime.

A root of `X³ - a X - b` modulo `p` is fixed by the `p`-th power. Polynomials are reduced modulo
the cubic to three coefficients, so that `X ^ p` can be calculated; if the remainder of
`X ^ p - X` has an inverse, the cubic has no root, because the remainder would vanish there. -/
namespace OpenvmSim

/-- `c0 + c1 X + c2 X²`, the remainder of a polynomial modulo a cubic. -/
structure Remainder where
  c0 : ℕ
  c1 : ℕ
  c2 : ℕ
  deriving DecidableEq

namespace Remainder

/-- The product modulo `p` and `X³ - a X - b`. -/
def mul (p a b : ℕ) (s t : Remainder) : Remainder where
  c0 := (s.c0 * t.c0 + b * (s.c1 * t.c2 + s.c2 * t.c1)) % p
  c1 := (s.c0 * t.c1 + s.c1 * t.c0 + a * (s.c1 * t.c2 + s.c2 * t.c1) + b * (s.c2 * t.c2)) % p
  c2 := (s.c0 * t.c2 + s.c1 * t.c1 + s.c2 * t.c0 + a * (s.c2 * t.c2)) % p

/-- The remainder of `X ^ p - X`. -/
def fixed (p a b : ℕ) : Remainder :=
  let r := powBy (mul p a b) (p.log2 + 1) ⟨0, 1, 0⟩ p ⟨1, 0, 0⟩
  ⟨r.c0, r.c1 + (p - 1), r.c2⟩

section Eval
variable {p a b : ℕ} (x : ZMod p)

/-- The value of a remainder at `x`. -/
def eval (r : Remainder) : ZMod p := r.c0 + r.c1 * x + r.c2 * x ^ 2

variable {x} (hx : x ^ 3 = a * x + b)
include hx

theorem eval_mul (s t : Remainder) : eval x (mul p a b s t) = eval x s * eval x t := by
  simp only [eval, mul, ZMod.natCast_mod]
  push_cast
  linear_combination (-(s.c1 * t.c2 + s.c2 * t.c1 : ZMod p) - s.c2 * t.c2 * x) * hx

/-- The remainder of `X ^ p - X` vanishes at a root. -/
theorem eval_fixed [Fact p.Prime] : eval x (fixed p a b) = 0 := by
  have hpow : eval x (powBy (mul p a b) (p.log2 + 1) ⟨0, 1, 0⟩ p ⟨1, 0, 0⟩) = x := by
    rw [map_powBy (eval x) (eval_mul hx), powBy_eq _ _ _ _ (lt_two_pow_bits p)]
    simp [eval]
  have hpred : ((p - 1 : ℕ) : ZMod p) = -1 := by
    rw [Nat.cast_sub (Fact.out : p.Prime).one_lt.le, ZMod.natCast_self, Nat.cast_one, zero_sub]
  have hsplit : eval x (fixed p a b) =
      eval x (powBy (mul p a b) (p.log2 + 1) ⟨0, 1, 0⟩ p ⟨1, 0, 0⟩) + (p - 1 : ℕ) * x := by
    rw [fixed, eval, eval]
    push_cast
    ring
  rw [hsplit, hpow, hpred]
  ring

end Eval

/-- A cubic has no root if `X ^ p - X` has an inverse modulo it. -/
theorem no_root {p a b : ℕ} [Fact p.Prime] {inv : Remainder}
    (h : mul p a b (fixed p a b) inv = ⟨1, 0, 0⟩) (x : ZMod p) : x ^ 3 ≠ a * x + b := by
  intro hx
  have hone : eval x (mul p a b (fixed p a b) inv) = 1 := by
    rw [h]
    simp [eval]
  rw [eval_mul hx, eval_fixed hx, zero_mul] at hone
  exact zero_ne_one hone

end Remainder

end OpenvmSim
