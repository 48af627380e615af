import Mathlib.Algebra.Field.Basic
import Mathlib.Algebra.Ring.Commute
import Mathlib.Tactic.LinearCombination

/-! The Tonelli–Shanks algorithm in a field.

To find a root of `n` the algorithm keeps `r ^ 2 = n t` with `t` of order dividing
`2 ^ (m - 1)`, next to a `c` that has `2 ^ (m - 1)`-th power minus one. A round takes the
least `i` with `t ^ 2 ^ i = 1` as the next `m`; it is smaller than `m`, so the rounds end,
and they end at `t = 1`. -/
namespace OpenvmSim

/-- `i` squarings of `t` give one and no fewer do. -/
structure SquaresToOne {M : Type} [Monoid M] (t : M) (i : ℕ) : Prop where
  one : t ^ 2 ^ i = 1
  least : ∀ j < i, t ^ 2 ^ j ≠ 1

/-- An element of which some squarings give one has a least number of them. -/
theorem exists_squaresToOne {M : Type} [Monoid M] {t : M} {k : ℕ} (h : t ^ 2 ^ k = 1) :
    ∃ i ≤ k, SquaresToOne t i := by
  classical
  have hex : ∃ i, t ^ 2 ^ i = 1 := ⟨k, h⟩
  exact ⟨Nat.find hex, Nat.find_min' hex h, Nat.find_spec hex, fun j hj => Nat.find_min hex hj⟩

theorem sq_pow_two_pow {M : Type} [Monoid M] (t : M) (j : ℕ) : (t * t) ^ 2 ^ j = t ^ 2 ^ (j + 1) := by
  rw [← pow_two, ← pow_mul, ← pow_succ']

/-- One squaring fewer is left after a squaring. -/
theorem SquaresToOne.sq {M : Type} [Monoid M] {t : M} {k : ℕ} (h : SquaresToOne t (k + 1)) :
    SquaresToOne (t * t) k where
  one := by rw [sq_pow_two_pow, h.one]
  least j hj := by
    rw [sq_pow_two_pow]
    exact h.least (j + 1) (Nat.succ_lt_succ hj)

section Field
variable {F : Type} [Field F] {n : F}

/-- What holds at the head of every round of the search for a root of `n`. -/
structure TonelliShanks (n : F) (m : ℕ) (c t r : F) : Prop where
  pos : 0 < m
  generator : c ^ 2 ^ (m - 1) = -1
  order : t ^ 2 ^ (m - 1) = 1
  root : r ^ 2 = n * t

variable {m i : ℕ} {c t r : F}

/-- The algorithm starts with `n ^ ((q + 1) / 2)` for an odd `q`, when `q 2 ^ m` is one less
than the size of the field, `n` is a square and `z` is not. -/
theorem TonelliShanks.start {z : F} {q : ℕ} (hm : 0 < m) (hq : q % 2 = 1)
    (hz : z ^ (q * 2 ^ (m - 1)) = -1) (hn : n ^ (q * 2 ^ (m - 1)) = 1) :
    TonelliShanks n m (z ^ q) (n ^ q) (n ^ ((q + 1) / 2)) where
  pos := hm
  generator := by rw [← pow_mul, hz]
  order := by rw [← pow_mul, hn]
  root := by rw [← pow_mul, ← pow_succ', show (q + 1) / 2 * 2 = q + 1 by omega]

namespace TonelliShanks
variable (h : TonelliShanks n m c t r)
include h

/-- The next `m` is smaller, and positive as long as `t` is not one. -/
theorem lt_of_squaresToOne (hi : SquaresToOne t i) : i < m := by
  by_contra hge
  have hpos := h.pos
  exact hi.least (m - 1) (by omega) h.order

omit h in
/-- One squaring before it becomes one, `t` becomes minus one. -/
theorem pow_pred_eq_neg_one (hi : SquaresToOne t i) (hpos : 0 < i) : t ^ 2 ^ (i - 1) = -1 := by
  have hsq : (t ^ 2 ^ (i - 1)) ^ 2 = 1 := by
    rw [← pow_mul, ← pow_succ, Nat.sub_add_cancel hpos, hi.one]
  exact (sq_eq_one_iff.mp hsq).resolve_left (hi.least _ (Nat.sub_lt hpos Nat.one_pos))

/-- One round, with `b = c ^ 2 ^ (m - i - 1)`. -/
theorem step (hi : SquaresToOne t i) (ht : t ≠ 1) {b : F} (hb : b = c ^ 2 ^ (m - i - 1)) :
    TonelliShanks n i (b * b) (t * (b * b)) (r * b) := by
  have hlt := h.lt_of_squaresToOne hi
  have hpos : 0 < i := by
    rw [Nat.pos_iff_ne_zero]
    rintro rfl
    have hone := hi.one
    rw [pow_zero, pow_one] at hone
    exact ht hone
  have hgen : (b * b) ^ 2 ^ (i - 1) = -1 := by
    have hexp : 2 ^ (m - i - 1) * (2 * 2 ^ (i - 1)) = 2 ^ (m - 1) := by
      rw [← pow_succ', ← pow_add]
      congr 1
      omega
    rw [hb, ← pow_two, ← pow_mul, ← pow_mul, hexp, h.generator]
  refine ⟨hpos, hgen, ?_, ?_⟩
  · rw [mul_pow, hgen, pow_pred_eq_neg_one hi hpos, neg_one_mul, neg_neg]
  · linear_combination b * b * h.root

end TonelliShanks

end Field

end OpenvmSim
