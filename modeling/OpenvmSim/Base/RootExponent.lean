import Mathlib.Data.Nat.Factorization.Basic
import Mathlib.Tactic.Ring
import OpenvmSim.Base.TonelliShanks

/-! The exponent that the Tonelli–Shanks algorithm finds.

With `c` of order `2 ^ m` there is one `w` below `2 ^ (m - 1)` for which `r c ^ w` is a root. A
round removes the lowest set bit of `w` together with the zeros below it: their number is the
number of squarings that the round makes of `c`. How many squarings a round can need is
therefore how many zeros follow each other in `w`. -/
namespace OpenvmSim

/-! ### Runs of zeros -/

/-- There are no `k` zeros in a row below a set bit of `w`. -/
def ShortGaps (k w : ℕ) : Prop := ∀ j, w >>> j ≠ 0 → w >>> j % 2 ^ k ≠ 0

theorem shortGaps_zero (k : ℕ) : ShortGaps k 0 := fun j h => absurd (Nat.zero_shiftRight j) h

theorem shortGaps_of_lt {k w : ℕ} (h : w < 2 ^ k) : ShortGaps k w := by
  intro j hj
  rwa [Nat.mod_eq_of_lt (lt_of_le_of_lt (Nat.shiftRight_le w j) h)]

theorem exists_lowest {w : ℕ} (h : w ≠ 0) : ∃ v w', w = 2 ^ v * (2 * w' + 1) := by
  obtain ⟨v, odd, ⟨w', rfl⟩, rfl⟩ := Nat.exists_eq_two_pow_mul_odd h
  exact ⟨v, w', rfl⟩

/-- The lowest set bit, and the bits above it. -/
theorem shortGaps_lowest {k v w : ℕ} :
    ShortGaps k (2 ^ v * (2 * w + 1)) ↔ v < k ∧ ShortGaps k w := by
  have hhigh : ∀ j, (2 ^ v * (2 * w + 1)) >>> (v + 1 + j) = w >>> j := by
    intro j
    have hhalf : (2 * w + 1) / 2 = w := by omega
    rw [Nat.shiftRight_eq_div_pow, Nat.shiftRight_eq_div_pow, pow_add, pow_succ,
      ← Nat.div_div_eq_div_mul, ← Nat.div_div_eq_div_mul,
      Nat.mul_div_cancel_left _ (Nat.two_pow_pos v), hhalf]
  constructor
  · refine fun h => ⟨?_, fun j hj => ?_⟩
    · by_contra hge
      refine h 0 (mul_ne_zero (Nat.two_pow_pos v).ne' (Nat.succ_ne_zero _)) ?_
      exact Nat.mod_eq_zero_of_dvd (Dvd.dvd.mul_right (pow_dvd_pow 2 (Nat.le_of_not_lt hge)) _)
    · rw [← hhigh] at hj ⊢
      exact h (v + 1 + j) hj
  · intro h j hj
    obtain ⟨i, rfl⟩ | hlow := (Nat.lt_or_ge v j).imp Nat.exists_eq_add_of_lt id
    · rw [show v + i + 1 = v + 1 + i by omega, hhigh] at hj ⊢
      exact h.2 i hj
    · -- an odd number times a power of two below `2 ^ k`
      obtain ⟨d, rfl⟩ := Nat.exists_eq_add_of_le hlow
      rw [Nat.shiftRight_eq_div_pow, pow_add, mul_assoc,
        Nat.mul_div_cancel_left _ (Nat.two_pow_pos j)]
      intro hzero
      have hdvd : 2 ^ (d + 1) ∣ 2 ^ d * (2 * w + 1) :=
        (pow_dvd_pow 2 (by omega)).trans (Nat.dvd_of_mod_eq_zero hzero)
      rw [pow_succ] at hdvd
      have htwo := Nat.dvd_of_mul_dvd_mul_left (Nat.two_pow_pos d) hdvd
      omega

/-! ### The exponent -/

/-- `c ^ w` takes the number whose square is `n t` to a root of `n`. -/
structure RootExponent {M : Type} [Monoid M] (m : ℕ) (c t : M) (w : ℕ) : Prop where
  lt : w < 2 ^ (m - 1)
  inverse : t * c ^ (2 * w) = 1

section Field
variable {F : Type} [Field F] {n : F} {m v w : ℕ} {c t r : F}

theorem rootExponent_zero : RootExponent m c t 0 ↔ t = 1 := by
  constructor
  · intro h
    have hone := h.inverse
    rwa [mul_zero, pow_zero, mul_one] at hone
  · rintro rfl
    exact ⟨Nat.two_pow_pos _, by rw [mul_zero, pow_zero, mul_one]⟩

/-- The set bits of the exponent lie below the order of `c`. -/
theorem RootExponent.lt_order (hw : RootExponent m c t (2 ^ v * (2 * w + 1))) : v < m - 1 := by
  have hle : 2 ^ v < 2 ^ (m - 1) := (Nat.le_mul_of_pos_right _ (Nat.succ_pos _)).trans_lt hw.lt
  exact (Nat.pow_lt_pow_iff_right (by decide)).mp hle

/-- A round takes the lowest set bit away. -/
theorem RootExponent.step (hw : RootExponent m c t (2 ^ v * (2 * w + 1))) {b : F}
    (hb : b = c ^ 2 ^ v) : RootExponent (m - 1 - v) (b * b) (t * (b * b)) w := by
  refine ⟨?_, ?_⟩
  · have hlt := hw.lt
    have hsplit : 2 ^ (m - 1) = 2 ^ v * (2 * 2 ^ (m - 1 - v - 1)) := by
      have hv := hw.lt_order
      rw [← pow_succ', ← pow_add]
      congr 1
      omega
    rw [hsplit] at hlt
    have hodd := Nat.lt_of_mul_lt_mul_left hlt
    omega
  · have hpow : (b * b) ^ (2 * w + 1) = c ^ (2 * (2 ^ v * (2 * w + 1))) := by
      rw [hb, ← pow_two, ← pow_mul, ← pow_mul]
      congr 1
      ring
    rw [mul_assoc, ← pow_succ', hpow]
    exact hw.inverse

namespace TonelliShanks
variable (h : TonelliShanks n m c t r)
include h

/-- The position of the lowest set bit decides how many squarings of `t` give one. -/
theorem squaresToOne (hne : (-1 : F) ≠ 1) (hw : RootExponent m c t (2 ^ v * (2 * w + 1))) :
    SquaresToOne t (m - 1 - v) := by
  have hv := hw.lt_order
  have hpow : ∀ j, t ^ 2 ^ j * c ^ (2 ^ (v + 1 + j) * (2 * w + 1)) = 1 := by
    intro j
    have hexp : 2 ^ (v + 1 + j) * (2 * w + 1) = 2 * (2 ^ v * (2 * w + 1)) * 2 ^ j := by ring
    rw [hexp, pow_mul, ← mul_pow, hw.inverse, one_pow]
  have hgen : ∀ k, c ^ (2 ^ (m - 1) * k) = (-1) ^ k := fun k => by rw [pow_mul, h.generator]
  have hlast : t ^ 2 ^ (m - 1 - v - 1) = -1 := by
    have hmul := hpow (m - 1 - v - 1)
    rw [show v + 1 + (m - 1 - v - 1) = m - 1 by omega, hgen, pow_succ, pow_mul, neg_one_sq, one_pow,
      one_mul] at hmul
    linear_combination -hmul
  refine ⟨?_, fun j hj hone => hne ?_⟩
  · rw [show m - 1 - v = m - 1 - v - 1 + 1 by omega, pow_succ, pow_mul, hlast, neg_one_sq]
  · rw [← hlast, show m - 1 - v - 1 = j + (m - 1 - v - 1 - j) by omega, pow_add, pow_mul, hone,
      one_pow]

/-- There is such an exponent. -/
theorem exists_rootExponent : ∃ w, RootExponent m c t w := by
  induction m using Nat.strong_induction_on generalizing c t r with
  | _ m ih =>
    by_cases ht : t = 1
    · exact ⟨0, rootExponent_zero.mpr ht⟩
    · obtain ⟨i, -, hi⟩ := exists_squaresToOne h.order
      have hlt := h.lt_of_squaresToOne hi
      have hstep := h.step hi ht rfl
      have hpos := hstep.pos
      obtain ⟨w, hw⟩ := ih i hlt hstep
      refine ⟨2 ^ (m - i - 1) * (2 * w + 1), ?_, ?_⟩
      · have hsplit : 2 ^ (m - 1) = 2 ^ (m - i - 1) * (2 * 2 ^ (i - 1)) := by
          rw [← pow_succ', ← pow_add]
          congr 1
          omega
        rw [hsplit]
        refine Nat.mul_lt_mul_of_pos_left ?_ (Nat.two_pow_pos _)
        have hbound := hw.lt
        omega
      · have hone := hw.inverse
        rw [mul_assoc, ← pow_succ', ← pow_two, ← pow_mul, ← pow_mul] at hone
        rw [← hone]
        congr 2
        ring

end TonelliShanks

end Field

end OpenvmSim
