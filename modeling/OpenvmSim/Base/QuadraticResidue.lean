import Mathlib.NumberTheory.LegendreSymbol.QuadraticReciprocity
import OpenvmSim.Base.Power

/-! Quadratic residues modulo an odd prime.

Euler's criterion as programs evaluate it: a power modulo `p` is compared with the
numbers one and `p - 1`. -/
namespace OpenvmSim

/-- `z` is the least number from two on that is no square modulo `p`. -/
structure IsLeastNonresidue (p z : ℕ) : Prop where
  two_le : 2 ≤ z
  nonresidue : ¬IsSquare (z : ZMod p)
  least : ∀ k, 2 ≤ k → k < z → IsSquare (k : ZMod p)

theorem IsLeastNonresidue.unique {p z z' : ℕ} (h : IsLeastNonresidue p z)
    (h' : IsLeastNonresidue p z') : z = z' := by
  refine le_antisymm (not_lt.mp fun hlt => ?_) (not_lt.mp fun hlt => ?_)
  · exact h'.nonresidue (h.least z' h'.two_le hlt)
  · exact h.nonresidue (h'.least z h.two_le hlt)

section Residues
variable {p : ℕ}

/-! ### Numbers below the modulus -/

theorem natCast_eq_iff {a b : ℕ} (ha : a < p) (hb : b < p) : (a : ZMod p) = b ↔ a = b := by
  rw [ZMod.natCast_eq_natCast_iff', Nat.mod_eq_of_lt ha, Nat.mod_eq_of_lt hb]

theorem natCast_eq_one_iff {a : ℕ} (hp : 1 < p) (ha : a < p) : (a : ZMod p) = 1 ↔ a = 1 := by
  rw [← Nat.cast_one, natCast_eq_iff ha hp]

theorem natCast_eq_zero_iff {a : ℕ} (ha : a < p) : (a : ZMod p) = 0 ↔ a = 0 := by
  rw [← Nat.cast_zero, natCast_eq_iff ha (Nat.zero_lt_of_lt ha)]

theorem natCast_powMod (b e : ℕ) : (powMod p b e : ZMod p) = (b : ZMod p) ^ e := by
  rw [powMod_eq, ZMod.natCast_mod, Nat.cast_pow]

theorem powMod_lt (hp : 0 < p) (b e : ℕ) : powMod p b e < p := by
  rw [powMod_eq]
  exact Nat.mod_lt _ hp

variable [Fact p.Prime]

/-! ### Euler's criterion -/

theorem half_pos : p / 2 ≠ 0 := by
  have := (Fact.out : p.Prime).two_le
  omega

theorem pow_half_eq_one_iff (a : ZMod p) : a ^ (p / 2) = 1 ↔ a ≠ 0 ∧ IsSquare a := by
  refine ⟨fun h => ?_, fun h => (ZMod.euler_criterion p h.1).mp h.2⟩
  have ha : a ≠ 0 := by
    rintro rfl
    rw [zero_pow half_pos] at h
    exact zero_ne_one h
  exact ⟨ha, (ZMod.euler_criterion p ha).mpr h⟩

variable (hodd : p ≠ 2)
include hodd

theorem half_pred : (p - 1) >>> 1 = p / 2 := by
  have hp := (Fact.out : p.Prime).eq_two_or_odd.resolve_left hodd
  rw [Nat.shiftRight_eq_div_pow, pow_one]
  omega

theorem neg_one_ne_one : (-1 : ZMod p) ≠ 1 := by
  have : Fact (2 < p) :=
    ⟨Nat.lt_of_le_of_ne (Fact.out : p.Prime).two_le (Ne.symm hodd)⟩
  exact ZMod.neg_one_ne_one

theorem pow_half_eq_neg_one_iff (a : ZMod p) : a ^ (p / 2) = -1 ↔ ¬IsSquare a := by
  by_cases ha : a = 0
  · subst ha
    rw [zero_pow half_pos]
    exact ⟨fun h => absurd h.symm (neg_ne_zero.mpr one_ne_zero), fun h => absurd IsSquare.zero h⟩
  · rw [ZMod.euler_criterion p ha]
    obtain h | h := ZMod.pow_div_two_eq_neg_one_or_one p ha
    · rw [h]
      exact ⟨fun hneg => absurd hneg.symm (neg_one_ne_one hodd), fun hne => absurd rfl hne⟩
    · rw [h]
      exact ⟨fun _ => neg_one_ne_one hodd, fun _ => rfl⟩

/-- The test of a residue. -/
theorem powMod_half_eq_one_iff (a : ℕ) :
    powMod p a ((p - 1) >>> 1) = 1 ↔ (a : ZMod p) ≠ 0 ∧ IsSquare (a : ZMod p) := by
  have hp := (Fact.out : p.Prime).one_lt
  rw [half_pred hodd, ← natCast_eq_one_iff hp (powMod_lt (Nat.zero_lt_of_lt hp) _ _),
    natCast_powMod, pow_half_eq_one_iff]

/-- The test of a non-residue. -/
theorem powMod_half_eq_pred_iff (a : ℕ) :
    powMod p a ((p - 1) >>> 1) = p - 1 ↔ ¬IsSquare (a : ZMod p) := by
  have hp := (Fact.out : p.Prime).one_lt
  have hpred : ((p - 1 : ℕ) : ZMod p) = -1 := by
    rw [Nat.cast_sub hp.le, ZMod.natCast_self, Nat.cast_one, zero_sub]
  rw [half_pred hodd, ← natCast_eq_iff (powMod_lt (Nat.zero_lt_of_lt hp) _ _)
    (Nat.sub_lt (Nat.zero_lt_of_lt hp) Nat.one_pos), natCast_powMod, hpred,
    pow_half_eq_neg_one_iff hodd]

/-- The product of two non-residues is a residue. -/
theorem isSquare_mul_of_not {a b : ZMod p} (ha : ¬IsSquare a) (hb : ¬IsSquare b) :
    IsSquare (a * b) := by
  have h : (a * b) ^ (p / 2) = 1 := by
    rw [mul_pow, (pow_half_eq_neg_one_iff hodd a).mpr ha, (pow_half_eq_neg_one_iff hodd b).mpr hb,
      neg_one_mul, neg_neg]
  exact ((pow_half_eq_one_iff _).mp h).2

/-! ### Non-residues -/

/-- There is a non-residue between two and the modulus. -/
theorem exists_nonresidue : ∃ z, 2 ≤ z ∧ z < p ∧ ¬IsSquare (z : ZMod p) := by
  obtain ⟨a, ha⟩ := FiniteField.exists_nonsquare (F := ZMod p) (by rwa [ZMod.ringChar_zmod_n])
  refine ⟨a.val, ?_, ZMod.val_lt a, by rwa [ZMod.natCast_zmod_val]⟩
  have h0 : a.val ≠ 0 := by
    intro h
    rw [ZMod.val_eq_zero] at h
    rw [h] at ha
    exact ha IsSquare.zero
  have h1 : a.val ≠ 1 := by
    intro h
    have hone : a = 1 := by rw [← ZMod.natCast_zmod_val a, h, Nat.cast_one]
    rw [hone] at ha
    exact ha IsSquare.one
  omega

/-- The least non-residue is below the modulus. -/
theorem exists_isLeastNonresidue : ∃ z < p, IsLeastNonresidue p z := by
  classical
  have hex : ∃ z, 2 ≤ z ∧ z < p ∧ ¬IsSquare (z : ZMod p) := exists_nonresidue hodd
  obtain ⟨h2, hlt, hz⟩ := Nat.find_spec hex
  refine ⟨Nat.find hex, hlt, h2, hz, fun k hk hkz => ?_⟩
  by_contra hne
  exact Nat.find_min hex hkz ⟨hk, hkz.trans hlt, hne⟩

end Residues

section Supplements
variable {p : ℕ} [Fact p.Prime]

/-- The first supplement. -/
theorem not_isSquare_pred (h : p % 4 = 3) : ¬IsSquare ((p - 1 : ℕ) : ZMod p) := by
  have hp := (Fact.out : p.Prime).one_lt
  rw [Nat.cast_sub hp.le, ZMod.natCast_self, Nat.cast_one, zero_sub,
    ZMod.exists_sq_eq_neg_one_iff]
  exact not_not.mpr h

/-- The second supplement. -/
theorem not_isSquare_two (h : p % 8 = 5) : ¬IsSquare ((2 : ℕ) : ZMod p) := by
  have hodd : p ≠ 2 := by
    rintro rfl
    exact absurd h (by decide)
  rw [Nat.cast_ofNat, ZMod.exists_sq_eq_two_iff hodd, h]
  decide

end Supplements

end OpenvmSim
