import Mathlib.Algebra.Order.Group.Int
import Mathlib.Data.ZMod.Basic
import Mathlib.Tactic.LinearCombination
import OpenvmSim.Precompiles.BigUint

/-! The modular inverse.

The extended Euclidean algorithm returns the greatest common divisor and its Bézout
coefficients; the inverse is the first coefficient, brought between zero and the modulus.
An operand need not be reduced. The copies of the curve precompile are the same functions. -/
namespace OpenvmSim.Precompiles

theorem extendedGcd_zero (a : ℤ) : extendedGcd a 0 = (a, 1, 0) := by
  rw [extendedGcd, dif_pos rfl]

/-- `extended_gcd` of two numbers that are not negative. -/
theorem extendedGcd_spec {a b : ℤ} (ha : 0 ≤ a) (hb : 0 ≤ b) :
    (extendedGcd a b).1 = Int.gcd a b ∧
      a * (extendedGcd a b).2.1 + b * (extendedGcd a b).2.2 = Int.gcd a b := by
  induction a, b using extendedGcd.induct with
  | case1 a =>
    rw [extendedGcd_zero, Int.gcd_zero_right, Int.natAbs_of_nonneg ha]
    exact ⟨rfl, by ring⟩
  | case2 a b hb0 _ _ _ _ ih =>
    obtain ⟨hg, hbezout⟩ := ih hb (Int.tmod_nonneg b ha)
    have hgcd : (Int.gcd b (a.tmod b) : ℤ) = Int.gcd a b := by
      rw [Int.tmod_eq_emod_of_nonneg ha, Int.gcd_comm b, Int.gcd_emod, Int.gcd_comm]
    have hdiv : a = b * a.tdiv b + a.tmod b := (Int.mul_tdiv_add_tmod a b).symm
    rw [hgcd] at hg hbezout
    rw [extendedGcd, dif_neg hb0]
    refine ⟨hg, ?_⟩
    show a * (extendedGcd b (a.tmod b)).2.2 + b * ((extendedGcd b (a.tmod b)).2.1 -
      a.tdiv b * (extendedGcd b (a.tmod b)).2.2) = _
    linear_combination hbezout + (extendedGcd b (a.tmod b)).2.2 * hdiv

theorem intRem_of_ne {a b : ℤ} (hb : b ≠ 0) : intRem a b = .ok (a.tmod b) := if_neg hb

section Inverse
variable {a p : ℕ}

/-- A number prime to the modulus has an inverse below it. -/
theorem modInv_of_coprime (hp : 1 < p) (h : Nat.gcd a p = 1) :
    ∃ i < p, modInv a p = .ok (some i) ∧ a * i % p = 1 := by
  have hp0 : (p : ℤ) ≠ 0 := by omega
  have ha : a ≠ 0 := by
    rintro rfl
    rw [Nat.gcd_zero_left] at h
    exact absurd h hp.ne'
  obtain ⟨hg, hbezout⟩ := extendedGcd_spec (Int.natCast_nonneg a) (Int.natCast_nonneg p)
  rw [Int.gcd_natCast_natCast, h, Nat.cast_one] at hg hbezout
  generalize hx : (extendedGcd a p).2.1 = x at hbezout
  have hlow : -(p : ℤ) < x.tmod p := Int.lt_tmod_of_pos x (by omega)
  have hmod : (x.tmod p + p).tmod p = x % p := by
    have hx : x % p = x.tmod p % p := by
      conv_lhs => rw [← Int.mul_tdiv_add_tmod x p]
      exact Int.mul_add_emod_self_left _ _ _
    rw [Int.tmod_eq_emod_of_nonneg (by omega), Int.add_emod_right, hx]
  have hnonneg : 0 ≤ x % p := Int.emod_nonneg x hp0
  have hlt : x % p < p := Int.emod_lt_of_pos x (by omega)
  refine ⟨(x % p).toNat, by omega, ?_, ?_⟩
  · rw [modInv, if_neg ha]
    show (if (extendedGcd a p).1 ≠ 1 then _ else _) = _
    rw [if_neg (not_not.mpr hg), hx, intRem_of_ne hp0]
    show (intRem (x.tmod p + p) p >>= _) = _
    rw [intRem_of_ne hp0, hmod]
    exact if_neg (by omega)
  · have hint : ((a * (x % p).toNat % p : ℕ) : ℤ) = 1 := by
      have hone : (a : ℤ) * x = 1 + p * -(extendedGcd a p).2.2 := by
        linear_combination hbezout
      rw [Int.natCast_mod, Nat.cast_mul, Int.toNat_of_nonneg hnonneg, Int.mul_emod,
        Int.emod_emod_of_dvd _ dvd_rfl, ← Int.mul_emod, hone, Int.add_mul_emod_self_left]
      exact Int.emod_eq_of_lt Int.one_nonneg (by omega)
    exact_mod_cast hint

/-- Any other number has none. -/
theorem modInv_of_not_coprime (h : Nat.gcd a p ≠ 1) : modInv a p = .ok none := by
  by_cases ha : a = 0
  · exact if_pos ha
  · obtain ⟨hg, -⟩ := extendedGcd_spec (Int.natCast_nonneg a) (Int.natCast_nonneg p)
    rw [modInv, if_neg ha]
    show (if (extendedGcd a p).1 ≠ 1 then _ else _) = _
    rw [Int.gcd_natCast_natCast] at hg
    refine if_pos ?_
    rw [hg]
    exact_mod_cast h

/-- The inverse modulo a prime, in the field. -/
theorem modInv_prime (hp : p.Prime) (h : ¬p ∣ a) :
    ∃ i < p, modInv a p = .ok (some i) ∧ (a : ZMod p) * i = 1 := by
  obtain ⟨i, hi, hinv, hone⟩ := modInv_of_coprime hp.one_lt
    ((Nat.coprime_comm.mp ((Nat.Prime.coprime_iff_not_dvd hp).mpr h)))
  refine ⟨i, hi, hinv, ?_⟩
  rw [← Nat.cast_mul, ← Nat.cast_one, ZMod.natCast_eq_natCast_iff', hone,
    Nat.mod_eq_of_lt hp.one_lt]

theorem modInv_prime_none (hp : p.Prime) (h : p ∣ a) : modInv a p = .ok none := by
  refine modInv_of_not_coprime ?_
  rw [Nat.gcd_eq_right h]
  exact hp.one_lt.ne'

end Inverse

/-! ### The two copies -/

theorem Ecc.extGcd_eq : Ecc.extGcd = extendedGcd := by
  funext a b
  induction a, b using extendedGcd.induct with
  | case1 a =>
    rw [extendedGcd_zero, Ecc.extGcd, dif_pos rfl]
  | case2 a b hb0 _ _ _ _ ih =>
    rw [extendedGcd, Ecc.extGcd, dif_neg hb0, dif_neg hb0, ih]

theorem Ecc.modInv_eq : Ecc.modInv = Precompiles.modInv := by
  funext a p
  rw [Ecc.modInv, Precompiles.modInv, Ecc.extGcd_eq]

/-- Of two numbers that are not negative the function returns the greatest common divisor and
coefficients that combine them to it. -/
def IsExtendedGcd (f : ℤ → ℤ → ℤ × ℤ × ℤ) : Prop :=
  ∀ a b, 0 ≤ a → 0 ≤ b →
    (f a b).1 = Int.gcd a b ∧ a * (f a b).2.1 + b * (f a b).2.2 = (f a b).1

/-- The function finds an inverse, below the modulus, exactly of the numbers that are prime to
it. -/
structure IsModularInverse (f : ℕ → ℕ → Calc (Option ℕ)) : Prop where
  some_iff : ∀ a p, 1 < p → ((∃ x, f a p = .ok (some x)) ↔ Nat.gcd a p = 1)
  inverse : ∀ a p x, 1 < p → f a p = .ok (some x) → x < p ∧ a * x % p = 1
  none_iff : ∀ a p, 1 < p → (f a p = .ok none ↔ Nat.gcd a p ≠ 1)

theorem isExtendedGcd_extendedGcd : IsExtendedGcd extendedGcd := by
  intro a b ha hb
  obtain ⟨hg, hbezout⟩ := extendedGcd_spec ha hb
  exact ⟨hg, hbezout.trans hg.symm⟩

theorem isModularInverse_modInv : IsModularInverse modInv := by
  refine ⟨fun a p hp => ⟨fun hsome => ?_, fun h => ?_⟩, fun a p x hp hx => ?_,
    fun a p hp => ⟨fun hnone h => ?_, modInv_of_not_coprime⟩⟩
  · by_contra h
    obtain ⟨x, hx⟩ := hsome
    cases hx.symm.trans (modInv_of_not_coprime h)
  · obtain ⟨x, -, hx, -⟩ := modInv_of_coprime hp h
    exact ⟨x, hx⟩
  · by_cases h : Nat.gcd a p = 1
    · obtain ⟨y, hlt, hy, hone⟩ := modInv_of_coprime hp h
      cases hx.symm.trans hy
      exact ⟨hlt, hone⟩
    · cases hx.symm.trans (modInv_of_not_coprime h)
  · obtain ⟨x, -, hx, -⟩ := modInv_of_coprime hp h
    cases hnone.symm.trans hx

/-- **In both precompiles the modular inverse of any number, reduced or not, for any modulus above
one is found if and only if the two are coprime, and is then the inverse below the modulus; the
extended Euclidean algorithm under it returns the greatest common divisor with Bézout
coefficients.** -/
theorem inverse_copies : IsExtendedGcd extendedGcd ∧ IsExtendedGcd Ecc.extGcd ∧
    IsModularInverse modInv ∧ IsModularInverse Ecc.modInv := by
  refine ⟨isExtendedGcd_extendedGcd, ?_, isModularInverse_modInv, ?_⟩
  · rw [Ecc.extGcd_eq]
    exact isExtendedGcd_extendedGcd
  · rw [Ecc.modInv_eq]
    exact isModularInverse_modInv

/-- An operand above the modulus. -/
example : modInv 17 5 = .ok (some 3) := by decide +kernel

end OpenvmSim.Precompiles
