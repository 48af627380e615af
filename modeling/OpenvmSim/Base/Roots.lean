import Mathlib.FieldTheory.Finite.Basic
import Mathlib.RingTheory.RootsOfUnity.PrimitiveRoots
import OpenvmSim.Base.Power

/-! Roots of unity and power residues. -/
namespace OpenvmSim

/-- In a domain every `n`-th root of unity is undone by a power of a primitive one. -/
theorem exists_mul_pow_eq_one {R : Type} [CommRing R] [IsDomain R] {n : ℕ} [NeZero n] {η δ : R}
    (hη : IsPrimitiveRoot η n) (hδ : δ ^ n = 1) : ∃ k < n, δ * η ^ k = 1 := by
  have hn : 0 < n := Nat.pos_of_neZero n
  have hinv : (δ ^ (n - 1)) ^ n = 1 := by rw [← pow_mul, mul_comm, pow_mul, hδ, one_pow]
  obtain ⟨k, hk, hpow⟩ := hη.eq_pow_of_pow_eq_one hinv
  refine ⟨k, hk, ?_⟩
  rw [hpow, ← pow_succ', Nat.sub_add_cancel hn, hδ]

/-- A number whose power to `(p - 1) / k` is not one is no `k`-th power modulo `p`. -/
theorem ne_pow_of_powMod_ne {p k a : ℕ} (hp : p.Prime) (hk : k ∣ p - 1) (ha : ¬p ∣ a)
    (h : powMod p a ((p - 1) / k) ≠ 1) (r : ZMod p) : r ^ k ≠ (a : ZMod p) := by
  intro hr
  have : Fact p.Prime := ⟨hp⟩
  have ha0 : (a : ZMod p) ≠ 0 := mt (ZMod.natCast_eq_zero_iff a p).mp ha
  have hr0 : r ≠ 0 := by
    rintro rfl
    have hk0 : k ≠ 0 := by
      rintro rfl
      exact absurd (zero_dvd_iff.mp hk) (Nat.sub_ne_zero_of_lt hp.one_lt)
    rw [zero_pow hk0] at hr
    exact ha0 hr.symm
  refine h ?_
  have hone : ((a ^ ((p - 1) / k) : ℕ) : ZMod p) = (1 : ℕ) := by
    rw [Nat.cast_pow, ← hr, ← pow_mul, Nat.mul_div_cancel' hk, ZMod.pow_card_sub_one_eq_one hr0,
      Nat.cast_one]
  rw [powMod_eq, (ZMod.natCast_eq_natCast_iff' _ _ _).mp hone, Nat.mod_eq_of_lt hp.one_lt]

/-- Equal exponents modulo the order give equal powers. -/
theorem pow_eq_self_of_mod {M : Type} [Monoid M] {x : M} {h e : ℕ} (hx : x ^ h = 1)
    (he : e % h = 1) : x ^ e = x := by
  rw [← Nat.div_add_mod e h, pow_add, pow_mul, hx, one_pow, one_mul, he, pow_one]

end OpenvmSim
