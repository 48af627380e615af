import OpenvmSim.Ark.TowerField
import OpenvmSim.Base.Panic
import OpenvmSim.Base.Roots
import OpenvmSim.Precompiles.Effects
import OpenvmSim.Precompiles.Primes

/-! The BN254 residue witness.

`p ^ 12 - 1 = 27 s` with `s` prime to three. Scaling by a power of the 27th root of
unity makes `f` a cube. Its candidate cube root is off by a ninth root of unity, and
each round of the loop turns that by a primitive ninth root, so that at most nine
rounds are ever needed. For an `f` of order dividing `(p ^ 12 - 1) / r` the exponents
`r_inv` and `m_inv` undo the powers `r` and `m`, and what comes out is a root of order
`3 r m = λ`. -/
namespace OpenvmSim.Precompiles.Bn254
open Rv32im

/-! ### The field -/

theorem norm_xi : QuadraticAlgebra.norm xi = ((82 : ℕ) : Fq) := by
  rw [QuadraticAlgebra.norm_def]
  decide

/-- Eighty-two is neither a square nor a cube: Euler's criterion. -/
theorem powMod_norm_xi : powMod bn254Fp 82 ((bn254Fp - 1) / 2) ≠ 1 ∧
    powMod bn254Fp 82 ((bn254Fp - 1) / 3) ≠ 1 := by
  decide +kernel

theorem isTower : Ark.IsTower bn254Fp xi where
  prime := prime_bn254Fp
  mod_four := by decide
  square r := by
    rw [norm_xi]
    exact ne_pow_of_powMod_ne prime_bn254Fp (by decide) (by decide) powMod_norm_xi.1 r
  cube r := by
    rw [norm_xi]
    exact ne_pow_of_powMod_ne prime_bn254Fp (by decide) (by decide) powMod_norm_xi.2 r

/-! ### The constants -/

/-- The BN parameter. -/
def bnX : ℕ := 4965661367192848881

/-- The order of the curve group. -/
def groupOrder : ℕ := bn254Fr

/-- `λ = 6 x + 2 + p - p² + p³` -/
def lambda : ℕ := 6 * bnX + 2 + bn254Fp + bn254Fp ^ 3 - bn254Fp ^ 2

/-- `m = λ / (3 r)` -/
def mFactor : ℕ := lambda / (3 * groupOrder)

/-- `s = (p ^ 12 - 1) / 27` -/
def sFactor : ℕ := (bn254Fp ^ 12 - 1) / 27

theorem order_eq : bn254Fp ^ 12 - 1 = 27 * sFactor := by decide
theorem exp1_eq : exp1 = 9 * sFactor := by decide
theorem exp2_eq : 3 * exp2 = sFactor + 1 := by decide
theorem exp1_ne_zero : exp1 ≠ 0 := by decide
theorem rInv_ne_zero : rInv ≠ 0 := by decide
theorem mInv_ne_zero : mInv ≠ 0 := by decide
theorem lambda_eq : lambda = 3 * (groupOrder * mFactor) := by decide
theorem cofactor_mod : ((bn254Fp ^ 12 - 1) / groupOrder) % 27 = 0 := by decide
theorem inverses_mod :
    (groupOrder * mFactor * (rInv * mInv)) % ((bn254Fp ^ 12 - 1) / groupOrder) = 1 := by
  decide

theorem cofactor_ne_zero : (bn254Fp ^ 12 - 1) / groupOrder ≠ 0 := by decide

/-! ### The roots of unity -/

theorem isPrimitiveRoot_unityRoot27 : IsPrimitiveRoot unityRoot27 27 := by
  have h9 : unityRoot27 ^ 3 ^ 2 ≠ 1 := by
    rw [← power_eq]
    decide
  have h27 : unityRoot27 ^ 3 ^ (2 + 1) = 1 := by
    rw [← power_eq]
    decide
  have : Fact (Nat.Prime 3) := ⟨Nat.prime_three⟩
  have horder : orderOf unityRoot27 = 27 := orderOf_eq_prime_pow h9 h27
  rw [← horder]
  exact IsPrimitiveRoot.orderOf _

/-- `ω ^ (p ^ 12 - 1) / 3` is a primitive cube root of unity. -/
theorem isPrimitiveRoot_exp1 : IsPrimitiveRoot (unityRoot27 ^ exp1) 3 := by
  have h3 : IsPrimitiveRoot (unityRoot27 ^ 9) 3 :=
    isPrimitiveRoot_unityRoot27.pow (by decide) (by decide)
  have hs : sFactor.Coprime 3 := by decide
  rw [exp1_eq, pow_mul]
  exact h3.pow_of_coprime _ hs

/-- What the loop turns its error by. -/
def turn : Fq12 := (unityRoot27 ^ exp2) ^ 3

theorem isPrimitiveRoot_turn : IsPrimitiveRoot turn 9 := by
  have h9 : IsPrimitiveRoot (unityRoot27 ^ 3) 9 :=
    isPrimitiveRoot_unityRoot27.pow (by decide) (by decide)
  have hexp : (sFactor + 1) % 27 = 3 * 5 := by decide
  have hturn : turn = (unityRoot27 ^ 3) ^ 5 := by
    rw [turn, ← pow_mul, mul_comm, exp2_eq, ← pow_mul, ← hexp]
    exact pow_eq_pow_mod _ isPrimitiveRoot_unityRoot27.pow_eq_one
  rw [hturn]
  exact h9.pow_of_coprime 5 (by decide)

/-! ### The scaling -/

section Scaling
attribute [local irreducible] exp1 exp2 rInv mInv

/-- The scaled element is a cube: its power to `exp1` is one. -/
theorem cubicScaling_eq {f : Fq12} (hf : f ≠ 0) :
    ∃ i < 3, cubicScaling f = (f * unityRoot27 ^ i, unityRoot27 ^ i) ∧
      (f * unityRoot27 ^ i) ^ exp1 = 1 := by
  have := isTower.isDomain
  have hcube : (f ^ exp1) ^ 3 = 1 := by
    rw [← pow_mul, exp1_eq, show 9 * sFactor * 3 = 27 * sFactor by ring, ← order_eq]
    exact isTower.pow_card hf
  have hscaled : ∀ i, (f * unityRoot27 ^ i) ^ exp1 = f ^ exp1 * (unityRoot27 ^ exp1) ^ i := by
    intro i
    rw [mul_pow, ← pow_mul, ← pow_mul, mul_comm i]
  obtain ⟨k, hk, hone⟩ := exists_mul_pow_eq_one isPrimitiveRoot_exp1 hcube
  simp only [cubicScaling, powBiguint, power_eq]
  by_cases h0 : f ^ exp1 = 1
  · refine ⟨0, by decide, ?_, ?_⟩
    · rw [if_pos h0, pow_zero, mul_one]
    · rwa [pow_zero, mul_one]
  · rw [if_neg h0]
    by_cases h1 : (f * unityRoot27) ^ exp1 = 1
    · refine ⟨1, by decide, ?_, ?_⟩
      · rw [if_pos h1, pow_one]
      · rwa [pow_one]
    · refine ⟨2, by decide, ?_, ?_⟩
      · rw [if_neg h1, pow_two, mul_assoc]
      · -- the exponent that works is not zero and not one
        have hk2 : k = 2 := by
          have hk0 : k ≠ 0 := by
            rintro rfl
            rw [pow_zero, mul_one] at hone
            exact h0 hone
          have hk1 : k ≠ 1 := by
            rintro rfl
            rw [← hscaled, pow_one] at hone
            exact h1 hone
          omega
        rw [hscaled, ← hk2]
        exact hone

end Scaling

/-! ### The loops -/

section Loops
variable (host : Host)

/-- The inner loop ends after at most two rounds, and says whether there was anything to
do. -/
theorem tsLoop_eq {fuel : ℕ} (hfuel : 3 ≤ fuel) {δ : Fq12} (hδ : δ ^ 9 = 1) :
    ∃ t, tsLoop host fuel δ 0#32 = .ok t ∧ (t = 0#32 ↔ δ = 1) := by
  obtain ⟨k, rfl⟩ := Nat.exists_eq_add_of_le' hfuel
  have hcube : ∀ x : Fq12, x * (x * x) = x ^ 3 := fun x => by ring
  by_cases h1 : δ = 1
  · refine ⟨0#32, ?_, by simp [h1]⟩
    rw [tsLoop, if_neg (not_not.mpr h1)]
    rfl
  · rw [tsLoop, if_pos h1, if_neg (fun h => absurd h.2 (by decide)), hcube]
    by_cases h3 : δ ^ 3 = 1
    · refine ⟨1#32, ?_, by simp [h1]⟩
      rw [tsLoop, if_neg (not_not.mpr h3)]
      rfl
    · refine ⟨2#32, ?_, by simp [h1]⟩
      rw [tsLoop, if_pos h3, if_neg (fun h => absurd h.2 (by decide)), hcube, ← pow_mul]
      rw [tsLoop, if_neg (not_not.mpr hδ)]
      rfl

/-- The outer loop finds a cube root of the inverse of `c_inv`, in as many rounds as it
takes to turn the error back to one. -/
theorem cubeRootLoop_eq {cInv : Fq12} (hfuel : 3 ≤ host.fuel) {fuel k : ℕ} (hk : k < fuel)
    {x : Fq12} {t : BitVec 32} (hδ : (x * x * x * cInv) ^ 9 = 1)
    (ht : t = 0#32 ↔ x * x * x * cInv = 1) (hturn : x * x * x * cInv * turn ^ k = 1) :
    ∃ y, cubeRootLoop host cInv (unityRoot27 ^ exp2) fuel x t = .ok y ∧ y * y * y * cInv = 1 := by
  induction k generalizing fuel x t with
  | zero =>
    obtain ⟨fuel, rfl⟩ := Nat.exists_eq_add_one_of_ne_zero (Nat.ne_zero_of_lt hk)
    rw [pow_zero, mul_one] at hturn
    refine ⟨x, ?_, hturn⟩
    rw [cubeRootLoop, if_neg (not_not.mpr (ht.mpr hturn))]
    rfl
  | succ k ih =>
    obtain ⟨fuel, rfl⟩ := Nat.exists_eq_add_one_of_ne_zero (Nat.ne_zero_of_lt hk)
    by_cases hone : x * x * x * cInv = 1
    · refine ⟨x, ?_, hone⟩
      rw [cubeRootLoop, if_neg (not_not.mpr (ht.mpr hone))]
      rfl
    · have hstep : ∀ w : Fq12, x * w * (x * w) * (x * w) * cInv = x * x * x * cInv * w ^ 3 :=
        fun w => by ring
      have hnext := hstep (unityRoot27 ^ exp2)
      rw [← turn] at hnext
      have hδ' : (x * unityRoot27 ^ exp2 * (x * unityRoot27 ^ exp2) * (x * unityRoot27 ^ exp2) *
          cInv) ^ 9 = 1 := by
        rw [hnext, mul_pow, hδ, isPrimitiveRoot_turn.pow_eq_one, one_mul]
      obtain ⟨t', ht', hiff⟩ := tsLoop_eq host hfuel hδ'
      have hturn' : x * unityRoot27 ^ exp2 * (x * unityRoot27 ^ exp2) * (x * unityRoot27 ^ exp2) *
          cInv * turn ^ k = 1 := by
        rw [hnext, mul_assoc, ← pow_succ']
        exact hturn
      obtain ⟨y, hy, hyc⟩ := ih (Nat.lt_of_succ_lt_succ hk) hδ' hiff hturn'
      refine ⟨y, ?_, hyc⟩
      rw [cubeRootLoop, if_pos (mt ht.mp hone)]
      exact (calc_bind ht').trans hy

end Loops

/-! ### The hint -/

section Hint
attribute [local irreducible] exp1 exp2 rInv mInv unityRoot27
variable (host : Host)

theorem unityRoot27_ne_zero : unityRoot27 ≠ 0 := by
  intro h
  have h27 := isPrimitiveRoot_unityRoot27.pow_eq_one
  rw [h, zero_pow (by decide)] at h27
  have := isTower.nontrivial
  exact zero_ne_one h27

/-- The hint of an element that is not zero: a cube root of the scaled element, with the
powers `r` and `m` undone, and the power of the root of unity it was scaled by. -/
theorem finalExpHint_eq (hfuel : 9 ≤ host.fuel) {f : Fq12} (hf : f ≠ 0) :
    ∃ i < 3, ∃ c, finalExpHint host f = .ok (c, unityRoot27 ^ i) ∧
      c ^ 3 = (f * unityRoot27 ^ i) ^ (rInv * mInv) := by
  have := isTower.isDomain
  obtain ⟨i, hi, hscale, hcube⟩ := cubicScaling_eq hf
  have hne : (f * unityRoot27 ^ i) ^ (rInv * mInv) ≠ 0 :=
    pow_ne_zero _ (mul_ne_zero hf (pow_ne_zero _ unityRoot27_ne_zero))
  generalize hc : (f * unityRoot27 ^ i) ^ (rInv * mInv) = c at hne
  obtain ⟨cInv, hinv, hone⟩ := isTower.isInverse12.of_ne_zero hne
  -- the error of the candidate is a ninth root of unity
  have herr : c ^ exp2 * c ^ exp2 * c ^ exp2 * cInv = c ^ sFactor := by
    calc c ^ exp2 * c ^ exp2 * c ^ exp2 * cInv = c ^ (3 * exp2) * cInv := by ring
      _ = c ^ sFactor * (c * cInv) := by rw [exp2_eq, pow_succ, mul_assoc]
      _ = c ^ sFactor := by rw [hone, mul_one]
  have hδ : (c ^ exp2 * c ^ exp2 * c ^ exp2 * cInv) ^ 9 = 1 := by
    rw [herr, ← pow_mul, mul_comm, ← exp1_eq, ← hc, pow_right_comm, hcube, one_pow]
  obtain ⟨t, ht, hiff⟩ := tsLoop_eq host (Nat.le_trans (by decide) hfuel) hδ
  obtain ⟨k, hk, hturn⟩ := exists_mul_pow_eq_one isPrimitiveRoot_turn hδ
  obtain ⟨y, hy, hyc⟩ := cubeRootLoop_eq host (Nat.le_trans (by decide) hfuel)
    (Nat.lt_of_lt_of_le hk hfuel) hδ hiff hturn
  have hroot : c = y * y * y := by
    calc c = y * y * y * cInv * c := by rw [hyc, one_mul]
      _ = y * y * y * (c * cInv) := by ring
      _ = y * y * y := by rw [hone, mul_one]
  refine ⟨i, hi, y, ?_, ?_⟩
  · have hexpect : expect "c is nonzero" (Ark.Fq12.inverse c) = .ok cInv := by
      rw [hinv, expect_some]
    unfold finalExpHint
    rw [hscale]
    simp only [powBiguint, power_eq, ← pow_mul, hc]
    rw [calc_bind (debugAssert_of isPrimitiveRoot_unityRoot27.pow_eq_one), calc_bind hexpect,
      calc_bind ht, calc_bind hy, calc_bind (debugAssert_of hroot)]
    rfl
  · rw [hc, hroot]
    ring

/-- The hint of zero looks for its inverse. -/
theorem finalExpHint_zero : ∃ message, finalExpHint host 0 = .error (.panic message) := by
  have := isTower.isDomain
  have hpow : ∀ {n : ℕ}, n ≠ 0 → (0 : Fq12) ^ n ≠ 1 := fun hn h => by
    rw [zero_pow hn] at h
    exact zero_ne_one h
  have hscale : cubicScaling 0 = (0, unityRoot27 * unityRoot27) := by
    simp only [cubicScaling, powBiguint, power_eq, zero_mul]
    rw [if_neg (hpow exp1_ne_zero), if_neg (hpow exp1_ne_zero)]
  refine ⟨"c is nonzero", ?_⟩
  unfold finalExpHint
  rw [hscale]
  simp only [powBiguint, power_eq, zero_pow rInv_ne_zero, zero_pow mInv_ne_zero]
  rw [calc_bind (debugAssert_of isPrimitiveRoot_unityRoot27.pow_eq_one)]
  rw [isTower.isInverse12.zero]
  rfl

/-- The hint panics on zero and on nothing else. -/
theorem finalExpHint_panicsWhen (hfuel : 9 ≤ host.fuel) (f : Fq12) :
    PanicsWhen (f = 0) (finalExpHint host f) where
  panics h := h ▸ finalExpHint_zero host
  value h := by
    obtain ⟨i, -, y, hrun, -⟩ := finalExpHint_eq host hfuel h
    exact ⟨_, hrun⟩

theorem cubicScaling_one : cubicScaling 1 = (1, 1) := by
  simp only [cubicScaling, powBiguint, power_eq, one_pow, if_pos]

/-- The hint of one is the pair that is written out for no points. -/
theorem finalExpHint_one (hfuel : 9 ≤ host.fuel) : finalExpHint host 1 = .ok (1, 1) := by
  have := isTower.nontrivial
  obtain ⟨y, hinv, hone⟩ := isTower.isInverse12.of_ne_zero one_ne_zero
  rw [one_mul] at hone
  rw [hone] at hinv
  obtain ⟨k, hk⟩ := Nat.exists_eq_add_of_le' hfuel
  have hexpect : expect "c is nonzero" (Ark.Fq12.inverse (1 : Fq12)) = .ok 1 := by
    rw [hinv, expect_some]
  have hloop : tsLoop host host.fuel 1 0#32 = .ok 0#32 := by
    rw [hk, tsLoop, if_neg (not_not.mpr rfl)]
    rfl
  have houter : cubeRootLoop host 1 (unityRoot27 ^ exp2) host.fuel 1 0#32 = .ok 1 := by
    rw [hk, cubeRootLoop, if_neg (not_not.mpr rfl)]
    rfl
  have hcube : (1 : Fq12) = 1 * 1 * 1 := by rw [one_mul, one_mul]
  unfold finalExpHint
  rw [cubicScaling_one]
  simp only [powBiguint, power_eq, one_pow, one_mul]
  rw [calc_bind (debugAssert_of isPrimitiveRoot_unityRoot27.pow_eq_one), calc_bind hexpect,
    calc_bind hloop, calc_bind houter, calc_bind (debugAssert_of hcube)]
  rfl

/-- **The residue witness.** Within nine rounds of each loop `final_exp_hint` returns, for
every `f` but zero, a pair `(c, u)` with `u` one of the first three powers of the 27th
root of unity. If `f` has order dividing `(p ^ 12 - 1) / r` the pair satisfies
`f u = c ^ λ`. For `f = 1` it is `(1, 1)`, so that the shortcut for no points writes out
what the general path would. -/
theorem bn254_finalExpHint_residue (hfuel : 9 ≤ host.fuel) :
    (∀ f : Fq12, f ≠ 0 → ∃ c u, finalExpHint host f = .ok (c, u) ∧
      (u = 1 ∨ u = unityRoot27 ∨ u = unityRoot27 ^ 2)) ∧
    (∀ f : Fq12, f ^ ((bn254Fp ^ 12 - 1) / groupOrder) = 1 →
      ∃ c u, finalExpHint host f = .ok (c, u) ∧ f * u = c ^ lambda) ∧
    finalExpHint host 1 = .ok (1, 1) ∧
    ∀ (mem : Memory) (d : Descriptors), d.pLen = 0#32 →
      hintPayload host mem d = (finalExpHint host 1).map
        fun r => fq12ToOpenvmBytes r.1 ++ fq12ToOpenvmBytes r.2 := by
  refine ⟨fun f hf => ?_, fun f hf => ?_, finalExpHint_one host hfuel, fun mem d hd => ?_⟩
  · obtain ⟨i, hi, c, hrun, -⟩ := finalExpHint_eq host hfuel hf
    refine ⟨c, _, hrun, ?_⟩
    obtain rfl | rfl | rfl : i = 0 ∨ i = 1 ∨ i = 2 := by omega
    · exact .inl (pow_zero _)
    · exact .inr (.inl (pow_one _))
    · exact .inr (.inr rfl)
  · have hne : f ≠ 0 := by
      rintro rfl
      have := isTower.nontrivial
      rw [zero_pow cofactor_ne_zero] at hf
      exact zero_ne_one hf
    obtain ⟨i, -, c, hrun, hc⟩ := finalExpHint_eq host hfuel hne
    refine ⟨c, _, hrun, ?_⟩
    have hu : (unityRoot27 ^ i) ^ ((bn254Fp ^ 12 - 1) / groupOrder) = 1 := by
      rw [pow_right_comm, pow_eq_pow_mod _ isPrimitiveRoot_unityRoot27.pow_eq_one, cofactor_mod,
        pow_zero, one_pow]
    have hfu : (f * unityRoot27 ^ i) ^ ((bn254Fp ^ 12 - 1) / groupOrder) = 1 := by
      rw [mul_pow, hf, hu, one_mul]
    calc f * unityRoot27 ^ i
        = (f * unityRoot27 ^ i) ^ (groupOrder * mFactor * (rInv * mInv)) :=
          (pow_eq_self_of_mod hfu inverses_mod).symm
      _ = (c ^ 3) ^ (groupOrder * mFactor) := by rw [hc, ← pow_mul, mul_comm (rInv * mInv)]
      _ = c ^ lambda := by rw [← pow_mul, ← lambda_eq]
  · rw [finalExpHint_one host hfuel, hintPayload, if_pos hd]
    rfl

/-- The constant host goes round often enough. -/
theorem finalExpHint_residue_constant :
    ∃ c u, finalExpHint Host.constant unityRoot27 = .ok (c, u) ∧
      (u = 1 ∨ u = unityRoot27 ∨ u = unityRoot27 ^ 2) :=
  (bn254_finalExpHint_residue Host.constant (by decide)).1 unityRoot27 unityRoot27_ne_zero

end Hint

end OpenvmSim.Precompiles.Bn254
