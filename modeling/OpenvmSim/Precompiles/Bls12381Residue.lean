import OpenvmSim.Ark.TowerField
import OpenvmSim.Base.Panic
import OpenvmSim.Base.Roots
import OpenvmSim.Precompiles.Effects
import OpenvmSim.Precompiles.Primes

/-! The BLS12-381 residue witness.

`(p ^ 12 - 1) / r` is the product of 27, `poly_factor` and `final_exp_factor`, which have
no common factors. For an `f` of that order the two corrections are powers of `f` that
cancel its `poly_factor` part and its 27 part, so that the shifted `f` has order
`final_exp_factor`, to which `λ` is prime. -/
namespace OpenvmSim.Precompiles

/-- A modular inverse that exists. -/
theorem BigUint.modinv_eq {a m : ℕ} (hm : 1 < m) (hgcd : Nat.gcd a m = 1) :
    ∃ i < m, (BigUint.modinv a m : Calc (Option ℕ)) = .ok (some i) ∧ a * i % m = 1 := by
  have hm0 : (m : ℤ) ≠ 0 := by omega
  refine ⟨(Nat.gcdA a m % m).toNat, ?_, ?_, ?_⟩
  · rw [Int.toNat_lt' (by omega)]
    exact Int.emod_lt_of_pos _ (by omega)
  · rw [BigUint.modinv, if_neg (by omega), if_pos hgcd]
    rfl
  · have hbezout := Nat.gcd_eq_gcd_ab a m
    rw [hgcd] at hbezout
    have hnonneg := Int.emod_nonneg (Nat.gcdA a m) hm0
    have hint : ((a * (Nat.gcdA a m % m).toNat % m : ℕ) : ℤ) = 1 := by
      rw [Int.natCast_mod, Nat.cast_mul, Int.toNat_of_nonneg hnonneg, Int.mul_emod,
        Int.emod_emod_of_dvd _ dvd_rfl, ← Int.mul_emod]
      have hone : (a : ℤ) * Nat.gcdA a m = 1 + m * -Nat.gcdB a m := by
        linear_combination -hbezout
      rw [hone, Int.add_mul_emod_self_left]
      exact Int.emod_eq_of_lt Int.one_nonneg (by omega)
    exact_mod_cast hint

/-- Two shifts that cancel the parts `n` and `q` of an order `n q e`. -/
theorem dvd_one_add_shift {n q e i k : ℕ} (hq : 1 < q) (hnq : Nat.Coprime n q)
    (hi : e * n * i % q = 1) (hk : n ∣ 1 + e * q * k) :
    n * q * e ∣ (1 + (e * n * ((q - 1) * i) + e * q * k)) * e := by
  have hdvd : q ∣ 1 + (e * n * ((q - 1) * i) + e * q * k) := by
    have hmod : e * n * i ≡ 1 [MOD q] := by
      rw [Nat.ModEq, hi, Nat.mod_eq_of_lt hq]
    have hsum : (q - 1) * (e * n * i) + 1 ≡ 0 [MOD q] := by
      refine ((hmod.mul_left (q - 1)).add_right 1).trans ?_
      rw [mul_one, Nat.sub_add_cancel hq.le]
      exact Nat.modEq_zero_iff_dvd.mpr dvd_rfl
    have hsplit : 1 + (e * n * ((q - 1) * i) + e * q * k) =
        (q - 1) * (e * n * i) + 1 + q * (e * k) := by ring
    rw [hsplit]
    exact Nat.dvd_add (Nat.modEq_zero_iff_dvd.mp hsum) (dvd_mul_right _ _)
  have hdvd' : n ∣ 1 + (e * n * ((q - 1) * i) + e * q * k) := by
    have hsplit : 1 + (e * n * ((q - 1) * i) + e * q * k) =
        1 + e * q * k + n * (e * ((q - 1) * i)) := by ring
    rw [hsplit]
    exact Nat.dvd_add hk (dvd_mul_right _ _)
  exact Nat.mul_dvd_mul_right (hnq.mul_dvd_of_dvd_of_dvd hdvd' hdvd) _

namespace Bls12381
open Rv32im

/-! ### The field -/

theorem norm_xi : QuadraticAlgebra.norm xi = ((2 : ℕ) : Fq) := by
  rw [QuadraticAlgebra.norm_def]
  decide

/-- Two is neither a square nor a cube: Euler's criterion. -/
theorem powMod_norm_xi : powMod bls12381Fp 2 ((bls12381Fp - 1) / 2) ≠ 1 ∧
    powMod bls12381Fp 2 ((bls12381Fp - 1) / 3) ≠ 1 := by
  decide +kernel

theorem isTower : Ark.IsTower bls12381Fp xi where
  prime := prime_bls12381Fp
  mod_four := by decide
  square r := by
    rw [norm_xi]
    exact ne_pow_of_powMod_ne prime_bls12381Fp (by decide) (by decide) powMod_norm_xi.1 r
  cube r := by
    rw [norm_xi]
    exact ne_pow_of_powMod_ne prime_bls12381Fp (by decide) (by decide) powMod_norm_xi.2 r

/-! ### The constants -/

/-- The order of the curve group. -/
def groupOrder : ℕ := bls12381Fr

/-- The absolute value of the BLS parameter, which is negative. -/
def blsX : ℕ := 0xd201000000010000

/-- `λ = p - x` -/
theorem lambda_eq : lambda = bls12381Fp + blsX := by decide

/-- `(p ^ 12 - 1) / r` -/
def cofactor : ℕ := (bls12381Fp ^ 12 - 1) / groupOrder

theorem cofactor_eq : cofactor = 27 * polyFactor * finalExpFactor := by decide
theorem even_cofactor : Even cofactor := by decide
theorem one_lt_polyFactor : 1 < polyFactor := by decide
theorem one_lt_finalExpFactor : 1 < finalExpFactor := by decide
theorem gcd_times27 : Nat.gcd (finalExpFactor * 27) polyFactor = 1 := by decide
theorem gcd_lambda : Nat.gcd lambda finalExpFactor = 1 := by decide
theorem coprime_27_polyFactor : Nat.Coprime 27 polyFactor := by decide

/-- Ten inverts the rest of the cofactor modulo 27. -/
theorem ten_inverts : 27 ∣ 1 + finalExpFactor * polyFactor * ((27 - 1) * 10) := by decide

attribute [local irreducible] polyFactor finalExpFactor lambda bls12381Fp cofactor

/-! ### The corrections -/

section Corrections
variable {f : Fq12}

/-- An inverse power of an element of order dividing `n`. -/
theorem invPowBu_eq {x : Fq12} {n : ℕ} (hn : 0 < n) (hx : x ^ n = 1) (e : ℕ) :
    invPowBu x e = .ok (x ^ ((n - 1) * e)) := by
  have hne : x ≠ 0 := by
    rintro rfl
    have := isTower.nontrivial
    rw [zero_pow hn.ne'] at hx
    exact zero_ne_one hx
  obtain ⟨y, hinv, hone⟩ := isTower.isInverse12.of_ne_zero hne
  have hy : y = x ^ (n - 1) := by
    calc y = y * x ^ (n - 1 + 1) := by rw [Nat.sub_add_cancel hn, hx, mul_one]
      _ = x * y * x ^ (n - 1) := by ring
      _ = x ^ (n - 1) := by rw [hone, one_mul]
  unfold invPowBu
  rw [hinv, expect_some]
  show Except.ok (power y e) = _
  rw [power_eq, hy, ← pow_mul]

/-- The exponent of the correction, when `i` inverts `27 final_exp_factor`. -/
def shift (i : ℕ) : ℕ :=
  finalExpFactor * 27 * ((polyFactor - 1) * i) + finalExpFactor * polyFactor * ((27 - 1) * 10)

/-- The first correction, whether it is needed or not, and what follows it. -/
theorem rootPthInv_bind {α : Type} {x : Fq12} {i : ℕ} (hx : x ^ polyFactor = 1)
    (k : Fq12 → Calc α) :
    (if x = 1 then pure 1 >>= k else invPowBu x i >>= k) = k (x ^ ((polyFactor - 1) * i)) := by
  by_cases h : x = 1
  · rw [if_pos h, h, one_pow]
    rfl
  · rw [if_neg h]
    exact calc_bind (invPowBu_eq (Nat.zero_lt_of_lt one_lt_polyFactor) hx i)

theorem pow_mul_pow_eq (e n q i k : ℕ) :
    ((f ^ e) ^ n) ^ i * ((f ^ e) ^ q) ^ k = f ^ (e * n * i + e * q * k) := by
  rw [pow_add, ← pow_mul, ← pow_mul, ← pow_mul, ← pow_mul, mul_assoc, mul_assoc]

theorem pow_shift (i : ℕ) : ((f ^ finalExpFactor) ^ 27) ^ ((polyFactor - 1) * i) *
    ((f ^ finalExpFactor) ^ polyFactor) ^ ((27 - 1) * 10) = f ^ shift i :=
  pow_mul_pow_eq _ _ _ _ _

/-- The hint of an element of order dividing the cofactor. -/
theorem finalExpHint_eq (hf : f ^ cofactor = 1) :
    ∃ i j, finalExpFactor * 27 * i % polyFactor = 1 ∧ lambda * j % finalExpFactor = 1 ∧
      finalExpHint f = .ok ((f * f ^ shift i) ^ j, f ^ shift i) := by
  obtain ⟨i, hlt, hinv, hi⟩ := BigUint.modinv_eq one_lt_polyFactor gcd_times27
  obtain ⟨j, -, hinv', hj⟩ := BigUint.modinv_eq one_lt_finalExpFactor gcd_lambda
  refine ⟨i, j, hi, hj, ?_⟩
  have hroot : ((f ^ finalExpFactor) ^ 27) ^ polyFactor = 1 := by
    rw [← pow_mul, ← pow_mul, Nat.mul_comm, ← cofactor_eq, hf]
  have hroot' : ((f ^ finalExpFactor) ^ polyFactor) ^ 27 = 1 := by
    rw [pow_right_comm, hroot]
  have hrem : (BigUint.rem i polyFactor : Calc ℕ) = .ok i := by
    rw [BigUint.rem_of_ne (Nat.ne_zero_of_lt hlt), Nat.mod_eq_of_lt hlt]
  have hexpect : ∀ n : ℕ, expect "inverse exists" (some n) = .ok n := fun n => rfl
  unfold finalExpHint
  simp only [powBu, power_eq]
  rw [calc_bind hinv, calc_bind (hexpect i), calc_bind hrem, rootPthInv_bind hroot,
    if_pos hroot', calc_bind (invPowBu_eq (by decide) hroot' 10), pow_shift, calc_bind hinv',
    calc_bind (hexpect j)]
  rfl

/-- The shifted element has order dividing `final_exp_factor`. -/
theorem shifted_pow {i : ℕ} (hf : f ^ cofactor = 1)
    (hi : finalExpFactor * 27 * i % polyFactor = 1) :
    (f * f ^ shift i) ^ finalExpFactor = 1 := by
  have hdvd : cofactor ∣ (1 + shift i) * finalExpFactor := by
    rw [cofactor_eq]
    exact dvd_one_add_shift one_lt_polyFactor coprime_27_polyFactor hi ten_inverts
  obtain ⟨k, hk⟩ := hdvd
  calc (f * f ^ shift i) ^ finalExpFactor = f ^ ((1 + shift i) * finalExpFactor) := by
        rw [pow_mul, pow_add, pow_one]
    _ = 1 := by rw [hk, pow_mul, hf, one_pow]

theorem dvd_shift_mul (e n q i k : ℕ) : n * q * e ∣ (e * n * i + e * q * k) * (n * q) :=
  ⟨n * i + q * k, by ring⟩

/-- The shift has order dividing `27 poly_factor`. -/
theorem pow_shift_pow {i : ℕ} (hf : f ^ cofactor = 1) : (f ^ shift i) ^ (27 * polyFactor) = 1 := by
  have hdvd : cofactor ∣ shift i * (27 * polyFactor) := by
    rw [cofactor_eq]
    exact dvd_shift_mul _ _ _ _ _
  obtain ⟨k, hk⟩ := hdvd
  rw [← pow_mul, hk, pow_mul, hf, one_pow]

/-- Inverse powers panic on zero and on nothing else. -/
theorem invPowBu_panicsWhen (x : Fq12) (e : ℕ) : PanicsWhen (x = 0) (invPowBu x e) where
  panics h := by
    refine ⟨"nonzero", ?_⟩
    unfold invPowBu
    rw [h, isTower.isInverse12.zero]
    rfl
  value h := by
    obtain ⟨y, hinv, -⟩ := isTower.isInverse12.of_ne_zero h
    unfold invPowBu
    rw [hinv, expect_some]
    exact ⟨_, rfl⟩

/-- A correction that is made or not, before a calculation that returns. -/
theorem correction_value {α : Type} {c : Prop} [Decidable c] {x : Fq12} (hx : x ≠ 0) (e : ℕ)
    {k : Fq12 → Calc α} (hk : ∀ r, ∃ a, k r = .ok a) :
    ∃ a, (if c then invPowBu x e >>= k else pure 1 >>= k) = .ok a := by
  split
  · obtain ⟨r, hr⟩ := (invPowBu_panicsWhen x e).value hx
    rw [calc_bind hr]
    exact hk r
  · exact hk 1

/-- The first correction, which panics on zero. -/
theorem correction_panicsWhen {α : Type} (x : Fq12) (e : ℕ) {k : Fq12 → Calc α}
    (hk : x ≠ 0 → ∀ r, ∃ a, k r = .ok a) :
    PanicsWhen (x = 0) (if x = 1 then pure 1 >>= k else invPowBu x e >>= k) := by
  have := isTower.isDomain
  by_cases hone : x = 1
  · have hx : x ≠ 0 := by
      rw [hone]
      exact one_ne_zero
    obtain ⟨a, ha⟩ := hk hx 1
    rw [if_pos hone]
    exact panicsWhen_ok ha hx
  · rw [if_neg hone]
    exact (invPowBu_panicsWhen x e).bind fun r _ hx => hk hx r

/-- The hint panics on zero and on nothing else. -/
theorem finalExpHint_panicsWhen (f : Fq12) : PanicsWhen (f = 0) (finalExpHint f) := by
  have := isTower.isDomain
  obtain ⟨i, hlt, hinv, -⟩ := BigUint.modinv_eq one_lt_polyFactor gcd_times27
  obtain ⟨j, -, hinv', -⟩ := BigUint.modinv_eq one_lt_finalExpFactor gcd_lambda
  have hrem : (BigUint.rem i polyFactor : Calc ℕ) = .ok i := by
    rw [BigUint.rem_of_ne (Nat.ne_zero_of_lt hlt), Nat.mod_eq_of_lt hlt]
  have hexpect : ∀ n : ℕ, expect "inverse exists" (some n) = .ok n := fun n => rfl
  have hroot : (f ^ finalExpFactor) ^ 27 = 0 ↔ f = 0 := by
    rw [pow_eq_zero_iff (by decide), pow_eq_zero_iff (Nat.ne_zero_of_lt one_lt_finalExpFactor)]
  unfold finalExpHint
  simp only [powBu, power_eq]
  rw [calc_bind hinv, calc_bind (hexpect i), calc_bind hrem]
  refine (correction_panicsWhen _ i fun hx r => ?_).congr hroot
  refine correction_value (pow_ne_zero _ (pow_ne_zero _ (mt hroot.mpr hx))) 10 fun r' => ?_
  rw [calc_bind hinv', calc_bind (hexpect j)]
  exact ⟨_, rfl⟩

/-- The hint of one is the pair that is written out for no points. -/
theorem finalExpHint_one : finalExpHint 1 = .ok (1, 1) := by
  have hone : ∀ n, (1 : Fq12) ^ n = 1 := one_pow
  obtain ⟨i, j, -, -, hrun⟩ := finalExpHint_eq (hone _)
  rw [hone (shift i), one_mul, hone j] at hrun
  exact hrun

/-- **The residue witness.** If `f` has order dividing `(p ^ 12 - 1) / r`, `final_exp_hint`
returns a pair `(c, s)` with `c ^ λ = f s` and `s ^ (27 poly_factor) = 1`, for `λ = p - x`.
For `f = 1` it is `(1, 1)`, so that the shortcut for no points writes out what the general
path would. -/
theorem bls12381_finalExpHint_residue (host : Host) :
    lambda = bls12381Fp + blsX ∧
    (∀ f : Fq12, f ^ ((bls12381Fp ^ 12 - 1) / groupOrder) = 1 →
      ∃ c s, finalExpHint f = .ok (c, s) ∧ c ^ lambda = f * s ∧ s ^ (27 * polyFactor) = 1) ∧
    finalExpHint 1 = .ok (1, 1) ∧
    ∀ (mem : Memory) (d : Descriptors), d.pLen = 0#32 →
      hintPayload host mem d = (finalExpHint 1).map
        fun r => fq12ToOpenvmBytes r.1 ++ fq12ToOpenvmBytes r.2 := by
  refine ⟨lambda_eq, fun f hf => ?_, finalExpHint_one, fun mem d hd => ?_⟩
  · have hf : f ^ cofactor = 1 := by rwa [cofactor]
    obtain ⟨i, j, hi, hj, hrun⟩ := finalExpHint_eq hf
    refine ⟨_, _, hrun, ?_, pow_shift_pow hf⟩
    rw [← pow_mul, Nat.mul_comm]
    exact pow_eq_self_of_mod (shifted_pow hf hi) hj
  · rw [finalExpHint_one, hintPayload, if_pos hd]
    rfl

/-- Minus one has order dividing `(p ^ 12 - 1) / r`. -/
theorem finalExpHint_residue_neg : ∃ c s, finalExpHint (-1) = .ok (c, s) ∧
    c ^ lambda = -1 * s ∧ s ^ (27 * polyFactor) = 1 := by
  have heven := even_cofactor
  unfold cofactor at heven
  exact (bls12381_finalExpHint_residue Host.constant).2.1 (-1) heven.neg_one_pow

end Corrections

end Bls12381

end OpenvmSim.Precompiles
