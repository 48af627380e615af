import OpenvmSim.Base.Panic
import OpenvmSim.Precompiles.Ecc
import OpenvmSim.Precompiles.ModInverse

/-! The arithmetic of the precompiles in the field `ZMod p`.

Every calculation that returns, returns the canonical representative of the field
expression it stands for, whether its operands are reduced or not. The subtraction of the
modular and complex tables and the conjugate of the complex division subtract before they
reduce: they panic when the subtrahend is larger than the minuend and the modulus
together. -/
namespace OpenvmSim.Precompiles

/-- A difference of numbers, in the ring. -/
theorem val_sub_of_le {p a b : ℕ} (h : b ≤ a) : (a - b) % p = ((a : ZMod p) - b).val := by
  rw [← Nat.cast_sub h, ZMod.val_natCast]

theorem BigUint.sub_panics {a b : ℕ} (h : a < b) :
    ∃ message, (BigUint.sub a b : Calc ℕ) = .error (.panic message) :=
  ⟨_, if_neg (Nat.not_le.mpr h)⟩

theorem subOnce_panics {p a b : ℕ} (h : p + a < b) :
    ∃ message, subOnce a b p = .error (.panic message) := by
  obtain ⟨message, hm⟩ := BigUint.sub_panics h
  refine ⟨message, ?_⟩
  rw [subOnce, if_neg (show ¬a ≥ b by omega), hm]
  rfl

section Modulus
variable {p : ℕ} [NeZero p]

/-! ### One operation -/

theorem rem_eq_val (n : ℕ) : BigUint.rem n p = .ok (n : ZMod p).val := by
  rw [BigUint.rem_of_ne (NeZero.ne p), ZMod.val_natCast]

theorem subOnce_eq {a b : ℕ} (h : b ≤ p + a) : subOnce a b p = .ok ((a : ZMod p) - b).val := by
  by_cases hle : b ≤ a
  · rw [subOnce, if_pos hle, BigUint.sub_of_le hle, ← val_sub_of_le hle]
    exact BigUint.rem_of_ne (NeZero.ne p)
  · have hval : (p + a - b) % p = ((a : ZMod p) - b).val := by
      rw [val_sub_of_le h, Nat.cast_add, ZMod.natCast_self, zero_add]
    rw [subOnce, if_neg hle, BigUint.sub_of_le h, ← hval]
    exact BigUint.rem_of_ne (NeZero.ne p)

theorem subOnce_panicsWhen (a b : ℕ) : PanicsWhen (p + a < b) (subOnce a b p) where
  panics := subOnce_panics
  value h := ⟨_, subOnce_eq (Nat.le_of_not_lt h)⟩

theorem modpSub_eq (a b : ℕ) : modpSub a b p = .ok ((a : ZMod p) - b).val := by
  have hle : b % p ≤ p + a % p :=
    Nat.le_trans (Nat.mod_lt b (Nat.pos_of_neZero p)).le (Nat.le_add_right _ _)
  rw [modpSub, BigUint.rem_of_ne (NeZero.ne p), BigUint.rem_of_ne (NeZero.ne p)]
  show subOnce (a % p) (b % p) p = _
  rw [subOnce_eq hle, ZMod.natCast_mod, ZMod.natCast_mod]

theorem subCeil_eq (pre neg : ℕ) : subCeil pre neg p = .ok ((pre : ZMod p) - neg).val := by
  by_cases hle : neg ≤ pre
  · rw [subCeil, if_pos hle, BigUint.sub_of_le hle, ← val_sub_of_le hle]
    exact BigUint.rem_of_ne (NeZero.ne p)
  · have hp := Nat.pos_of_neZero p
    -- the multiple of the modulus is at least the difference
    have hceil : neg - pre ≤ (neg - pre + p - 1) / p * p := by
      have hdiv := Nat.div_add_mod (neg - pre + p - 1) p
      have hmod := Nat.mod_lt (neg - pre + p - 1) hp
      rw [Nat.mul_comm] at hdiv
      omega
    have hlift : neg ≤ (neg - pre + p - 1) / p * p + pre := by omega
    have hval : ((neg - pre + p - 1) / p * p + pre - neg) % p = ((pre : ZMod p) - neg).val := by
      rw [val_sub_of_le hlift, Nat.cast_add, Nat.cast_mul, ZMod.natCast_self, mul_zero, zero_add]
    rw [subCeil, if_neg hle, BigUint.sub_of_le (Nat.le_of_not_le hle)]
    show (BigUint.divCeil (neg - pre) p >>= _) = _
    rw [BigUint.divCeil_of_ne (NeZero.ne p)]
    show (BigUint.sub ((neg - pre + p - 1) / p * p + pre) neg >>= _) = _
    rw [BigUint.sub_of_le hlift, ← hval]
    exact BigUint.rem_of_ne (NeZero.ne p)

theorem modIsEq_eq (a b : ℕ) : modIsEq a b p = .ok (decide ((a : ZMod p) = b)) := by
  have hiff : (a % p = b % p) ↔ (a : ZMod p) = b := (ZMod.natCast_eq_natCast_iff' a b p).symm
  rw [modIsEq, BigUint.rem_of_ne (NeZero.ne p), BigUint.rem_of_ne (NeZero.ne p)]
  show (Except.ok (a % p == b % p) : Calc Bool) = _
  rw [← decide_eq_decide.mpr hiff]
  rfl

end Modulus

section Field
variable {p : ℕ} [Fact p.Prime]

/-- The representative of an inverse. -/
theorem modInv_eq (a : ℕ) :
    modInv a p = .ok (if (a : ZMod p) = 0 then none else some ((a : ZMod p)⁻¹).val) := by
  have hp : p.Prime := Fact.out
  by_cases h : (a : ZMod p) = 0
  · rw [if_pos h, modInv_prime_none hp ((ZMod.natCast_eq_zero_iff a p).mp h)]
  · obtain ⟨i, hi, hinv, hone⟩ := modInv_prime hp (mt (ZMod.natCast_eq_zero_iff a p).mpr h)
    rw [if_neg h, hinv, ← eq_inv_of_mul_eq_one_right hone, ZMod.val_natCast, Nat.mod_eq_of_lt hi]

theorem modDiv_eq (a b : ℕ) :
    modDiv a b p = .ok (if (b : ZMod p) = 0 then none else some ((a : ZMod p) / b).val) := by
  rw [modDiv, modInv_eq]
  by_cases h : (b : ZMod p) = 0
  · rw [if_pos h, if_pos h]
    rfl
  · rw [if_neg h, if_neg h]
    show some <$> BigUint.rem (a * ((b : ZMod p)⁻¹).val) p = _
    rw [rem_eq_val, Nat.cast_mul, ZMod.natCast_zmod_val, div_eq_mul_inv]
    rfl

end Field

/-! ### Complex operations -/

section Complex
variable {p : ℕ}

/-- The element of `Fp2` a pair of coefficients stands for. -/
def Pair.toFq2 (p : ℕ) (a : Pair) : Ark.Fq2 p := ⟨a.1, a.2⟩

/-- The canonical coefficients of an element of `Fp2`. -/
def pairOfFq2 (x : Ark.Fq2 p) : Pair := (x.re.val, x.im.val)

@[simp] theorem Pair.toFq2_re (a : Pair) : (a.toFq2 p).re = a.1 := rfl
@[simp] theorem Pair.toFq2_im (a : Pair) : (a.toFq2 p).im = a.2 := rfl

section Ring
variable [NeZero p] (a b : Pair)

theorem toFq2_pairOfFq2 (x : Ark.Fq2 p) : (pairOfFq2 x).toFq2 p = x := by
  ext
  · exact ZMod.natCast_zmod_val x.re
  · exact ZMod.natCast_zmod_val x.im

theorem complexAdd_eq : complexAdd a b p = .ok (pairOfFq2 (a.toFq2 p + b.toFq2 p)) := by
  rw [complexAdd, rem_eq_val, rem_eq_val, Nat.cast_add, Nat.cast_add]
  rfl

theorem complexSub_eq {a b : Pair} (h1 : b.1 ≤ p + a.1) (h2 : b.2 ≤ p + a.2) :
    complexSub a b p = .ok (pairOfFq2 (a.toFq2 p - b.toFq2 p)) := by
  rw [complexSub, subOnce_eq h1, subOnce_eq h2]
  rfl

theorem complexSub_panicsWhen :
    PanicsWhen (p + a.1 < b.1 ∨ p + a.2 < b.2) (complexSub a b p) := by
  by_cases h1 : p + a.1 < b.1
  · refine ((subOnce_panicsWhen a.1 b.1).congr ?_).bind fun r _ h => absurd (.inl h1) h
    exact ⟨fun h => .inl h, fun _ => h1⟩
  · rw [complexSub, subOnce_eq (Nat.le_of_not_lt h1)]
    show PanicsWhen _ (subOnce a.2 b.2 p >>= fun r1 => pure (((a.1 : ZMod p) - b.1).val, r1))
    refine PanicsWhen.bind ((subOnce_panicsWhen a.2 b.2).congr ?_) fun r _ _ => ⟨_, rfl⟩
    exact ⟨fun h => .inr h, fun h => h.resolve_left h1⟩

theorem complexMul_eq : complexMul a b p = .ok (pairOfFq2 (a.toFq2 p * b.toFq2 p)) := by
  have hre : (a.toFq2 p * b.toFq2 p).re = (a.1 : ZMod p) * b.1 - a.2 * b.2 := by
    rw [QuadraticAlgebra.re_mul]
    simp only [Pair.toFq2_re, Pair.toFq2_im]
    ring
  have him : (a.toFq2 p * b.toFq2 p).im = (a.1 : ZMod p) * b.2 + a.2 * b.1 := by
    rw [QuadraticAlgebra.im_mul]
    simp only [Pair.toFq2_re, Pair.toFq2_im]
    ring
  rw [complexMul, subCeil_eq, rem_eq_val, pairOfFq2, hre, him]
  simp only [Nat.cast_add, Nat.cast_mul]
  rfl

theorem complexIsEq_eq : complexIsEq a b p = .ok (decide (a.toFq2 p = b.toFq2 p)) := by
  have hiff : (a.1 % p = b.1 % p ∧ a.2 % p = b.2 % p) ↔ a.toFq2 p = b.toFq2 p := by
    rw [QuadraticAlgebra.ext_iff]
    exact and_congr (ZMod.natCast_eq_natCast_iff' _ _ p).symm
      (ZMod.natCast_eq_natCast_iff' _ _ p).symm
  rw [complexIsEq, BigUint.rem_of_ne (NeZero.ne p), BigUint.rem_of_ne (NeZero.ne p),
    BigUint.rem_of_ne (NeZero.ne p), BigUint.rem_of_ne (NeZero.ne p)]
  show (Except.ok (a.1 % p == b.1 % p && a.2 % p == b.2 % p) : Calc Bool) = _
  rw [← decide_eq_decide.mpr hiff, Bool.decide_and]
  rfl

end Ring

section Field
variable [Fact p.Prime]

/-- The quotient by an element whose norm is not zero. -/
def quotient (x y : Ark.Fq2 p) : Ark.Fq2 p := (QuadraticAlgebra.norm y)⁻¹ • (x * star y)

theorem quotient_mul {x y : Ark.Fq2 p} (h : QuadraticAlgebra.norm y ≠ 0) :
    quotient x y * y = x := by
  have hnorm : star y * y = algebraMap (ZMod p) _ (QuadraticAlgebra.norm y) := by
    rw [QuadraticAlgebra.algebraMap_norm_eq_mul_star, mul_comm]
  rw [quotient, smul_mul_assoc, mul_assoc, hnorm, mul_comm, ← Algebra.smul_def, smul_smul,
    inv_mul_cancel₀ h, one_smul]

variable {a b : Pair}

theorem norm_toFq2 :
    QuadraticAlgebra.norm (b.toFq2 p) = ((b.1 * b.1 + b.2 * b.2 : ℕ) : ZMod p) := by
  rw [QuadraticAlgebra.norm_def, Nat.cast_add, Nat.cast_mul, Nat.cast_mul]
  simp only [Pair.toFq2_re, Pair.toFq2_im]
  ring

theorem complexDiv_none (h : QuadraticAlgebra.norm (b.toFq2 p) = 0) :
    complexDiv a b p = .ok none := by
  rw [norm_toFq2] at h
  rw [complexDiv, rem_eq_val]
  show (modInv ((b.1 * b.1 + b.2 * b.2 : ℕ) : ZMod p).val p >>= _) = _
  rw [modInv_eq, ZMod.natCast_zmod_val, if_pos h]
  rfl

/-- The coefficients of the quotient as they are computed from an inverse of the norm. -/
theorem quotient_eq (a b : Pair) :
    quotient (a.toFq2 p) (b.toFq2 p) =
      ⟨(a.1 : ZMod p) * (b.1 * (QuadraticAlgebra.norm (b.toFq2 p))⁻¹) -
          a.2 * (-(b.2 : ZMod p) * (QuadraticAlgebra.norm (b.toFq2 p))⁻¹),
        (a.1 : ZMod p) * (-(b.2 : ZMod p) * (QuadraticAlgebra.norm (b.toFq2 p))⁻¹) +
          a.2 * (b.1 * (QuadraticAlgebra.norm (b.toFq2 p))⁻¹)⟩ := by
  rw [quotient]
  ext
  · rw [QuadraticAlgebra.re_smul, QuadraticAlgebra.re_mul, QuadraticAlgebra.re_star,
      QuadraticAlgebra.im_star]
    simp only [Pair.toFq2_re, Pair.toFq2_im, smul_eq_mul]
    ring
  · rw [QuadraticAlgebra.im_smul, QuadraticAlgebra.im_mul, QuadraticAlgebra.re_star,
      QuadraticAlgebra.im_star]
    simp only [Pair.toFq2_re, Pair.toFq2_im, smul_eq_mul]
    ring

/-- The second coefficient of the conjugate. -/
def conjCoeff (b p : ℕ) : Calc ℕ :=
  if b = 0 then pure 0 else do BigUint.rem (← BigUint.sub p b) p

theorem conjCoeff_eq {b : ℕ} (h : b ≤ p) : conjCoeff b p = .ok (-(b : ZMod p)).val := by
  by_cases h0 : b = 0
  · subst h0
    rw [conjCoeff, if_pos rfl, Nat.cast_zero, neg_zero, ZMod.val_zero]
    rfl
  · have hval : (p - b) % p = (-(b : ZMod p)).val := by
      rw [val_sub_of_le h, ZMod.natCast_self, zero_sub]
    rw [conjCoeff, if_neg h0, BigUint.sub_of_le h, ← hval]
    exact BigUint.rem_of_ne (NeZero.ne p)

/-- A division whose divisor has a norm that is not zero goes on to the conjugate. -/
theorem complexDiv_conj (h : QuadraticAlgebra.norm (b.toFq2 p) ≠ 0) :
    complexDiv a b p = (do
      let conj1 ← conjCoeff b.2 p
      let inv0 ← BigUint.rem (b.1 * (QuadraticAlgebra.norm (b.toFq2 p))⁻¹.val) p
      let inv1 ← BigUint.rem (conj1 * (QuadraticAlgebra.norm (b.toFq2 p))⁻¹.val) p
      let r0 ← subCeil (a.1 * inv0) (a.2 * inv1) p
      let r1 ← BigUint.rem (a.1 * inv1 + a.2 * inv0) p
      pure (some (r0, r1))) := by
  have hnorm := h
  rw [norm_toFq2] at hnorm
  rw [complexDiv, rem_eq_val]
  show (modInv ((b.1 * b.1 + b.2 * b.2 : ℕ) : ZMod p).val p >>= _) = _
  rw [modInv_eq, ZMod.natCast_zmod_val, if_neg hnorm, ← norm_toFq2, conjCoeff]
  split
  · rfl
  · cases BigUint.sub p b.2 with
    | ok diff => rfl
    | error e => rfl

theorem complexDiv_eq (h : QuadraticAlgebra.norm (b.toFq2 p) ≠ 0) (hle : b.2 ≤ p) :
    complexDiv a b p = .ok (some (pairOfFq2 (quotient (a.toFq2 p) (b.toFq2 p)))) := by
  rw [complexDiv_conj h, conjCoeff_eq hle, quotient_eq]
  generalize (QuadraticAlgebra.norm (b.toFq2 p))⁻¹ = inv
  show (BigUint.rem (b.1 * inv.val) p >>= _) = _
  rw [rem_eq_val]
  show (BigUint.rem ((-(b.2 : ZMod p)).val * inv.val) p >>= _) = _
  rw [rem_eq_val]
  show (subCeil (a.1 * _) (a.2 * _) p >>= _) = _
  rw [subCeil_eq]
  show (BigUint.rem (a.1 * _ + a.2 * _) p >>= _) = _
  rw [rem_eq_val]
  simp only [Nat.cast_add, Nat.cast_mul, ZMod.natCast_zmod_val]
  rfl

theorem complexDiv_panicsWhen (a b : Pair) :
    PanicsWhen (QuadraticAlgebra.norm (b.toFq2 p) ≠ 0 ∧ p < b.2) (complexDiv a b p) where
  panics h := by
    obtain ⟨message, hm⟩ := BigUint.sub_panics h.2
    refine ⟨message, ?_⟩
    rw [complexDiv_conj h.1, conjCoeff, if_neg (Nat.ne_zero_of_lt h.2), hm]
    rfl
  value h := by
    by_cases hn : QuadraticAlgebra.norm (b.toFq2 p) = 0
    · exact ⟨_, complexDiv_none hn⟩
    · exact ⟨_, complexDiv_eq hn (Nat.le_of_not_lt fun hlt => h ⟨hn, hlt⟩)⟩

end Field
end Complex

end OpenvmSim.Precompiles
