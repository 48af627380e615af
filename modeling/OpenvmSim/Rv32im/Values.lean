import Mathlib.Tactic.Linarith
import OpenvmSim.Rv32im.Isa

/-! What the ALU expressions of the interpreter are worth.

The interpreter computes on 32-bit and 64-bit machine words; the instruction set
is stated on integers. Each lemma here takes one expression of `execOpImm` or
`execOp` to the integer formula `Isa` gives for it. -/
namespace OpenvmSim.Rv32im

/-! ### Comparisons, sums and shifts -/

theorem slt_value (a b : Word) :
    (BitVec.ofBool (a.slt b)).setWidth 32 = if a.toInt < b.toInt then 1#32 else 0#32 := by
  rw [BitVec.slt_eq_decide]
  by_cases h : a.toInt < b.toInt <;> simp [h]

theorem ult_value (a b : Word) :
    (BitVec.ofBool (a.ult b)).setWidth 32 = if a.toNat < b.toNat then 1#32 else 0#32 := by
  rw [BitVec.ult_eq_decide]
  by_cases h : a.toNat < b.toNat <;> simp [h]

theorem add_value (a b : Word) : a + b = BitVec.ofInt 32 (a.toInt + b.toInt) := by
  rw [BitVec.ofInt_add, BitVec.ofInt_toInt, BitVec.ofInt_toInt]

theorem sub_value (a b : Word) : a - b = BitVec.ofInt 32 (a.toInt - b.toInt) := by
  rw [Int.sub_eq_add_neg, BitVec.ofInt_add, BitVec.ofInt_neg, BitVec.ofInt_toInt, BitVec.ofInt_toInt,
    BitVec.sub_eq_add_neg]

theorem mul_value (a b : Word) : a * b = BitVec.ofInt 32 (a.toInt * b.toInt) := by
  rw [BitVec.ofInt_mul, BitVec.ofInt_toInt, BitVec.ofInt_toInt]

theorem shiftLeft_value (a : Word) (k : ℕ) : a <<< k = BitVec.ofNat 32 (a.toNat * 2 ^ k) := by
  apply BitVec.eq_of_toNat_eq
  rw [BitVec.toNat_shiftLeft, BitVec.toNat_ofNat, Nat.shiftLeft_eq]

theorem ushiftRight_value (a : Word) (k : ℕ) : a >>> k = BitVec.ofNat 32 (a.toNat / 2 ^ k) := by
  apply BitVec.eq_of_toNat_eq
  have h := Nat.div_le_self a.toNat (2 ^ k)
  have := a.isLt
  rw [BitVec.toNat_ushiftRight, BitVec.toNat_ofNat, Nat.shiftRight_eq_div_pow,
    Nat.mod_eq_of_lt (by omega)]

theorem sshiftRight_value (a : Word) (k : ℕ) :
    a.sshiftRight k = BitVec.ofInt 32 (a.toInt / 2 ^ k) := by
  rw [← BitVec.ofInt_toInt (x := a.sshiftRight k), BitVec.toInt_sshiftRight,
    Int.shiftRight_eq_div_pow]
  norm_cast

/-- A register shift amount. -/
theorem low_five (b : Word) : (b &&& 0x1f#32).toNat = b.toNat % 32 := by
  rw [BitVec.toNat_and]
  exact Nat.and_two_pow_sub_one_eq_mod _ 5

/-! ### Upper halves of products -/

/-- Narrowing keeps the signed value modulo the narrow width. -/
theorem setWidth_value (z : BitVec 64) : z.setWidth 32 = BitVec.ofInt 32 z.toInt := by
  have hz := z.isLt
  apply BitVec.eq_of_toNat_eq
  rw [BitVec.toNat_setWidth, BitVec.toNat_ofInt, BitVec.toInt_eq_toNat_cond]
  split <;> omega

/-- The upper half of a 64-bit product that does not overflow. -/
theorem high_value {x y : BitVec 64} (hlo : -2 ^ 63 ≤ x.toInt * y.toInt)
    (hhi : x.toInt * y.toInt < 2 ^ 63) :
    ((x * y).sshiftRight 32).setWidth 32 = BitVec.ofInt 32 (x.toInt * y.toInt / 2 ^ 32) := by
  have hm : (x * y).toInt = x.toInt * y.toInt := by
    rw [BitVec.toInt_mul]
    exact Int.bmod_eq_of_le (by omega) (by omega)
  rw [setWidth_value, BitVec.toInt_sshiftRight, hm, Int.shiftRight_eq_div_pow]
  norm_cast

/-- A signed word times a value below `2^32` in size. -/
theorem product_bounds (a : Word) {b : ℤ} (hlo : -2 ^ 31 ≤ b) (hhi : b < 2 ^ 32) :
    -2 ^ 63 ≤ a.toInt * b ∧ a.toInt * b < 2 ^ 63 := by
  have h₁ : -2 ^ 31 ≤ a.toInt := BitVec.le_toInt a
  have h₂ : a.toInt < 2 ^ 31 := BitVec.toInt_lt
  constructor <;> nlinarith

theorem mulh_value (a b : Word) :
    ((a.signExtend 64 * b.signExtend 64).sshiftRight 32).setWidth 32 =
      BitVec.ofInt 32 (a.toInt * b.toInt / 2 ^ 32) := by
  have ha : (a.signExtend 64).toInt = a.toInt := BitVec.toInt_signExtend_of_le (by decide)
  have hb : (b.signExtend 64).toInt = b.toInt := BitVec.toInt_signExtend_of_le (by decide)
  have h₁ : -2 ^ 31 ≤ b.toInt := BitVec.le_toInt b
  have h₂ : b.toInt < 2 ^ 31 := BitVec.toInt_lt
  obtain ⟨hlo, hhi⟩ := product_bounds a (b := b.toInt) h₁ (by omega)
  rw [high_value (by rwa [ha, hb]) (by rwa [ha, hb]), ha, hb]

theorem mulhsu_value (a b : Word) :
    ((a.signExtend 64 * b.setWidth 64).sshiftRight 32).setWidth 32 =
      BitVec.ofInt 32 (a.toInt * b.toNat / 2 ^ 32) := by
  have ha : (a.signExtend 64).toInt = a.toInt := BitVec.toInt_signExtend_of_le (by decide)
  have hb : (b.setWidth 64).toInt = b.toNat := by
    rw [BitVec.toInt_setWidth]
    exact Int.bmod_eq_of_le (by omega) (by have := b.isLt; omega)
  obtain ⟨hlo, hhi⟩ := product_bounds a (b := (b.toNat : ℤ)) (by omega)
    (by have := b.isLt; omega)
  rw [high_value (by rwa [ha, hb]) (by rwa [ha, hb]), ha, hb]

theorem mulhu_value (a b : Word) :
    ((a.setWidth 64 * b.setWidth 64) >>> 32).setWidth 32 =
      BitVec.ofNat 32 (a.toNat * b.toNat / 2 ^ 32) := by
  have ha := a.isLt
  have hb := b.isLt
  have hab : a.toNat * b.toNat < 2 ^ 64 := by nlinarith
  apply BitVec.eq_of_toNat_eq
  rw [BitVec.toNat_setWidth, BitVec.toNat_ushiftRight, BitVec.toNat_mul, BitVec.toNat_setWidth,
    BitVec.toNat_setWidth, Nat.mod_eq_of_lt (a := a.toNat) (by omega),
    Nat.mod_eq_of_lt (a := b.toNat) (by omega), Nat.mod_eq_of_lt hab, Nat.shiftRight_eq_div_pow,
    BitVec.toNat_ofNat]

/-! ### Division -/

theorem sdiv_value {a b : Word} (h : ¬(a = 0x80000000#32 ∧ b = 0xffffffff#32)) :
    a.sdiv b = BitVec.ofInt 32 (a.toInt.tdiv b.toInt) := by
  have h' : a ≠ BitVec.intMin 32 ∨ b ≠ -1#32 := by
    by_cases ha : a = 0x80000000#32
    · exact .inr fun hb => h ⟨ha, hb⟩
    · exact .inl ha
  rw [← BitVec.ofInt_toInt (x := a.sdiv b), BitVec.toInt_sdiv_of_ne_or_ne a b h']

/-- The operands of the overflowing signed division. -/
theorem overflow_iff (a b : Word) :
    a = 0x80000000#32 ∧ b = 0xffffffff#32 ↔ a.toInt = -2 ^ 31 ∧ b.toInt = -1 := by
  rw [← BitVec.toInt_inj, ← BitVec.toInt_inj]
  rfl

theorem udiv_value (a b : Word) : a / b = BitVec.ofNat 32 (a.toNat / b.toNat) := by
  apply BitVec.eq_of_toNat_eq
  have h := Nat.div_le_self a.toNat b.toNat
  have := a.isLt
  rw [BitVec.toNat_udiv, BitVec.toNat_ofNat, Nat.mod_eq_of_lt (by omega)]

theorem umod_value (a b : Word) : a % b = BitVec.ofNat 32 (a.toNat % b.toNat) := by
  apply BitVec.eq_of_toNat_eq
  have h := (Nat.mod_le a.toNat b.toNat).trans_lt a.isLt
  rw [BitVec.toNat_umod, BitVec.toNat_ofNat, Nat.mod_eq_of_lt h]

theorem srem_value (a b : Word) : a.srem b = BitVec.ofInt 32 (a.toInt.tmod b.toInt) := by
  rw [← BitVec.ofInt_toInt (x := a.srem b), BitVec.toInt_srem]

end OpenvmSim.Rv32im
