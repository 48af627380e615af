import OpenvmSim.Rv32im.Isa

/-! The decoder reads the fields of the RISC-V base formats.

Every accessor of `Decode` is compared, bit by bit, with the field or the
scrambled immediate that `Isa` states. -/
namespace OpenvmSim.Rv32im
open Isa

/-- A masked shift is a bit field. -/
private theorem field_eq (w : Word) (start len : ℕ) (mask : Word)
    (hmask : ∀ i, i < 32 → mask.getLsbD i = decide (i < len)) :
    w >>> start &&& mask = (w.extractLsb' start len).setWidth 32 := by
  apply BitVec.eq_of_getLsbD_eq
  intro i hi
  simp only [BitVec.getLsbD_and, BitVec.getLsbD_ushiftRight, hmask i hi, BitVec.getLsbD_setWidth,
    BitVec.getLsbD_extractLsb', hi, decide_true, Bool.true_and]
  exact Bool.and_comm _ _

theorem opcode_eq (w : Word) : opcode w = (majorOpcode w).setWidth 32 := by
  have h := field_eq w 0 7 0x7f#32 (by decide)
  rwa [BitVec.ushiftRight_zero] at h

theorem funct3_eq (w : Word) : funct3 w = (funct3Field w).setWidth 32 :=
  field_eq w 12 3 0x7#32 (by decide)

theorem funct7_eq (w : Word) : funct7 w = (funct7Field w).setWidth 32 :=
  field_eq w 25 7 0x7f#32 (by decide)

/-- A register field, narrowed. -/
private theorem reg_eq (w : Word) (start : ℕ) :
    (w >>> start &&& 0x1f#32).setWidth 5 = w.extractLsb' start 5 := by
  rw [field_eq w start 5 0x1f#32 (by decide)]
  exact BitVec.setWidth_setWidth_of_le _ (by decide)

theorem rd_eq (w : Word) : rd w = rdField w := reg_eq w 7

theorem rs1_eq (w : Word) : rs1 w = rs1Field w := reg_eq w 15

theorem rs2_eq (w : Word) : rs2 w = rs2Field w := reg_eq w 20

theorem shamt_toNat (w : Word) : (shamt w).toNat = (rs2Field w).toNat := by
  have h := (rs2Field w).isLt
  rw [shamt, rs2_eq, BitVec.toNat_and, BitVec.toNat_setWidth]
  show (rs2Field w).toNat % 2 ^ 32 &&& (2 ^ 5 - 1) = _
  rw [Nat.and_two_pow_sub_one_eq_mod]
  omega

/-! ### Immediates -/

theorem immI_eq (w : Word) : immI w = (iImm w).signExtend 32 := by
  apply BitVec.eq_of_getLsbD_eq
  intro i hi
  simp only [immI, iImm, BitVec.getLsbD_sshiftRight, BitVec.getLsbD_signExtend,
    BitVec.getLsbD_extractLsb', BitVec.msb_eq_getLsbD_last]
  by_cases h : i < 12
  · simp [h, hi, show 20 + i < 32 by omega]
  · simp [h, hi, show ¬20 + i < 32 by omega]

theorem immU_eq (w : Word) : immU w = uImm w ++ 0#12 := by
  have hmask : ∀ i, i < 32 → (0xfffff000#32).getLsbD i = decide (12 ≤ i) := by decide
  apply BitVec.eq_of_getLsbD_eq
  intro i hi
  simp only [immU, uImm, BitVec.getLsbD_and, hmask i hi, BitVec.getLsbD_append,
    BitVec.getLsbD_extractLsb', BitVec.getLsbD_zero]
  by_cases h : i < 12
  · simp [h, show ¬12 ≤ i by omega]
  · simp [h, show 12 ≤ i by omega, show i - 12 < 20 by omega, show 12 + (i - 12) = i by omega]

theorem immS_eq (w : Word) : immS w = (sImm w).signExtend 32 := by
  apply BitVec.eq_of_getLsbD_eq
  intro i hi
  simp only [immS, sImm, field_eq w 7 5 0x1f#32 (by decide), BitVec.getLsbD_or,
    BitVec.getLsbD_shiftLeft, BitVec.getLsbD_sshiftRight, BitVec.getLsbD_signExtend,
    BitVec.getLsbD_append, BitVec.getLsbD_extractLsb', BitVec.getLsbD_setWidth,
    BitVec.msb_eq_getLsbD_last]
  by_cases h5 : i < 5
  · simp [h5, hi, show i < 12 by omega]
  · by_cases h12 : i < 12
    · simp [h5, h12, hi, show 25 + (i - 5) < 32 by omega, show i - 5 < 7 by omega,
        show i - 5 < 32 by omega]
    · simp [h5, h12, hi, show ¬25 + (i - 5) < 32 by omega, show i - 5 < 32 by omega]

theorem immB_eq (w : Word) : immB w = (bImm w).signExtend 32 := by
  apply BitVec.eq_of_getLsbD_eq
  intro i hi
  simp only [immB, bImm, field_eq w 7 1 1#32 (by decide), field_eq w 25 6 0x3f#32 (by decide),
    field_eq w 8 4 0xf#32 (by decide), BitVec.getLsbD_or, BitVec.getLsbD_shiftLeft,
    BitVec.getLsbD_sshiftRight, BitVec.getLsbD_signExtend, BitVec.getLsbD_append,
    BitVec.getLsbD_extractLsb', BitVec.getLsbD_setWidth, BitVec.msb_eq_getLsbD_last]
  have hcases : i = 0 ∨ (1 ≤ i ∧ i < 5) ∨ (5 ≤ i ∧ i < 11) ∨ i = 11 ∨ 12 ≤ i := by omega
  rcases hcases with rfl | ⟨h1, h2⟩ | ⟨h1, h2⟩ | rfl | h1
  · simp
  · simp [hi, show ¬i < 1 by omega, show i < 5 by omega, show i < 11 by omega, show i < 12 by omega,
      show i < 13 by omega, show i - 1 < 4 by omega, show i - 1 < 32 by omega]
  · simp [hi, show ¬i < 1 by omega, show ¬i < 5 by omega, show i < 11 by omega,
      show i < 12 by omega, show i < 13 by omega, show ¬i - 1 < 4 by omega, show i - 5 < 6 by omega,
      show i - 1 - 4 = i - 5 by omega, show i - 5 < 32 by omega]
  · simp
  · by_cases h12 : i = 12
    · subst h12
      simp
    · simp [hi, show ¬i < 1 by omega, show ¬i < 5 by omega, show ¬i < 11 by omega,
        show ¬i < 12 by omega, show ¬i < 13 by omega, show ¬i - 1 < 4 by omega,
        show ¬i - 5 < 6 by omega, show ¬i - 11 < 1 by omega, show ¬31 + (i - 12) < 32 by omega,
        show i - 12 < 32 by omega]

theorem immJ_eq (w : Word) : immJ w = (jImm w).signExtend 32 := by
  apply BitVec.eq_of_getLsbD_eq
  intro i hi
  simp only [immJ, jImm, field_eq w 12 8 0xff#32 (by decide), field_eq w 20 1 1#32 (by decide),
    field_eq w 21 10 0x3ff#32 (by decide), BitVec.getLsbD_or, BitVec.getLsbD_shiftLeft,
    BitVec.getLsbD_sshiftRight, BitVec.getLsbD_signExtend, BitVec.getLsbD_append,
    BitVec.getLsbD_extractLsb', BitVec.getLsbD_setWidth, BitVec.msb_eq_getLsbD_last]
  have hcases : i = 0 ∨ (1 ≤ i ∧ i < 11) ∨ i = 11 ∨ (12 ≤ i ∧ i < 20) ∨ 20 ≤ i := by omega
  rcases hcases with rfl | ⟨h1, h2⟩ | rfl | ⟨h1, h2⟩ | h1
  · simp
  · simp [hi, show ¬i < 1 by omega, show i < 11 by omega, show i < 12 by omega, show i < 20 by omega,
      show i < 21 by omega, show i - 1 < 10 by omega, show i - 1 < 32 by omega]
  · simp
  · simp [hi, show ¬i < 1 by omega, show ¬i < 11 by omega, show ¬i < 12 by omega,
      show i < 20 by omega, show i < 21 by omega, show ¬i - 1 < 10 by omega,
      show ¬i - 11 < 1 by omega, show i - 12 < 8 by omega, show ¬i - 1 - 10 < 1 by omega,
      show i - 1 - 10 - 1 = i - 12 by omega, show i - 12 < 32 by omega]
  · by_cases h20 : i = 20
    · subst h20
      simp
    · simp [hi, show ¬i < 1 by omega, show ¬i < 11 by omega, show ¬i < 12 by omega,
        show ¬i < 20 by omega, show ¬i < 21 by omega, show ¬i - 1 < 10 by omega,
        show ¬i - 11 < 1 by omega, show ¬i - 12 < 8 by omega, show ¬31 + (i - 20) < 32 by omega,
        show i - 20 < 32 by omega]

end OpenvmSim.Rv32im
