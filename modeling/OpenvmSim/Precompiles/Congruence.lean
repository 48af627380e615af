import OpenvmSim.Precompiles.FieldWords
import OpenvmSim.Precompiles.Primes

/-! Operands modulo the prime.

The field words are compared on two machines whose operands are congruent. They have the same
outcome on both, unless one of them is a word that subtracts before it reduces and its operands
are too large for that. -/
namespace OpenvmSim.Precompiles
open Rv32im

/-! ### Two machines -/

/-- The word ends in the same way on both machines, and on neither in a panic. -/
def SameOutcome (host : Host) (insn : Word) (s s' : Machine) : Prop :=
  ∃ o, Yields host insn s o ∧ Yields host insn s' o

/-- The operands of a modular word are congruent. -/
structure ModularCongruent (insn : Word) (s s' : Machine) (entry : ModulusEntry) : Prop where
  table : s.handler.moduli[tableIdx insn]? = some entry
  table' : s'.handler.moduli[tableIdx insn]? = some entry
  left : leftOperand insn s entry.limbBytes ≡ leftOperand insn s' entry.limbBytes
    [MOD entry.modulus]
  right : rightOperand insn s entry.limbBytes ≡ rightOperand insn s' entry.limbBytes
    [MOD entry.modulus]

/-- The operands of a complex word are congruent in both components. -/
structure ComplexCongruent (insn : Word) (s s' : Machine) (entry : ModulusEntry) : Prop where
  table : s.handler.complex[tableIdx insn]? = some entry
  table' : s'.handler.complex[tableIdx insn]? = some entry
  left1 : (leftPair insn s entry.limbBytes).1 ≡ (leftPair insn s' entry.limbBytes).1
    [MOD entry.modulus]
  left2 : (leftPair insn s entry.limbBytes).2 ≡ (leftPair insn s' entry.limbBytes).2
    [MOD entry.modulus]
  right1 : (rightPair insn s entry.limbBytes).1 ≡ (rightPair insn s' entry.limbBytes).1
    [MOD entry.modulus]
  right2 : (rightPair insn s entry.limbBytes).2 ≡ (rightPair insn s' entry.limbBytes).2
    [MOD entry.modulus]

/-! ### What congruence asks of a word -/

/-- A modular word respects congruence, and SUB stores the canonical difference. -/
structure ModularRespects (host : Host) (insn : Word) (s s' : Machine) (entry : ModulusEntry) :
    Prop where
  same : SameOutcome host insn s s'
  sub : tableOp insn = MOD_SUB → ∃ r < entry.modulus,
    r + rightOperand insn s entry.limbBytes ≡ leftOperand insn s entry.limbBytes
      [MOD entry.modulus] ∧ Writes host insn s entry.limbBytes r

/-- A complex word respects congruence, SUB stores the canonical difference, and DIV by an
element whose norm is not zero the canonical quotient. -/
structure ComplexRespects (host : Host) (insn : Word) (s s' : Machine) (entry : ModulusEntry) :
    Prop where
  same : SameOutcome host insn s s'
  sub : tableOp insn = MOD_SUB →
    let a := leftPair insn s entry.limbBytes
    let b := rightPair insn s entry.limbBytes
    ∃ r : Pair, r.1 < entry.modulus ∧ r.2 < entry.modulus ∧
      r.1 + b.1 ≡ a.1 [MOD entry.modulus] ∧ r.2 + b.2 ≡ a.2 [MOD entry.modulus] ∧
      WritesPair host insn s entry.limbBytes r
  div : tableOp insn = MOD_DIV →
    let a := leftPair insn s entry.limbBytes
    let b := rightPair insn s entry.limbBytes
    ¬entry.modulus ∣ b.1 * b.1 + b.2 * b.2 →
    ∃ r : Pair, r.1 < entry.modulus ∧ r.2 < entry.modulus ∧
      r.1 * b.1 ≡ a.1 + r.2 * b.2 [MOD entry.modulus] ∧
      r.1 * b.2 + r.2 * b.1 ≡ a.2 [MOD entry.modulus] ∧
      WritesPair host insn s entry.limbBytes r

/-- The operands a modular operation panics on. -/
def ModularUnderflows (op : Word) (p a b : ℕ) : Prop := op = MOD_SUB ∧ p + a < b

/-! ### Residues -/

section Residues
variable {p : ℕ}

theorem val_sub_add_modEq [NeZero p] (a b : ℕ) : ((a : ZMod p) - b).val + b ≡ a [MOD p] := by
  rw [← ZMod.natCast_eq_natCast_iff, Nat.cast_add, ZMod.natCast_zmod_val]
  exact sub_add_cancel _ _

theorem toFq2_congr {a b : Pair} (h1 : a.1 ≡ b.1 [MOD p]) (h2 : a.2 ≡ b.2 [MOD p]) :
    a.toFq2 p = b.toFq2 p := by
  ext
  · exact (ZMod.natCast_eq_natCast_iff _ _ p).mpr h1
  · exact (ZMod.natCast_eq_natCast_iff _ _ p).mpr h2

theorem pairOfFq2_lt [NeZero p] (x : Ark.Fq2 p) : (pairOfFq2 x).1 < p ∧ (pairOfFq2 x).2 < p :=
  ⟨ZMod.val_lt x.re, ZMod.val_lt x.im⟩

/-- A product of pairs, component by component, without subtractions. -/
theorem modEq_of_mul_eq [NeZero p] {r a b : Pair} (h : r.toFq2 p * b.toFq2 p = a.toFq2 p) :
    r.1 * b.1 ≡ a.1 + r.2 * b.2 [MOD p] ∧ r.1 * b.2 + r.2 * b.1 ≡ a.2 [MOD p] := by
  have hre := congrArg QuadraticAlgebra.re h
  have him := congrArg QuadraticAlgebra.im h
  rw [QuadraticAlgebra.re_mul] at hre
  rw [QuadraticAlgebra.im_mul] at him
  simp only [Pair.toFq2_re, Pair.toFq2_im] at hre him
  rw [← ZMod.natCast_eq_natCast_iff, ← ZMod.natCast_eq_natCast_iff]
  push_cast
  constructor
  · linear_combination hre
  · linear_combination him

end Residues

/-! ### The modular table -/

section Modular
variable {host : Host} {insn : Word} {s s' : Machine} {entry : ModulusEntry}

theorem modularRespects (hp : entry.modulus.Prime)
    (hlt : entry.modulus < 256 ^ entry.limbBytes) (h1 : IsCustom1 insn F3_MODULAR)
    (hop : IsFieldOp (tableOp insn)) (hc : ModularCongruent insn s s' entry)
    (hs : ¬ModularUnderflows (tableOp insn) entry.modulus
      (leftOperand insn s entry.limbBytes) (rightOperand insn s entry.limbBytes))
    (hs' : ¬ModularUnderflows (tableOp insn) entry.modulus
      (leftOperand insn s' entry.limbBytes) (rightOperand insn s' entry.limbBytes)) :
    ModularRespects host insn s s' entry := by
  have : Fact entry.modulus.Prime := ⟨hp⟩
  have hy := modular_yields host h1 hc.table rfl hop hs
  have hy' := modular_yields host h1 hc.table' rfl hop hs'
  have hleft := (ZMod.natCast_eq_natCast_iff _ _ _).mpr hc.left
  have hright := (ZMod.natCast_eq_natCast_iff _ _ _).mpr hc.right
  refine ⟨⟨_, hy, ?_⟩, fun hsub => ⟨_, ZMod.val_lt _, val_sub_add_modEq _ _, ?_⟩⟩
  · rw [hleft, hright]
    exact hy'
  · rw [hsub] at hy
    exact writes_of_stored ((ZMod.val_lt _).trans hlt) hy

end Modular

/-! ### The complex table -/

section Complex
variable {host : Host} {insn : Word} {s s' : Machine} {entry : ModulusEntry}

theorem complexRespects (hp : entry.modulus.Prime)
    (hlt : entry.modulus < 256 ^ entry.limbBytes) (h1 : IsCustom1 insn F3_COMPLEX)
    (hop : IsFieldOp (tableOp insn)) (hc : ComplexCongruent insn s s' entry)
    (hs : ¬ComplexUnderflows (tableOp insn) entry.modulus
      (leftPair insn s entry.limbBytes) (rightPair insn s entry.limbBytes))
    (hs' : ¬ComplexUnderflows (tableOp insn) entry.modulus
      (leftPair insn s' entry.limbBytes) (rightPair insn s' entry.limbBytes)) :
    ComplexRespects host insn s s' entry := by
  have : Fact entry.modulus.Prime := ⟨hp⟩
  have hy := complex_yields host h1 hc.table rfl hop hs
  have hy' := complex_yields host h1 hc.table' rfl hop hs'
  have hleft := toFq2_congr hc.left1 hc.left2
  have hright := toFq2_congr hc.right1 hc.right2
  refine ⟨⟨_, hy, ?_⟩, fun hsub => ?_, fun hdiv => ?_⟩
  · rw [hleft, hright]
    exact hy'
  · intro a b
    obtain ⟨hr1, hr2⟩ := pairOfFq2_lt (a.toFq2 entry.modulus - b.toFq2 entry.modulus)
    rw [hsub] at hy
    exact ⟨_, hr1, hr2, val_sub_add_modEq _ _, val_sub_add_modEq _ _,
      writesPair_of_stored (hr1.trans hlt) (hr2.trans hlt) hy⟩
  · intro a b hnorm
    have hb := mt (norm_eq_zero_iff b).mp hnorm
    have hmul : (pairOfFq2 (quotient (a.toFq2 entry.modulus) (b.toFq2 entry.modulus))).toFq2
        entry.modulus * b.toFq2 entry.modulus = a.toFq2 entry.modulus := by
      rw [toFq2_pairOfFq2, quotient_mul hb]
    obtain ⟨hre, him⟩ := modEq_of_mul_eq hmul
    obtain ⟨hr1, hr2⟩ := pairOfFq2_lt (quotient (a.toFq2 entry.modulus) (b.toFq2 entry.modulus))
    rw [hdiv] at hy
    have hst : Yields host insn s (if QuadraticAlgebra.norm (b.toFq2 entry.modulus) = 0 then _
      else _) := hy
    rw [if_neg hb] at hst
    exact ⟨_, hr1, hr2, hre, him, writesPair_of_stored (hr1.trans hlt) (hr2.trans hlt) hst⟩

end Complex

/-! ### Congruence -/

/-- **Congruent operands.** On two machines with congruent operands the modular and the complex
ADD, SUB, MUL, DIV and ISEQ end in the same way, SUB stores the canonical difference and the
complex DIV the canonical quotient, and none of them panics, exactly if the word underflows on
neither machine. -/
theorem congruence_iff (host : Host) (insn : Word) (s s' : Machine) {entry : ModulusEntry}
    (hp : entry.modulus.Prime) (hlt : entry.modulus < 256 ^ entry.limbBytes)
    (hop : IsFieldOp (tableOp insn)) :
    (IsCustom1 insn F3_MODULAR → ModularCongruent insn s s' entry →
      (ModularRespects host insn s s' entry ↔
        ¬ModularUnderflows (tableOp insn) entry.modulus (leftOperand insn s entry.limbBytes)
          (rightOperand insn s entry.limbBytes) ∧
        ¬ModularUnderflows (tableOp insn) entry.modulus (leftOperand insn s' entry.limbBytes)
          (rightOperand insn s' entry.limbBytes))) ∧
    (IsCustom1 insn F3_COMPLEX → ComplexCongruent insn s s' entry →
      (ComplexRespects host insn s s' entry ↔
        ¬ComplexUnderflows (tableOp insn) entry.modulus (leftPair insn s entry.limbBytes)
          (rightPair insn s entry.limbBytes) ∧
        ¬ComplexUnderflows (tableOp insn) entry.modulus (leftPair insn s' entry.limbBytes)
          (rightPair insn s' entry.limbBytes))) := by
  have : Fact entry.modulus.Prime := ⟨hp⟩
  constructor
  · intro h1 hc
    refine ⟨fun h => ?_, fun h => modularRespects hp hlt h1 hop hc h.1 h.2⟩
    obtain ⟨o, ho, ho'⟩ := h.same
    exact ⟨fun hu => modular_not_yields h1 hc.table hu.1 hu.2 o ho,
      fun hu => modular_not_yields h1 hc.table' hu.1 hu.2 o ho'⟩
  · intro h1 hc
    refine ⟨fun h => ?_, fun h => complexRespects hp hlt h1 hop hc h.1 h.2⟩
    obtain ⟨o, ho, ho'⟩ := h.same
    exact ⟨fun hu => complex_not_yields h1 hc.table rfl hu o ho,
      fun hu => complex_not_yields h1 hc.table' rfl hu o ho'⟩

/-- SUB of the operand at `[x1]` from the operand at address zero, modulo the first entry of the
default table. -/
def subWord : Word := MOD_SUB <<< 25 ||| 1#32 <<< 20 ||| F3_MODULAR <<< 12 ||| OPCODE_CUSTOM_1

/-- A machine with zero at address zero and `b` at `[x1]`. -/
def subMachine (b : ℕ) : Machine :=
  (Sim.blank.setReg 1#5 256#32).store 256#32 (BigUint.bytesLe b 32)

theorem leftOperand_subMachine (b : ℕ) : leftOperand subWord (subMachine b) 32 = 0 := by
  have hapart : Apart 32 256#32 0#32 := by unfold Apart; decide
  have hptr : (subMachine b).cpu.readReg (rs1 subWord) = 0#32 := rfl
  rw [leftOperand, hptr, subMachine, readLe_store_of_apart _ (BigUint.length_bytesLe b 32) hapart]
  decide

theorem rightOperand_subMachine {b : ℕ} (h : b < 256 ^ 32) :
    rightOperand subWord (subMachine b) 32 = b := by
  have hptr : (subMachine b).cpu.readReg (rs2 subWord) = 256#32 := rfl
  rw [rightOperand, hptr, subMachine, readLe_store _ _ (BigUint.length_bytesLe b 32) (by decide),
    toNat_bytesLe h]

theorem subMachine_congruent {b b' : ℕ} (h : b < 256 ^ 32) (h' : b' < 256 ^ 32)
    (hmod : b ≡ b' [MOD bn254Fp]) :
    ModularCongruent subWord (subMachine b) (subMachine b') bn254FpEntry where
  table := rfl
  table' := rfl
  left := by
    show leftOperand subWord (subMachine b) 32 ≡ leftOperand subWord (subMachine b') 32
      [MOD bn254Fp]
    rw [leftOperand_subMachine, leftOperand_subMachine]
  right := by
    show rightOperand subWord (subMachine b) 32 ≡ rightOperand subWord (subMachine b') 32
      [MOD bn254Fp]
    rw [rightOperand_subMachine h, rightOperand_subMachine h']
    exact hmod

theorem subMachine_underflows {b : ℕ} (h : b < 256 ^ 32) :
    ModularUnderflows (tableOp subWord) bn254Fp (leftOperand subWord (subMachine b) 32)
      (rightOperand subWord (subMachine b) 32) ↔ bn254Fp < b := by
  rw [leftOperand_subMachine, rightOperand_subMachine h]
  exact ⟨fun hu => hu.2, fun hlt => ⟨by decide, hlt⟩⟩

/-- The prime and zero, which are congruent, subtracted from zero. -/
theorem congruence_iff_sub :
    ModularRespects Host.constant subWord (subMachine bn254Fp) (subMachine 0) bn254FpEntry := by
  have hp : bn254Fp < 256 ^ 32 := by decide
  have hc := subMachine_congruent hp (by decide : 0 < 256 ^ 32) (Nat.mod_self bn254Fp)
  refine ((congruence_iff Host.constant subWord _ _ prime_bn254FpEntry hp (.inl (by decide))).1
    (by decide) hc).mpr ⟨fun hu => ?_, fun hu => ?_⟩
  · exact lt_irrefl _ ((subMachine_underflows hp).mp hu)
  · exact Nat.not_lt_zero _ ((subMachine_underflows (by decide)).mp hu)

/-- The successor of the prime and one are congruent, but only the one of them can be subtracted
from zero. -/
theorem sub_unreduced_panics : ¬∀ (host : Host) (insn : Word) (s s' : Machine)
    (entry : ModulusEntry), entry.modulus.Prime → entry.modulus ≠ 2 →
    entry.modulus < 256 ^ entry.limbBytes → IsCustom1 insn F3_MODULAR → IsFieldOp (tableOp insn) →
    ModularCongruent insn s s' entry → SameOutcome host insn s s' := by
  intro h
  have hp : bn254Fp + 1 < 256 ^ 32 := by decide
  have hc := subMachine_congruent hp (by decide : 1 < 256 ^ 32) (Nat.add_mod_left bn254Fp 1)
  have hu := (subMachine_underflows hp).mpr (Nat.lt_succ_self bn254Fp)
  obtain ⟨o, ho, -⟩ := h Host.constant subWord _ _ bn254FpEntry prime_bn254FpEntry
    (by decide) (Nat.lt_of_succ_lt hp) (by decide) (.inl (by decide)) hc
  exact modular_not_yields (by decide) hc.table hu.1 hu.2 o ho

end OpenvmSim.Precompiles
