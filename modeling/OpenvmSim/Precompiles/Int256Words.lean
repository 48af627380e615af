import OpenvmSim.Precompiles.FieldWords
import OpenvmSim.Precompiles.Int256Arith

/-! INT256 words as operations on 256-bit numbers.

An INT256 word stores what `Int256.compute` makes of its two operands. The checked
arithmetic inside has the same result in a build with overflow checks and in one without
them: no intermediate leaves its type. -/
namespace OpenvmSim.Precompiles
open Rv32im

section Operands
variable (insn : Word) (s : Machine)

/-- The 256-bit operand at `[rs1]`. -/
def leftU256 : U256 := read32 s.cpu.mem (s.cpu.readReg (rs1 insn))

/-- The 256-bit operand at `[rs2]`. -/
def rightU256 : U256 := read32 s.cpu.mem (s.cpu.readReg (rs2 insn))

theorem toList_read32 (mem : Memory) (ptr : Word) :
    (read32 mem ptr).toList = mem.readVec ptr 32 := by
  rw [read32, Vector.toList_ofFn, Memory.readVec, List.range_eq_range']
  rfl

theorem value_leftU256 : Int256.value (leftU256 insn s) = leftOperand insn s 32 :=
  congrArg LittleEndian.toNat (toList_read32 _ _)

theorem value_rightU256 : Int256.value (rightU256 insn s) = rightOperand insn s 32 :=
  congrArg LittleEndian.toNat (toList_read32 _ _)

end Operands

namespace Int256

/-- A calculation has the result `r` in every build, with overflow checks and without. -/
def Computes (f : Host → Calc U256) (r : U256) : Prop := ∀ host, f host = .ok r

theorem value_injective {r r' : U256} (h : value r = value r') : r = r' := by
  have hl := LittleEndian.ofNat_toNat r.toList
  have hl' := LittleEndian.ofNat_toNat r'.toList
  rw [Vector.length_toList] at hl hl'
  apply Vector.toList_inj.mp
  rw [← hl, ← hl']
  exact congrArg (LittleEndian.ofNat 32) h

/-- The result is the same in every build if it has the same value in every build. -/
theorem computes_of_value {f : Host → Calc U256} {v : ℕ}
    (h : ∀ host, ∃ r, f host = .ok r ∧ value r = v) : ∃ r, Computes f r ∧ value r = v := by
  obtain ⟨r, -, hr⟩ := h Host.constant
  refine ⟨r, fun host => ?_, hr⟩
  obtain ⟨r', hf, hr'⟩ := h host
  rw [hf, value_injective (hr'.trans hr.symm)]

section Arithmetic
variable (a b : U256)

theorem add_computes : ∃ r, Computes (add · a b) r ∧ value r = (value a + value b) % 2 ^ 256 :=
  computes_of_value fun host => add_eq host a b

theorem sub_computes : ∃ r, Computes (sub · a b) r ∧
    value r = (((value a : ℤ) - value b) % 2 ^ 256).toNat := by
  refine computes_of_value fun host => ?_
  obtain ⟨r, hrun, hr⟩ := sub_eq host a b
  refine ⟨r, hrun, ?_⟩
  have hpow : (256 : ℤ) ^ 32 = 2 ^ 256 := by norm_num
  rw [← hpow, ← hr, Int.toNat_natCast]

theorem mul_computes : ∃ r, Computes (mul · a b) r ∧ value r = value a * value b % 2 ^ 256 :=
  computes_of_value fun host => mul_eq host a b

end Arithmetic

end Int256

/-! ### The words -/

section Words
variable {host : Host} {insn : Word} {s : Machine}

theorem int256_yields {r : U256} (h0 : IsCustom0 insn F3_INT256)
    (hr : Int256.compute host (funct7 insn) (leftU256 insn s) (rightU256 insn s) =
      .ok (some r)) : Yields host insn s (.stored r.toList) := by
  have hr' : Int256.compute host (funct7 insn) (read32 s.cpu.mem (s.cpu.readReg (rs1 insn)))
      (read32 s.cpu.mem (s.cpu.readReg (rs2 insn))) = .ok (some r) := hr
  refine handle_run_ok (calls_int256 h0) ?_
  simp only [handleInt256, EStateM.run_bind, EStateM.run_get, hr']
  rfl

/-- The word stores the 256-bit number `v`. -/
theorem writes_of_yields {r : U256} {v : ℕ} (h : Yields host insn s (.stored r.toList))
    (hv : Int256.value r = v) : Writes host insn s 32 v :=
  ⟨r.toList, Vector.length_toList, hv, h⟩

end Words

/-! ### Sum, difference and product -/

/-- The arithmetic words store the sum, the difference and the product modulo `2 ^ 256`, and
none of their intermediates overflows. -/
structure Int256Arithmetic (host : Host) (insn : Word) (s : Machine) : Prop where
  add : funct7 insn = INT256_ADD →
    Writes host insn s 32 ((leftOperand insn s 32 + rightOperand insn s 32) % 2 ^ 256)
  sub : funct7 insn = INT256_SUB → Writes host insn s 32
    (((leftOperand insn s 32 : ℤ) - rightOperand insn s 32) % 2 ^ 256).toNat
  mul : funct7 insn = INT256_MUL →
    Writes host insn s 32 (leftOperand insn s 32 * rightOperand insn s 32 % 2 ^ 256)
  addInRange : ∃ r, Int256.Computes (Int256.add · (leftU256 insn s) (rightU256 insn s)) r
  subInRange : ∃ r, Int256.Computes (Int256.sub · (leftU256 insn s) (rightU256 insn s)) r
  mulInRange : ∃ r, Int256.Computes (Int256.mul · (leftU256 insn s) (rightU256 insn s)) r

theorem int256_arithmetic (host : Host) (insn : Word) (s : Machine)
    (h0 : IsCustom0 insn F3_INT256) : Int256Arithmetic host insn s := by
  obtain ⟨sum, hadd, hsum⟩ := Int256.add_computes (leftU256 insn s) (rightU256 insn s)
  obtain ⟨diff, hsub, hdiff⟩ := Int256.sub_computes (leftU256 insn s) (rightU256 insn s)
  obtain ⟨prod, hmul, hprod⟩ := Int256.mul_computes (leftU256 insn s) (rightU256 insn s)
  rw [value_leftU256, value_rightU256] at hsum hdiff hprod
  refine ⟨fun hop => ?_, fun hop => ?_, fun hop => ?_, ⟨sum, hadd⟩, ⟨diff, hsub⟩, ⟨prod, hmul⟩⟩
  · refine writes_of_yields (int256_yields h0 ?_) hsum
    rw [hop]
    exact calc_map (hadd host)
  · refine writes_of_yields (int256_yields h0 ?_) hdiff
    rw [hop]
    exact calc_map (hsub host)
  · refine writes_of_yields (int256_yields h0 ?_) hprod
    rw [hop]
    exact calc_map (hmul host)

/-- INT256 SUB of the operand at `[x1]` from the one at address zero. -/
def int256SubWord : Word := INT256_SUB <<< 25 ||| 1#32 <<< 20 ||| F3_INT256 <<< 12 |||
  OPCODE_CUSTOM_0

/-- A machine with one at `[x1]`, and zero at address zero. -/
def borrowMachine : Machine := (Sim.blank.setReg 1#5 32#32).store 32#32 [1#8]

theorem int256_arithmetic_borrow :
    Writes Host.constant int256SubWord borrowMachine 32 (2 ^ 256 - 1) := by
  have h := (int256_arithmetic Host.constant int256SubWord borrowMachine (by decide)).sub
    (by decide)
  have hleft : leftOperand int256SubWord borrowMachine 32 = 0 := by decide
  have hright : rightOperand int256SubWord borrowMachine 32 = 1 := by decide
  rw [hleft, hright] at h
  exact h

end OpenvmSim.Precompiles
