import Mathlib.Tactic.IntervalCases
import OpenvmSim.Rv32im.Refinement

/-! Assembling.

Every instruction has a word, put together from the fields of its format, and decoding that word
gives the instruction back. So the interpreter executes an assembled instruction as the
instruction set defines it (`step_assembled`), whatever its operands. -/
namespace OpenvmSim.Isa
open Rv32im (Word Reg)

/-! ### Words by their fields -/

/-- The word with the given bits 31 to 20, 19 to 15, 14 to 12, 11 to 7 and 6 to 0. -/
def layout (hi : BitVec 12) (rs1 : Reg) (f3 : BitVec 3) (rd : Reg) (op : BitVec 7) : Word :=
  hi ++ rs1 ++ f3 ++ rd ++ op

section Layout
variable (hi : BitVec 12) (rs1 : Reg) (f3 : BitVec 3) (rd : Reg) (op : BitVec 7)

@[simp] theorem majorOpcode_layout : majorOpcode (layout hi rs1 f3 rd op) = op := by
  unfold majorOpcode layout
  rw [BitVec.extractLsb'_append_eq_of_add_le (by decide), BitVec.extractLsb'_eq_self]

@[simp] theorem rdField_layout : rdField (layout hi rs1 f3 rd op) = rd := by
  unfold rdField layout
  rw [BitVec.extractLsb'_append_eq_of_le (by decide),
    BitVec.extractLsb'_append_eq_of_add_le (by decide)]
  exact BitVec.extractLsb'_eq_self

@[simp] theorem funct3Field_layout : funct3Field (layout hi rs1 f3 rd op) = f3 := by
  unfold funct3Field layout
  rw [BitVec.extractLsb'_append_eq_of_le (by decide),
    BitVec.extractLsb'_append_eq_of_le (by decide),
    BitVec.extractLsb'_append_eq_of_add_le (by decide)]
  exact BitVec.extractLsb'_eq_self

@[simp] theorem rs1Field_layout : rs1Field (layout hi rs1 f3 rd op) = rs1 := by
  unfold rs1Field layout
  rw [BitVec.extractLsb'_append_eq_of_le (by decide),
    BitVec.extractLsb'_append_eq_of_le (by decide),
    BitVec.extractLsb'_append_eq_of_le (by decide),
    BitVec.extractLsb'_append_eq_of_add_le (by decide)]
  exact BitVec.extractLsb'_eq_self

/-- The bits of the upper field. -/
theorem extract_layout {start len : ℕ} (h : 20 ≤ start) :
    (layout hi rs1 f3 rd op).extractLsb' start len = hi.extractLsb' (start - 20) len := by
  unfold layout
  rw [BitVec.extractLsb'_append_eq_of_le (by omega), BitVec.extractLsb'_append_eq_of_le (by omega),
    BitVec.extractLsb'_append_eq_of_le (by omega), BitVec.extractLsb'_append_eq_of_le (by omega)]
  congr 1

/-- The bits of the destination field. -/
theorem extract_rd {start len : ℕ} (h : 7 ≤ start) (hlen : start + len ≤ 12) :
    (layout hi rs1 f3 rd op).extractLsb' start len = rd.extractLsb' (start - 7) len := by
  unfold layout
  rw [BitVec.extractLsb'_append_eq_of_le (by omega),
    BitVec.extractLsb'_append_eq_of_add_le (by omega)]

@[simp] theorem iImm_layout : iImm (layout hi rs1 f3 rd op) = hi := by
  rw [iImm, extract_layout _ _ _ _ _ (by decide)]
  exact BitVec.extractLsb'_eq_self

end Layout

/-! ### The formats -/

def rType (f7 : BitVec 7) (rs2 rs1 : Reg) (f3 : BitVec 3) (rd : Reg) (op : BitVec 7) : Word :=
  layout (f7 ++ rs2) rs1 f3 rd op

def sType (imm : BitVec 12) (rs2 rs1 : Reg) (f3 : BitVec 3) (op : BitVec 7) : Word :=
  layout (imm.extractLsb' 5 7 ++ rs2) rs1 f3 (imm.extractLsb' 0 5) op

/-- Bit 0 of the offset is not encoded. -/
def bType (imm : BitVec 13) (rs2 rs1 : Reg) (f3 : BitVec 3) (op : BitVec 7) : Word :=
  layout (imm.extractLsb' 12 1 ++ imm.extractLsb' 5 6 ++ rs2) rs1 f3
    (imm.extractLsb' 1 4 ++ imm.extractLsb' 11 1) op

def uType (imm : BitVec 20) (rd : Reg) (op : BitVec 7) : Word :=
  layout (imm.extractLsb' 8 12) (imm.extractLsb' 3 5) (imm.extractLsb' 0 3) rd op

/-- Bit 0 of the offset is not encoded. -/
def jType (imm : BitVec 21) (rd : Reg) (op : BitVec 7) : Word :=
  uType (imm.extractLsb' 20 1 ++ imm.extractLsb' 1 10 ++ imm.extractLsb' 11 1 ++
    imm.extractLsb' 12 8) rd op

section Formats
variable (rs1 rs2 rd : Reg) (f3 : BitVec 3) (op : BitVec 7)

/-- Neighbouring bits put together again. -/
theorem extract_join {w : ℕ} (x : BitVec w) (a m n : ℕ) :
    x.extractLsb' (a + m) n ++ x.extractLsb' a m = x.extractLsb' a (n + m) :=
  BitVec.extractLsb'_append_extractLsb'_eq_extractLsb' rfl

@[simp] theorem funct7Field_layout (f7 : BitVec 7) :
    funct7Field (layout (f7 ++ rs2) rs1 f3 rd op) = f7 := by
  rw [funct7Field, extract_layout _ _ _ _ _ (by decide)]
  exact BitVec.extractLsb'_append_eq_left

/-- The lower bits of the upper field. -/
@[simp] theorem rs2Field_layout (x : BitVec 7) : rs2Field (layout (x ++ rs2) rs1 f3 rd op) = rs2 := by
  rw [rs2Field, extract_layout _ _ _ _ _ (by decide)]
  exact BitVec.extractLsb'_append_eq_right

theorem sImm_sType (imm : BitVec 12) : sImm (sType imm rs2 rs1 f3 op) = imm := by
  have hlow : (sType imm rs2 rs1 f3 op).extractLsb' 7 5 = imm.extractLsb' 0 5 :=
    rdField_layout _ _ _ _ _
  have hhigh : (sType imm rs2 rs1 f3 op).extractLsb' 25 7 = imm.extractLsb' 5 7 := by
    rw [sType, extract_layout _ _ _ _ _ (by decide)]
    exact BitVec.extractLsb'_append_eq_left
  rw [sImm, hlow, hhigh]
  exact (extract_join imm 0 5 7).trans BitVec.extractLsb'_eq_self

theorem bImm_bType {imm : BitVec 13} (heven : imm.extractLsb' 0 1 = 0#1) :
    bImm (bType imm rs2 rs1 f3 op) = imm := by
  have h31 : (bType imm rs2 rs1 f3 op).extractLsb' 31 1 = imm.extractLsb' 12 1 := by
    rw [bType, extract_layout _ _ _ _ _ (by decide), BitVec.extractLsb'_append_eq_of_le (by decide),
      BitVec.extractLsb'_append_eq_of_le (by decide)]
    exact BitVec.extractLsb'_eq_self
  have h25 : (bType imm rs2 rs1 f3 op).extractLsb' 25 6 = imm.extractLsb' 5 6 := by
    rw [bType, extract_layout _ _ _ _ _ (by decide), BitVec.extractLsb'_append_eq_of_le (by decide),
      BitVec.extractLsb'_append_eq_of_add_le (by decide)]
    exact BitVec.extractLsb'_eq_self
  have h7 : (bType imm rs2 rs1 f3 op).extractLsb' 7 1 = imm.extractLsb' 11 1 := by
    rw [bType, extract_rd _ _ _ _ _ (by decide) (by decide)]
    exact BitVec.extractLsb'_append_eq_right
  have h8 : (bType imm rs2 rs1 f3 op).extractLsb' 8 4 = imm.extractLsb' 1 4 := by
    rw [bType, extract_rd _ _ _ _ _ (by decide) (by decide)]
    exact BitVec.extractLsb'_append_eq_left
  -- the parts join from the top bit down
  have h11 : imm.extractLsb' 12 1 ++ imm.extractLsb' 11 1 = imm.extractLsb' 11 2 :=
    extract_join imm 11 1 1
  have h5 : imm.extractLsb' 11 2 ++ imm.extractLsb' 5 6 = imm.extractLsb' 5 8 :=
    extract_join imm 5 6 2
  have h1 : imm.extractLsb' 5 8 ++ imm.extractLsb' 1 4 = imm.extractLsb' 1 12 :=
    extract_join imm 1 4 8
  rw [bImm, h31, h25, h7, h8, ← heven, h11, h5, h1]
  exact (extract_join imm 0 1 12).trans BitVec.extractLsb'_eq_self

theorem uImm_uType (imm : BitVec 20) : uImm (uType imm rd op) = imm := by
  have hupper : uImm (uType imm rd op) =
      imm.extractLsb' 8 12 ++ imm.extractLsb' 3 5 ++ imm.extractLsb' 0 3 := by
    unfold uImm uType layout
    rw [BitVec.extractLsb'_append_eq_of_le (by decide), BitVec.extractLsb'_append_eq_of_le (by decide)]
    exact BitVec.extractLsb'_eq_self
  have h3 : imm.extractLsb' 8 12 ++ imm.extractLsb' 3 5 = imm.extractLsb' 3 17 :=
    extract_join imm 3 5 12
  rw [hupper, h3]
  exact (extract_join imm 0 3 17).trans BitVec.extractLsb'_eq_self

/-- Bits from 12 on are those of the upper immediate. -/
theorem extract_uImm (w : Word) {start len : ℕ} (h : 12 ≤ start) (hlen : start + len ≤ 32) :
    w.extractLsb' start len = (uImm w).extractLsb' (start - 12) len := by
  unfold uImm
  ext k hk
  simp only [BitVec.getElem_extractLsb', BitVec.getLsbD_extractLsb']
  rw [decide_eq_true (by omega), Bool.true_and]
  congr 1
  omega

theorem jImm_jType {imm : BitVec 21} (heven : imm.extractLsb' 0 1 = 0#1) :
    jImm (jType imm rd op) = imm := by
  have h31 : (jType imm rd op).extractLsb' 31 1 = imm.extractLsb' 20 1 := by
    rw [extract_uImm _ (by decide) (by decide), jType, uImm_uType,
      BitVec.extractLsb'_append_eq_of_le (by decide),
      BitVec.extractLsb'_append_eq_of_le (by decide),
      BitVec.extractLsb'_append_eq_of_le (by decide)]
    exact BitVec.extractLsb'_eq_self
  have h12 : (jType imm rd op).extractLsb' 12 8 = imm.extractLsb' 12 8 := by
    rw [extract_uImm _ (by decide) (by decide), jType, uImm_uType]
    exact BitVec.extractLsb'_append_eq_right
  have h20 : (jType imm rd op).extractLsb' 20 1 = imm.extractLsb' 11 1 := by
    rw [extract_uImm _ (by decide) (by decide), jType, uImm_uType,
      BitVec.extractLsb'_append_eq_of_le (by decide)]
    exact BitVec.extractLsb'_append_eq_right
  have h21 : (jType imm rd op).extractLsb' 21 10 = imm.extractLsb' 1 10 := by
    rw [extract_uImm _ (by decide) (by decide), jType, uImm_uType,
      BitVec.extractLsb'_append_eq_of_le (by decide),
      BitVec.extractLsb'_append_eq_of_le (by decide),
      BitVec.extractLsb'_append_eq_of_add_le (by decide)]
    exact BitVec.extractLsb'_eq_self
  have h12' : imm.extractLsb' 20 1 ++ imm.extractLsb' 12 8 = imm.extractLsb' 12 9 :=
    extract_join imm 12 8 1
  have h11 : imm.extractLsb' 12 9 ++ imm.extractLsb' 11 1 = imm.extractLsb' 11 10 :=
    extract_join imm 11 1 9
  have h1 : imm.extractLsb' 11 10 ++ imm.extractLsb' 1 10 = imm.extractLsb' 1 20 :=
    extract_join imm 1 10 10
  rw [jImm, h31, h12, h20, h21, ← heven, h12', h11, h1]
  exact (extract_join imm 0 1 20).trans BitVec.extractLsb'_eq_self

end Formats

/-! ### Encoding -/

def BranchOp.funct3 : BranchOp → BitVec 3
  | beq => 0b000#3
  | bne => 0b001#3
  | blt => 0b100#3
  | bge => 0b101#3
  | bltu => 0b110#3
  | bgeu => 0b111#3

def LoadOp.funct3 : LoadOp → BitVec 3
  | lb => 0b000#3
  | lh => 0b001#3
  | lw => 0b010#3
  | lbu => 0b100#3
  | lhu => 0b101#3

def StoreOp.funct3 : StoreOp → BitVec 3
  | sb => 0b000#3
  | sh => 0b001#3
  | sw => 0b010#3

def ImmOp.funct3 : ImmOp → BitVec 3
  | addi => 0b000#3
  | slti => 0b010#3
  | sltiu => 0b011#3
  | xori => 0b100#3
  | ori => 0b110#3
  | andi => 0b111#3

def ShiftOp.funct3 : ShiftOp → BitVec 3
  | slli => 0b001#3
  | srli | srai => 0b101#3

def ShiftOp.funct7 : ShiftOp → BitVec 7
  | slli | srli => 0b0000000#7
  | srai => 0b0100000#7

def RegOp.funct3 : RegOp → BitVec 3
  | add | sub | mul => 0b000#3
  | sll | mulh => 0b001#3
  | slt | mulhsu => 0b010#3
  | sltu | mulhu => 0b011#3
  | xor | div => 0b100#3
  | srl | sra | divu => 0b101#3
  | or | rem => 0b110#3
  | and | remu => 0b111#3

def RegOp.funct7 : RegOp → BitVec 7
  | sub | sra => 0b0100000#7
  | add | sll | slt | sltu | xor | srl | or | and => 0b0000000#7
  | mul | mulh | mulhsu | mulhu | div | divu | rem | remu => 0b0000001#7

/-- The word of an instruction. FENCE is the one that orders everything. -/
def encode : Instr → Word
  | .lui rd imm => uType imm rd 0b0110111#7
  | .auipc rd imm => uType imm rd 0b0010111#7
  | .jal rd imm => jType imm rd 0b1101111#7
  | .jalr rd rs1 imm => layout imm rs1 0b000#3 rd 0b1100111#7
  | .branch op rs1 rs2 imm => bType imm rs2 rs1 op.funct3 0b1100011#7
  | .load op rd rs1 imm => layout imm rs1 op.funct3 rd 0b0000011#7
  | .store op rs1 rs2 imm => sType imm rs2 rs1 op.funct3 0b0100011#7
  | .opImm op rd rs1 imm => layout imm rs1 op.funct3 rd 0b0010011#7
  | .shift op rd rs1 shamt => rType op.funct7 shamt rs1 op.funct3 rd 0b0010011#7
  | .opReg op rd rs1 rs2 => rType op.funct7 rs2 rs1 op.funct3 rd 0b0110011#7
  | .fence => 0x0FF0000F#32
  | .ecall => 0x00000073#32
  | .ebreak => 0x00100073#32

/-- Branches and jumps go to even offsets: their formats leave out bit 0. -/
def Instr.EvenOffset : Instr → Prop
  | .jal _ imm => imm.extractLsb' 0 1 = 0#1
  | .branch _ _ _ imm => imm.extractLsb' 0 1 = 0#1
  | _ => True

section Tables

@[simp] theorem branchOp_funct3 (op : BranchOp) : branchOp op.funct3 = some op := by
  cases op <;> rfl

@[simp] theorem loadOp_funct3 (op : LoadOp) : loadOp op.funct3 = some op := by
  cases op <;> rfl

@[simp] theorem storeOp_funct3 (op : StoreOp) : storeOp op.funct3 = some op := by
  cases op <;> rfl

@[simp] theorem immOp_funct3 (op : ImmOp) : immOp op.funct3 = some op := by
  cases op <;> rfl

/-- The shifts have the codes the other immediate operations leave out. -/
@[simp] theorem immOp_shift (op : ShiftOp) : immOp op.funct3 = none := by
  cases op <;> rfl

@[simp] theorem shiftOp_funct (op : ShiftOp) : shiftOp op.funct3 op.funct7 = some op := by
  cases op <;> rfl

@[simp] theorem regOp_funct (op : RegOp) : regOp op.funct7 op.funct3 = some op := by
  cases op <;> rfl

end Tables

/-- Decoding gives an assembled instruction back. -/
theorem decode_encode {i : Instr} (h : i.EvenOffset) : decode (encode i) = some i := by
  cases i with
  | lui rd imm | auipc rd imm =>
    simp [encode, decode, uImm_uType]
    simp [uType]
  | jal rd imm =>
    simp [encode, decode, jImm_jType _ _ h]
    simp [jType, uType]
  | jalr rd rs1 imm => simp [encode, decode]
  | branch op rs1 rs2 imm =>
    simp [encode, decode, bImm_bType _ _ _ _ h]
    simp [bType]
  | load op rd rs1 imm => simp [encode, decode]
  | store op rs1 rs2 imm =>
    simp [encode, decode, sImm_sType]
    simp [sType]
  | opImm op rd rs1 imm => simp [encode, decode]
  | shift op rd rs1 shamt => simp [encode, decode, rType, funct7Field_layout]
  | opReg op rd rs1 rs2 => simp [encode, decode, rType, funct7Field_layout]
  | fence => decide
  | ecall => decide
  | ebreak => decide

end OpenvmSim.Isa
