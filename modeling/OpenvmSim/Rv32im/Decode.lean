import Mathlib.Data.Nat.Notation

/-! The RV32IM decoder: register fields and sign-extended immediates.

A `u32` is a `BitVec 32`, and `as i32` followed by `>>` is the arithmetic shift
`sshiftRight`. Register fields are masked to five bits in the source, so they are
`BitVec 5` here and no register number can index past the register file. -/
namespace OpenvmSim.Rv32im

abbrev Byte := BitVec 8
abbrev Word := BitVec 32
abbrev Reg := BitVec 5

def opcode (insn : Word) : Word := insn &&& 0x7f#32

def rd (insn : Word) : Reg := (insn >>> 7 &&& 0x1f#32).setWidth 5

def funct3 (insn : Word) : Word := insn >>> 12 &&& 0x7#32

def rs1 (insn : Word) : Reg := (insn >>> 15 &&& 0x1f#32).setWidth 5

def rs2 (insn : Word) : Reg := (insn >>> 20 &&& 0x1f#32).setWidth 5

def funct7 (insn : Word) : Word := insn >>> 25 &&& 0x7f#32

/-- I-type imm[11:0] sign-extended to u32. -/
def immI (insn : Word) : Word := insn.sshiftRight 20

/-- S-type imm[11:0] sign-extended. -/
def immS (insn : Word) : Word :=
  let upper := insn.sshiftRight 25 -- sign-extends bits[31:25]
  let lower := insn >>> 7 &&& 0x1f#32
  upper <<< 5 ||| lower

/-- B-type imm[12:1] sign-extended (bit 0 is always 0). -/
def immB (insn : Word) : Word :=
  let sign := insn.sshiftRight 31 -- -1 or 0
  let bit11 := insn >>> 7 &&& 1#32
  let bits10_5 := insn >>> 25 &&& 0x3f#32
  let bits4_1 := insn >>> 8 &&& 0xf#32
  sign <<< 12 ||| bit11 <<< 11 ||| bits10_5 <<< 5 ||| bits4_1 <<< 1

/-- U-type imm[31:12] left in place (low 12 bits zero). -/
def immU (insn : Word) : Word := insn &&& 0xfffff000#32

/-- J-type imm[20:1] sign-extended (bit 0 is always 0). -/
def immJ (insn : Word) : Word :=
  let sign := insn.sshiftRight 31
  let bits19_12 := insn >>> 12 &&& 0xff#32
  let bit11 := insn >>> 20 &&& 1#32
  let bits10_1 := insn >>> 21 &&& 0x3ff#32
  sign <<< 20 ||| bits19_12 <<< 12 ||| bit11 <<< 11 ||| bits10_1 <<< 1

/-- Shift amount for SLLI/SRLI/SRAI (low 5 bits of rs2 field). -/
def shamt (insn : Word) : Word := (rs2 insn).setWidth 32 &&& 0x1f#32

def OPCODE_LUI : Word := 0b0110111#32
def OPCODE_AUIPC : Word := 0b0010111#32
def OPCODE_JAL : Word := 0b1101111#32
def OPCODE_JALR : Word := 0b1100111#32
def OPCODE_BRANCH : Word := 0b1100011#32
def OPCODE_LOAD : Word := 0b0000011#32
def OPCODE_STORE : Word := 0b0100011#32
def OPCODE_OP_IMM : Word := 0b0010011#32
def OPCODE_OP : Word := 0b0110011#32
def OPCODE_MISC_MEM : Word := 0b0001111#32
def OPCODE_SYSTEM : Word := 0b1110011#32
def OPCODE_CUSTOM_0 : Word := 0b0001011#32
def OPCODE_CUSTOM_1 : Word := 0b0101011#32

/-! ### Field ranges -/

theorem funct3_lt (insn : Word) : (funct3 insn).toNat < 8 := by
  have h : (funct3 insn).toNat ≤ (0x7#32).toNat := by
    rw [funct3, BitVec.toNat_and]
    exact Nat.and_le_right
  exact Nat.lt_succ_of_le h

end OpenvmSim.Rv32im
