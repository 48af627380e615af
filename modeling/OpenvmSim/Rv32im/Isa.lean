import Mathlib.Algebra.Group.Int.Defs
import Mathlib.Algebra.Group.Nat.Defs
import Mathlib.Logic.Function.Basic
import OpenvmSim.Rv32im.Decode

/-! The RV32IM unprivileged instruction set, stated on its own.

Nothing here is taken from the interpreter. Instructions are decoded from the
fields of the RISC-V base formats, immediates are the concatenated field bits and
are sign-extended where the format says so, and what an instruction computes is
stated on the integers its operands denote. Memory is a function from addresses
to bytes; an access of any alignment touches consecutive addresses modulo 2^32. -/
namespace OpenvmSim.Isa
open Rv32im (Byte Word Reg)

inductive BranchOp where
  | beq | bne | blt | bge | bltu | bgeu
  deriving DecidableEq

inductive LoadOp where
  | lb | lh | lw | lbu | lhu
  deriving DecidableEq

inductive StoreOp where
  | sb | sh | sw
  deriving DecidableEq

inductive ImmOp where
  | addi | slti | sltiu | xori | ori | andi
  deriving DecidableEq

inductive ShiftOp where
  | slli | srli | srai
  deriving DecidableEq

inductive RegOp where
  | add | sub | sll | slt | sltu | xor | srl | sra | or | and
  | mul | mulh | mulhsu | mulhu | div | divu | rem | remu
  deriving DecidableEq

/-- An instruction with its operand fields. -/
inductive Instr where
  | lui (rd : Reg) (imm : BitVec 20)
  | auipc (rd : Reg) (imm : BitVec 20)
  | jal (rd : Reg) (imm : BitVec 21)
  | jalr (rd rs1 : Reg) (imm : BitVec 12)
  | branch (op : BranchOp) (rs1 rs2 : Reg) (imm : BitVec 13)
  | load (op : LoadOp) (rd rs1 : Reg) (imm : BitVec 12)
  | store (op : StoreOp) (rs1 rs2 : Reg) (imm : BitVec 12)
  | opImm (op : ImmOp) (rd rs1 : Reg) (imm : BitVec 12)
  | shift (op : ShiftOp) (rd rs1 : Reg) (shamt : BitVec 5)
  | opReg (op : RegOp) (rd rs1 rs2 : Reg)
  | fence
  | ecall
  | ebreak
  deriving DecidableEq

/-! ### Fields of the base formats -/

section Fields
variable (w : Word)

def majorOpcode : BitVec 7 := w.extractLsb' 0 7
def rdField : Reg := w.extractLsb' 7 5
def funct3Field : BitVec 3 := w.extractLsb' 12 3
def rs1Field : Reg := w.extractLsb' 15 5
def rs2Field : Reg := w.extractLsb' 20 5
def funct7Field : BitVec 7 := w.extractLsb' 25 7
def iImm : BitVec 12 := w.extractLsb' 20 12
def sImm : BitVec 12 := w.extractLsb' 25 7 ++ w.extractLsb' 7 5
def bImm : BitVec 13 :=
  w.extractLsb' 31 1 ++ w.extractLsb' 7 1 ++ w.extractLsb' 25 6 ++ w.extractLsb' 8 4 ++ 0#1
def uImm : BitVec 20 := w.extractLsb' 12 20
def jImm : BitVec 21 :=
  w.extractLsb' 31 1 ++ w.extractLsb' 12 8 ++ w.extractLsb' 20 1 ++ w.extractLsb' 21 10 ++ 0#1

end Fields

/-! ### Decoding -/

def branchOp : BitVec 3 → Option BranchOp
  | 0b000#3 => some .beq
  | 0b001#3 => some .bne
  | 0b100#3 => some .blt
  | 0b101#3 => some .bge
  | 0b110#3 => some .bltu
  | 0b111#3 => some .bgeu
  | _ => none

def loadOp : BitVec 3 → Option LoadOp
  | 0b000#3 => some .lb
  | 0b001#3 => some .lh
  | 0b010#3 => some .lw
  | 0b100#3 => some .lbu
  | 0b101#3 => some .lhu
  | _ => none

def storeOp : BitVec 3 → Option StoreOp
  | 0b000#3 => some .sb
  | 0b001#3 => some .sh
  | 0b010#3 => some .sw
  | _ => none

def immOp : BitVec 3 → Option ImmOp
  | 0b000#3 => some .addi
  | 0b010#3 => some .slti
  | 0b011#3 => some .sltiu
  | 0b100#3 => some .xori
  | 0b110#3 => some .ori
  | 0b111#3 => some .andi
  | _ => none

def shiftOp : BitVec 3 → BitVec 7 → Option ShiftOp
  | 0b001#3, 0b0000000#7 => some .slli
  | 0b101#3, 0b0000000#7 => some .srli
  | 0b101#3, 0b0100000#7 => some .srai
  | _, _ => none

def regOp : BitVec 7 → BitVec 3 → Option RegOp
  | 0b0000000#7, 0b000#3 => some .add
  | 0b0100000#7, 0b000#3 => some .sub
  | 0b0000000#7, 0b001#3 => some .sll
  | 0b0000000#7, 0b010#3 => some .slt
  | 0b0000000#7, 0b011#3 => some .sltu
  | 0b0000000#7, 0b100#3 => some .xor
  | 0b0000000#7, 0b101#3 => some .srl
  | 0b0100000#7, 0b101#3 => some .sra
  | 0b0000000#7, 0b110#3 => some .or
  | 0b0000000#7, 0b111#3 => some .and
  | 0b0000001#7, 0b000#3 => some .mul
  | 0b0000001#7, 0b001#3 => some .mulh
  | 0b0000001#7, 0b010#3 => some .mulhsu
  | 0b0000001#7, 0b011#3 => some .mulhu
  | 0b0000001#7, 0b100#3 => some .div
  | 0b0000001#7, 0b101#3 => some .divu
  | 0b0000001#7, 0b110#3 => some .rem
  | 0b0000001#7, 0b111#3 => some .remu
  | _, _ => none

/-- The RV32IM instruction a word encodes, if it encodes one. FENCE is a MISC-MEM
word with funct3 = 0 whatever its other fields are, as the base ISA asks of
implementations; ECALL and EBREAK are single words. -/
def decode (w : Word) : Option Instr :=
  match majorOpcode w with
  | 0b0110111#7 => some (.lui (rdField w) (uImm w))
  | 0b0010111#7 => some (.auipc (rdField w) (uImm w))
  | 0b1101111#7 => some (.jal (rdField w) (jImm w))
  | 0b1100111#7 =>
    if funct3Field w = 0#3 then some (.jalr (rdField w) (rs1Field w) (iImm w)) else none
  | 0b1100011#7 => (branchOp (funct3Field w)).map (.branch · (rs1Field w) (rs2Field w) (bImm w))
  | 0b0000011#7 => (loadOp (funct3Field w)).map (.load · (rdField w) (rs1Field w) (iImm w))
  | 0b0100011#7 => (storeOp (funct3Field w)).map (.store · (rs1Field w) (rs2Field w) (sImm w))
  | 0b0010011#7 =>
    match immOp (funct3Field w) with
    | some op => some (.opImm op (rdField w) (rs1Field w) (iImm w))
    | none =>
      (shiftOp (funct3Field w) (funct7Field w)).map (.shift · (rdField w) (rs1Field w) (rs2Field w))
  | 0b0110011#7 =>
    (regOp (funct7Field w) (funct3Field w)).map (.opReg · (rdField w) (rs1Field w) (rs2Field w))
  | 0b0001111#7 => if funct3Field w = 0#3 then some .fence else none
  | 0b1110011#7 =>
    if w = 0x00000073#32 then some .ecall else if w = 0x00100073#32 then some .ebreak else none
  | _ => none

/-! ### Architectural state -/

structure ArchState where
  pc : Word
  regs : Reg → Word
  mem : Word → Byte

namespace ArchState

/-- x0 always reads zero. -/
def read (s : ArchState) (r : Reg) : Word := if r = 0#5 then 0#32 else s.regs r

/-- x0 is never written. -/
def write (s : ArchState) (r : Reg) (v : Word) : ArchState :=
  if r = 0#5 then s else { s with regs := Function.update s.regs r v }

/-- The little-endian value of `n` bytes from `addr` on. -/
def loadNat (s : ArchState) (addr : Word) : ℕ → ℕ
  | 0 => 0
  | n + 1 => (s.mem addr).toNat + 256 * s.loadNat (addr + 1#32) n

/-- The `n` low bytes of `v`, stored from `addr` on. -/
def store (s : ArchState) (addr : Word) (n : ℕ) (v : Word) : ArchState :=
  { s with mem := fun x =>
      if (x - addr).toNat < n then v.extractLsb' (8 * (x - addr).toNat) 8 else s.mem x }

/-- The word the program counter points at. -/
def fetch (s : ArchState) : Word := BitVec.ofNat 32 (s.loadNat s.pc 4)

def next (s : ArchState) : ArchState := { s with pc := s.pc + 4#32 }

end ArchState

/-! ### What instructions compute -/

def BranchOp.taken (a b : Word) : BranchOp → Bool
  | .beq => a = b
  | .bne => a ≠ b
  | .blt => a.toInt < b.toInt
  | .bge => b.toInt ≤ a.toInt
  | .bltu => a.toNat < b.toNat
  | .bgeu => b.toNat ≤ a.toNat

def LoadOp.value (s : ArchState) (addr : Word) : LoadOp → Word
  | .lb => (BitVec.ofNat 8 (s.loadNat addr 1)).signExtend 32
  | .lh => (BitVec.ofNat 16 (s.loadNat addr 2)).signExtend 32
  | .lw => BitVec.ofNat 32 (s.loadNat addr 4)
  | .lbu => BitVec.ofNat 32 (s.loadNat addr 1)
  | .lhu => BitVec.ofNat 32 (s.loadNat addr 2)

/-- The number of bytes a store writes. -/
def StoreOp.bytes : StoreOp → ℕ
  | .sb => 1
  | .sh => 2
  | .sw => 4

def ImmOp.value (a imm : Word) : ImmOp → Word
  | .addi => BitVec.ofInt 32 (a.toInt + imm.toInt)
  | .slti => if a.toInt < imm.toInt then 1#32 else 0#32
  | .sltiu => if a.toNat < imm.toNat then 1#32 else 0#32
  | .xori => a ^^^ imm
  | .ori => a ||| imm
  | .andi => a &&& imm

def ShiftOp.value (a : Word) (shamt : ℕ) : ShiftOp → Word
  | .slli => BitVec.ofNat 32 (a.toNat * 2 ^ shamt)
  | .srli => BitVec.ofNat 32 (a.toNat / 2 ^ shamt)
  | .srai => BitVec.ofInt 32 (a.toInt / 2 ^ shamt)

/-- The result of a register-register operation. Shifts use the five low bits of
`b`; `mulh`, `mulhsu` and `mulhu` are the upper half of the 64-bit product of the
signed or unsigned operands; division rounds towards zero, division by zero gives
all ones or the dividend, and the signed overflow `-2^31 / -1` gives the dividend
with remainder zero. -/
def RegOp.value (a b : Word) : RegOp → Word
  | .add => BitVec.ofInt 32 (a.toInt + b.toInt)
  | .sub => BitVec.ofInt 32 (a.toInt - b.toInt)
  | .sll => BitVec.ofNat 32 (a.toNat * 2 ^ (b.toNat % 32))
  | .slt => if a.toInt < b.toInt then 1#32 else 0#32
  | .sltu => if a.toNat < b.toNat then 1#32 else 0#32
  | .xor => a ^^^ b
  | .srl => BitVec.ofNat 32 (a.toNat / 2 ^ (b.toNat % 32))
  | .sra => BitVec.ofInt 32 (a.toInt / 2 ^ (b.toNat % 32))
  | .or => a ||| b
  | .and => a &&& b
  | .mul => BitVec.ofInt 32 (a.toInt * b.toInt)
  | .mulh => BitVec.ofInt 32 (a.toInt * b.toInt / 2 ^ 32)
  | .mulhsu => BitVec.ofInt 32 (a.toInt * b.toNat / 2 ^ 32)
  | .mulhu => BitVec.ofNat 32 (a.toNat * b.toNat / 2 ^ 32)
  | .div =>
    if b = 0#32 then BitVec.ofInt 32 (-1)
    else if a.toInt = -2 ^ 31 ∧ b.toInt = -1 then a
    else BitVec.ofInt 32 (a.toInt.tdiv b.toInt)
  | .divu => if b = 0#32 then BitVec.ofNat 32 (2 ^ 32 - 1) else BitVec.ofNat 32 (a.toNat / b.toNat)
  | .rem =>
    if b = 0#32 then a
    else if a.toInt = -2 ^ 31 ∧ b.toInt = -1 then 0#32
    else BitVec.ofInt 32 (a.toInt.tmod b.toInt)
  | .remu => if b = 0#32 then a else BitVec.ofNat 32 (a.toNat % b.toNat)

/-- What one instruction does to the architectural state. The link register of a
jump is written after its target is computed, so `rd = rs1` uses the old `rs1`.
ECALL and EBREAK raise an exception and have no next state of their own. -/
def Instr.exec (s : ArchState) : Instr → ArchState
  | .lui rd imm => (s.write rd (imm ++ 0#12)).next
  | .auipc rd imm => (s.write rd (s.pc + (imm ++ 0#12))).next
  | .jal rd imm => { s.write rd (s.pc + 4#32) with pc := s.pc + imm.signExtend 32 }
  | .jalr rd rs1 imm =>
    let target := s.read rs1 + imm.signExtend 32
    { s.write rd (s.pc + 4#32) with pc := target.extractLsb' 1 31 ++ 0#1 }
  | .branch op rs1 rs2 imm =>
    if op.taken (s.read rs1) (s.read rs2) then { s with pc := s.pc + imm.signExtend 32 } else s.next
  | .load op rd rs1 imm => (s.write rd (op.value s (s.read rs1 + imm.signExtend 32))).next
  | .store op rs1 rs2 imm => (s.store (s.read rs1 + imm.signExtend 32) op.bytes (s.read rs2)).next
  | .opImm op rd rs1 imm => (s.write rd (op.value (s.read rs1) (imm.signExtend 32))).next
  | .shift op rd rs1 shamt => (s.write rd (op.value (s.read rs1) shamt.toNat)).next
  | .opReg op rd rs1 rs2 => (s.write rd (op.value (s.read rs1) (s.read rs2))).next
  | .fence => s.next
  | .ecall => s
  | .ebreak => s

end OpenvmSim.Isa
