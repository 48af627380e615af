import OpenvmSim.Base.Effect
import OpenvmSim.Elf.Program
import OpenvmSim.Rv32im.Memory

/-! RV32IM CPU state and instruction execution loop.

`&mut self` methods of the CPU are `CpuM` calls. A step may also change the
custom-op handler, so it is a `SimM` call, on a CPU together with a handler of any
type; `onCpu` runs a CPU call there. A Rust `Err` is `Stop.err`, a Rust panic is
`Stop.panic`. -/
namespace OpenvmSim.Rv32im

/-- Default top-of-stack — OpenVM's guest runtime expects a downward-growing
stack near the high end of the 32-bit address space. -/
def DEFAULT_STACK_TOP : Word := 0xfffffff0#32

inductive StepOutcome where
  /-- Continue execution. -/
  | «continue»
  /-- Custom opcode requested termination (TERMINATE syscall). -/
  | terminated (code : Word)
  deriving DecidableEq

inductive CpuError where
  | illegalInstruction (pc insn : Word)
  | eBreak (pc : Word)
  | eCall (pc : Word)
  | stepLimitExceeded (pc : Word)
  | customOp (message : String)
  deriving DecidableEq

structure Cpu where
  pc : Word
  /-- `x[0]` is hard-wired to zero by `readReg` and `writeReg`. -/
  x : Vector Word 32
  mem : Memory
  steps : ℕ

/-- A CPU and the handler its custom opcodes are delegated to. -/
structure Sim (H : Type) where
  cpu : Cpu
  handler : H

abbrev CpuM (α : Type) := EStateM (Stop CpuError) Cpu α

abbrev SimM (H α : Type) := EStateM (Stop CpuError) (Sim H) α

/-- A CPU call, run next to a handler. -/
def onCpu {H α : Type} (m : CpuM α) : SimM H α := focus Sim.cpu (fun s c => { s with cpu := c }) m

/-- Implemented by the precompiles. The executor delegates anything using opcode
0x0b or 0x2b here. -/
structure CustomOpHandler (H : Type) where
  handle : Word → SimM H StepOutcome

namespace Cpu

/-- Create a fresh CPU, load the program, set sp to `DEFAULT_STACK_TOP`. -/
def new (prog : Elf.LoadedProgram) : Cpu :=
  let mem := prog.segments.foldl (fun mem seg => mem.writeSlice seg.vaddr seg.data) Memory.new
  { pc := prog.entry
    x := (Vector.replicate 32 0#32).set 2 DEFAULT_STACK_TOP
    mem
    steps := 0 }

def readReg (cpu : Cpu) (r : Reg) : Word :=
  have hr := r.isLt
  if r = 0#5 then 0#32 else cpu.x[r.toNat]

def writeReg (cpu : Cpu) (r : Reg) (val : Word) : Cpu :=
  have hr := r.isLt
  if r = 0#5 then cpu else { cpu with x := cpu.x.set r.toNat val }

section Frames
variable (cpu : Cpu) (r : Reg) (val : Word)

@[simp] theorem pc_writeReg : (cpu.writeReg r val).pc = cpu.pc := by
  unfold writeReg
  split <;> rfl

@[simp] theorem mem_writeReg : (cpu.writeReg r val).mem = cpu.mem := by
  unfold writeReg
  split <;> rfl

@[simp] theorem steps_writeReg : (cpu.writeReg r val).steps = cpu.steps := by
  unfold writeReg
  split <;> rfl

theorem readReg_of_x {cpu cpu' : Cpu} (h : cpu'.x = cpu.x) : cpu'.readReg r = cpu.readReg r := by
  rw [readReg, readReg, h]

theorem readReg_writeReg_self (h : r ≠ 0#5) : (cpu.writeReg r val).readReg r = val := by
  unfold readReg writeReg
  rw [if_neg h, if_neg h]
  exact Vector.getElem_set_self r.isLt

theorem readReg_writeReg_ne {r' : Reg} (h : r' ≠ r) :
    (cpu.writeReg r val).readReg r' = cpu.readReg r' := by
  have hne : r.toNat ≠ r'.toNat := fun e => h (BitVec.eq_of_toNat_eq e.symm)
  unfold readReg writeReg
  split
  · rfl
  · split
    · rfl
    · exact Vector.getElem_set_ne r.isLt r'.isLt hne

end Frames

/-! ### The opcode groups -/

def execBranch (insn : Word) : CpuM Unit := do
  let cpu ← get
  let a := cpu.readReg (rs1 insn)
  let b := cpu.readReg (rs2 insn)
  let f3 := funct3 insn
  let taken ←
    if f3 = 0#32 then pure (a == b)           -- BEQ
    else if f3 = 1#32 then pure (a != b)      -- BNE
    else if f3 = 4#32 then pure (a.slt b)     -- BLT
    else if f3 = 5#32 then pure (b.sle a)     -- BGE
    else if f3 = 6#32 then pure (a.ult b)     -- BLTU
    else if f3 = 7#32 then pure (b.ule a)     -- BGEU
    else throw (.err (.illegalInstruction cpu.pc insn))
  set { cpu with pc := if taken then cpu.pc + immB insn else cpu.pc + 4#32 }

def execLoad (insn : Word) : CpuM Unit := do
  let cpu ← get
  let addr := cpu.readReg (rs1 insn) + immI insn
  let f3 := funct3 insn
  let val ←
    if f3 = 0#32 then pure ((cpu.mem.readU8 addr).signExtend 32)       -- LB
    else if f3 = 1#32 then pure ((cpu.mem.readU16 addr).signExtend 32) -- LH
    else if f3 = 2#32 then pure (cpu.mem.readU32 addr)                 -- LW
    else if f3 = 4#32 then pure ((cpu.mem.readU8 addr).setWidth 32)    -- LBU
    else if f3 = 5#32 then pure ((cpu.mem.readU16 addr).setWidth 32)   -- LHU
    else throw (.err (.illegalInstruction cpu.pc insn))
  set { cpu.writeReg (rd insn) val with pc := cpu.pc + 4#32 }

def execStore (insn : Word) : CpuM Unit := do
  let cpu ← get
  let addr := cpu.readReg (rs1 insn) + immS insn
  let val := cpu.readReg (rs2 insn)
  let f3 := funct3 insn
  let mem ←
    if f3 = 0#32 then pure (cpu.mem.writeU8 addr (val.setWidth 8))        -- SB
    else if f3 = 1#32 then pure (cpu.mem.writeU16 addr (val.setWidth 16)) -- SH
    else if f3 = 2#32 then pure (cpu.mem.writeU32 addr val)               -- SW
    else throw (.err (.illegalInstruction cpu.pc insn))
  set { cpu with mem, pc := cpu.pc + 4#32 }

def execOpImm (insn : Word) : CpuM Unit := do
  let cpu ← get
  let a := cpu.readReg (rs1 insn)
  let imm := immI insn
  let f3 := funct3 insn
  let val ←
    if f3 = 0#32 then pure (a + imm)                                    -- ADDI
    else if f3 = 2#32 then pure ((BitVec.ofBool (a.slt imm)).setWidth 32) -- SLTI
    else if f3 = 3#32 then pure ((BitVec.ofBool (a.ult imm)).setWidth 32) -- SLTIU
    else if f3 = 4#32 then pure (a ^^^ imm)                             -- XORI
    else if f3 = 6#32 then pure (a ||| imm)                             -- ORI
    else if f3 = 7#32 then pure (a &&& imm)                             -- ANDI
    else if f3 = 1#32 then pure (a <<< (shamt insn).toNat)              -- SLLI
    else if f3 = 5#32 then
      -- SRLI vs SRAI distinguished by funct7 bit 30
      let f7 := funct7 insn
      if f7 = 0#32 then pure (a >>> (shamt insn).toNat)
      else if f7 = 0x20#32 then pure (a.sshiftRight (shamt insn).toNat)
      else throw (.err (.illegalInstruction cpu.pc insn))
    else throw (.panic "funct3 is 3 bits")
  set { cpu.writeReg (rd insn) val with pc := cpu.pc + 4#32 }

def execOp (insn : Word) : CpuM Unit := do
  let cpu ← get
  let a := cpu.readReg (rs1 insn)
  let b := cpu.readReg (rs2 insn)
  let f3 := funct3 insn
  let f7 := funct7 insn
  let val ←
    -- Base integer
    if f7 = 0x00#32 ∧ f3 = 0#32 then pure (a + b)                                     -- ADD
    else if f7 = 0x20#32 ∧ f3 = 0#32 then pure (a - b)                                -- SUB
    else if f7 = 0x00#32 ∧ f3 = 1#32 then pure (a <<< (b &&& 0x1f#32).toNat)          -- SLL
    else if f7 = 0x00#32 ∧ f3 = 2#32 then pure ((BitVec.ofBool (a.slt b)).setWidth 32) -- SLT
    else if f7 = 0x00#32 ∧ f3 = 3#32 then pure ((BitVec.ofBool (a.ult b)).setWidth 32) -- SLTU
    else if f7 = 0x00#32 ∧ f3 = 4#32 then pure (a ^^^ b)                              -- XOR
    else if f7 = 0x00#32 ∧ f3 = 5#32 then pure (a >>> (b &&& 0x1f#32).toNat)          -- SRL
    else if f7 = 0x20#32 ∧ f3 = 5#32 then pure (a.sshiftRight (b &&& 0x1f#32).toNat)  -- SRA
    else if f7 = 0x00#32 ∧ f3 = 6#32 then pure (a ||| b)                              -- OR
    else if f7 = 0x00#32 ∧ f3 = 7#32 then pure (a &&& b)                              -- AND
    -- M extension (funct7 == 1)
    else if f7 = 0x01#32 ∧ f3 = 0#32 then pure (a * b)                                -- MUL
    else if f7 = 0x01#32 ∧ f3 = 1#32 then                                             -- MULH
      let s := a.signExtend 64 * b.signExtend 64
      pure ((s.sshiftRight 32).setWidth 32)
    else if f7 = 0x01#32 ∧ f3 = 2#32 then                                             -- MULHSU
      let s := a.signExtend 64 * b.setWidth 64
      pure ((s.sshiftRight 32).setWidth 32)
    else if f7 = 0x01#32 ∧ f3 = 3#32 then                                             -- MULHU
      let s := a.setWidth 64 * b.setWidth 64
      pure ((s >>> 32).setWidth 32)
    else if f7 = 0x01#32 ∧ f3 = 4#32 then                                             -- DIV
      if b = 0#32 then pure 0xffffffff#32
      else if a = 0x80000000#32 ∧ b = 0xffffffff#32 then pure 0x80000000#32
      else pure (a.sdiv b)
    else if f7 = 0x01#32 ∧ f3 = 5#32 then                                             -- DIVU
      if b = 0#32 then pure 0xffffffff#32
      else pure (a / b)
    else if f7 = 0x01#32 ∧ f3 = 6#32 then                                             -- REM
      if b = 0#32 then pure a
      else if a = 0x80000000#32 ∧ b = 0xffffffff#32 then pure 0#32
      else pure (a.srem b)
    else if f7 = 0x01#32 ∧ f3 = 7#32 then                                             -- REMU
      if b = 0#32 then pure a
      else pure (a % b)
    else throw (.err (.illegalInstruction cpu.pc insn))
  set { cpu.writeReg (rd insn) val with pc := cpu.pc + 4#32 }

/-! ### One step and the run loop -/

variable {H : Type}

/-- The instruction `insn` fetched from `pc`. -/
def exec (handler : CustomOpHandler H) (pc insn : Word) : SimM H StepOutcome :=
  let op := opcode insn
  if op = OPCODE_LUI then do
    onCpu (modify fun cpu => { cpu.writeReg (rd insn) (immU insn) with pc := pc + 4#32 })
    return .continue
  else if op = OPCODE_AUIPC then do
    onCpu (modify fun cpu => { cpu.writeReg (rd insn) (pc + immU insn) with pc := pc + 4#32 })
    return .continue
  else if op = OPCODE_JAL then do
    let target := pc + immJ insn
    onCpu (modify fun cpu => { cpu.writeReg (rd insn) (pc + 4#32) with pc := target })
    return .continue
  else if op = OPCODE_JALR then do
    onCpu (modify fun cpu =>
      let base := cpu.readReg (rs1 insn)
      let target := (base + immI insn) &&& ~~~1#32
      let link := pc + 4#32
      { cpu.writeReg (rd insn) link with pc := target })
    return .continue
  else if op = OPCODE_BRANCH then do
    onCpu (execBranch insn)
    return .continue
  else if op = OPCODE_LOAD then do
    onCpu (execLoad insn)
    return .continue
  else if op = OPCODE_STORE then do
    onCpu (execStore insn)
    return .continue
  else if op = OPCODE_OP_IMM then do
    onCpu (execOpImm insn)
    return .continue
  else if op = OPCODE_OP then do
    onCpu (execOp insn)
    return .continue
  else if op = OPCODE_MISC_MEM then do
    -- FENCE / FENCE.I — no-op in this in-order single-hart sim.
    onCpu (modify fun cpu => { cpu with pc := pc + 4#32 })
    return .continue
  else if op = OPCODE_SYSTEM then
    -- a raw ecall is unexpected here, OpenVM terminates through opcode 0x0b
    let f3 := funct3 insn
    let imm := immI insn &&& 0xfff#32
    if f3 = 0#32 ∧ imm = 0#32 then throw (.err (.eCall pc))
    else if f3 = 0#32 ∧ imm = 1#32 then throw (.err (.eBreak pc))
    else throw (.err (.illegalInstruction pc insn))
  else if op = OPCODE_CUSTOM_0 ∨ op = OPCODE_CUSTOM_1 then
    -- the executor does not auto-advance for custom opcodes
    handler.handle insn
  else throw (.err (.illegalInstruction pc insn))

/-- The instruction word at the pc. -/
def fetch (cpu : Cpu) : Word := cpu.mem.readU32 cpu.pc

/-- Execute exactly one instruction. -/
def step (handler : CustomOpHandler H) : SimM H StepOutcome := do
  let s ← get
  exec handler s.cpu.pc s.cpu.fetch

/-- `bound` more iterations of the loop of `run`. -/
def runLoop (handler : CustomOpHandler H) (maxSteps : ℕ) : ℕ → SimM H Word
  | 0 => throw .diverge
  | bound + 1 => do
    let s ← get
    if s.cpu.steps ≥ maxSteps then
      throw (.err (.stepLimitExceeded s.cpu.pc))
    else
      match ← step handler with
      | .continue => do
        onCpu (modify fun cpu => { cpu with steps := cpu.steps + 1 })
        runLoop handler maxSteps bound
      | .terminated code => return code

/-- Run until terminate, error, or `maxSteps` exceeded. Every iteration adds one
to `steps`, so a handler that leaves the counter alone is never cut off by the
bound. -/
def run (handler : CustomOpHandler H) (maxSteps : ℕ) : SimM H Word := do
  let s ← get
  runLoop handler maxSteps (maxSteps - s.cpu.steps + 1)

end Cpu

end OpenvmSim.Rv32im
