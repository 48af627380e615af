import OpenvmSim.Precompiles.Ecc
import OpenvmSim.Precompiles.Hashes
import OpenvmSim.Precompiles.Int256
import OpenvmSim.Precompiles.Pairing

/-! OpenVM custom-opcode dispatcher.

`customOps host` is the `CustomOpHandler` the runner gives to the interpreter. All
feature gates are on, as they are by default. Logging is left out. -/
namespace OpenvmSim.Precompiles
open Rv32im

/-! ### custom-0 -/

def deliverHint (dstPtr : Word) (total : ℕ) : HandlerM Unit := do
  let s ← get
  let (bs, rest) := IoState.readHintBytes total s.handler.io.hintStream
  setIo { s.handler.io with hintStream := rest }
  writeBytes dstPtr bs

def handleHint (insn : Word) : HandlerM Unit := do
  let s ← get
  -- imm = 0  → HINT_STOREW:  pop 4 bytes from hint_stream to [rd]
  -- imm = 1  → HINT_BUFFER:  pop 4*rs1 bytes from hint_stream to [rd]
  let imm := immI insn &&& 0xfff#32
  let dstPtr := s.cpu.readReg (rd insn)
  if imm = HINT_STOREW_IMM then deliverHint dstPtr 4
  else if imm = HINT_BUFFER_IMM then
    let lenWords := s.cpu.readReg (rs1 insn)
    deliverHint dstPtr (lenWords.toNat * 4)
  else customOp s!"unknown HINT imm 0x{hex imm} at pc=0x{hex8 s.cpu.pc}"

/-- rs1 = u32 value, rd = byte-offset into public output, imm = additional offset. -/
def handleReveal (insn : Word) : HandlerM Unit := do
  let s ← get
  let value := s.cpu.readReg (rs1 insn)
  let off := s.cpu.readReg (rd insn) + (immI insn &&& 0xfff#32)
  setIo (s.handler.io.writeOutput off.toNat (LittleEndian.ofNat 4 value.toNat))

/-- The text of a failed HintInput. -/
def hintInputError (pc : Word) (e : String) : String := s!"HintInput at pc=0x{hex8 pc}: {e}"

/-- PRINT_STR only logs, and so does every other phantom but HintInput. -/
def handlePhantom (insn : Word) : HandlerM Unit := do
  let s ← get
  let imm := immI insn &&& 0xfff#32
  if imm = PHANTOM_HINT_INPUT then
    match s.handler.io.hintInput with
    | .ok io => setIo io
    | .error e => customOp (hintInputError s.cpu.pc e)
  else pure ()

def handleHash (host : Host) (insn : Word) : HandlerM Unit := do
  let s ← get
  let f7 := funct7 insn
  if f7 = F7_KECCAKF then doKeccakf insn
  else if f7 = F7_XORIN then doXorin insn
  else if f7 = F7_SHA256_COMPRESS then doSha256Compress host insn
  else customOp s!"unknown hash funct7=0x{hex f7} at pc=0x{hex8 s.cpu.pc}"

def handleCustom0 (host : Host) (insn f3 : Word) : HandlerM StepOutcome := do
  if f3 = F3_TERMINATE then do
    let s ← get
    pure (.terminated (s.cpu.readReg (rs1 insn)))
  else if f3 = F3_HINT then do
    handleHint insn
    pure .continue
  else if f3 = F3_REVEAL then do
    handleReveal insn
    pure .continue
  else if f3 = F3_PHANTOM then do
    handlePhantom insn
    pure .continue
  else if f3 = F3_HASH then do
    handleHash host insn
    pure .continue
  else if f3 = F3_INT256 then do
    handleInt256 host insn
    pure .continue
  else if f3 = F3_BEQ256 then do
    handleBeq256 insn
    pure .continue
  else if f3 = F3_NATIVE_STOREW then
    -- Used only by openvm-internal continuation/native code.
    pure .continue
  else do
    let s ← get
    customOp s!"custom-0 unknown funct3=0b{bin3 f3} at pc=0x{hex8 s.cpu.pc}"

/-! ### custom-1 -/

def handleCustom1 (host : Host) (insn f3 : Word) : HandlerM StepOutcome := do
  if f3 = F3_MODULAR then do
    handleModular host insn
    pure .continue
  else if f3 = F3_COMPLEX then do
    handleComplex insn
    pure .continue
  else if f3 = F3_SW then do
    handleSw host insn
    pure .continue
  else if f3 = F3_PAIRING then do
    handlePairing host insn
    pure .continue
  else do
    let s ← get
    customOp s!"custom-1 funct3=0b{bin3 f3} at pc=0x{hex8 s.cpu.pc} — feature gated or unknown"

/-! ### The handler -/

/-- Only advance if the handler didn't already move PC away from the current
instruction. -/
def advance (pc : Word) : HandlerM Unit :=
  modify fun s => if s.cpu.pc = pc then s.setPc (pc + 4#32) else s

/-- The dispatch on the opcode. -/
def dispatch (host : Host) (insn : Word) : HandlerM StepOutcome := do
  let s ← get
  let op := opcode insn
  let f3 := funct3 insn
  if op = OPCODE_CUSTOM_0 then handleCustom0 host insn f3
  else if op = OPCODE_CUSTOM_1 then handleCustom1 host insn f3
  else throw (.err (.illegalInstruction s.cpu.pc insn))

def handle (host : Host) (insn : Word) : HandlerM StepOutcome := do
  let s ← get
  -- PC of the instruction we just decoded
  let pc := s.cpu.pc
  let outcome ← dispatch host insn
  match outcome with
  | .continue => do
    advance pc
    pure .continue
  | .terminated code => pure (.terminated code)

def customOps (host : Host) : CustomOpHandler PrecompileHandler := ⟨handle host⟩

end OpenvmSim.Precompiles
