import OpenvmSim.Precompiles.Encoding
import OpenvmSim.Precompiles.Host

/-! The state of the precompile handler.

A handler is called with the CPU: `HandlerM` calls run on both. Queues are lists with
their front first. The configuration tables are fields of the handler and are read
at every call. -/
namespace OpenvmSim.Precompiles
open Rv32im

/-- I/O state mirroring openvm-circuit's `Streams<F>`. -/
structure IoState where
  /-- FIFO of input "streams", each entry one `StdIn::write*` call. -/
  inputStreams : List (List Byte)
  /-- Active byte buffer, consumed by HINT_*. -/
  hintStream : List Byte
  /-- Public output (sparse, extended as REVEAL writes at arbitrary offsets). -/
  output : List Byte
  deriving DecidableEq

namespace IoState

def withInputStreams (streams : List (List Byte)) : IoState :=
  { inputStreams := streams, hintStream := [], output := [] }

/-- Convenience constructor for the common single-stream case. -/
def withInput (bytes : List Byte) : IoState := withInputStreams [bytes]

/-- `while queue.len() % 4 != 0 { push 0 }`, of which no more than three rounds are
ever needed. -/
def padLoop : ℕ → List Byte → List Byte
  | 0, queue => queue
  | rounds + 1, queue =>
    if queue.length % 4 ≠ 0 then padLoop rounds (queue ++ [0#8]) else queue

/-- HintInput phantom: pop the next input stream, prepend its u32 LE length, pad to
4-byte boundary, push into `hintStream` (overwriting any leftover bytes). -/
def hintInput (io : IoState) : Except String IoState :=
  match io.inputStreams with
  | [] => throw "EndOfInputStream"
  | entry :: rest =>
    let queue := LittleEndian.ofNat 4 entry.length ++ entry
    pure { io with inputStreams := rest, hintStream := padLoop 3 queue }

/-- Pop `n` bytes, zero once the queue is empty: the bytes and what is left. -/
def readHintBytes : ℕ → List Byte → List Byte × List Byte
  | 0, queue => ([], queue)
  | n + 1, queue =>
    let (v, rest) := readHintBytes n queue.tail
    (queue.headD 0#8 :: v, rest)

def writeOutput (io : IoState) (offset : ℕ) (bytes : List Byte) : IoState :=
  let last := offset + bytes.length
  let output := io.output ++ List.replicate (last - io.output.length) 0#8
  { io with output := output.take offset ++ bytes ++ output.drop last }

end IoState

structure PrecompileHandler where
  io : IoState
  moduli : List ModulusEntry
  curves : List CurveEntry
  complex : List ModulusEntry
  pairings : List String

def PrecompileHandler.new (input : List Byte) : PrecompileHandler where
  io := IoState.withInput input
  moduli := defaultModuli
  curves := defaultCurves
  complex := defaultComplex
  pairings := defaultPairings

/-- The state a handler is called on. -/
abbrev Machine := Sim PrecompileHandler

abbrev HandlerM (α : Type) := SimM PrecompileHandler α

/-! ### The writes a handler makes -/

end OpenvmSim.Precompiles

namespace OpenvmSim.Rv32im.Sim
open Precompiles

/-- A machine whose registers and memory are all zeros, with one empty input stream. -/
def blank : Machine where
  cpu := { pc := 0#32, x := Vector.replicate 32 0#32, mem := Memory.new, steps := 0 }
  handler := PrecompileHandler.new []

/-- A blank machine about to run the program `words` at address 64, with the given input
streams. -/
def loaded (words : List Word) (streams : List (List Byte)) : Machine where
  cpu := { blank.cpu with
    pc := 64#32
    mem := Memory.new.writeSlice 64#32 (words.flatMap fun w => LittleEndian.ofNat 4 w.toNat) }
  handler := { blank.handler with io := IoState.withInputStreams streams }

/-- Bytes stored at consecutive addresses. -/
def store (s : Machine) (ptr : Word) (bs : List Byte) : Machine :=
  { s with cpu := { s.cpu with mem := s.cpu.mem.writeSlice ptr bs } }

def setReg (s : Machine) (r : Reg) (val : Word) : Machine := { s with cpu := s.cpu.writeReg r val }

def setPc (s : Machine) (pc : Word) : Machine := { s with cpu := { s.cpu with pc } }

def setIo (s : Machine) (io : IoState) : Machine := { s with handler := { s.handler with io } }

def setHint (s : Machine) (bytes : List Byte) : Machine :=
  s.setIo { s.handler.io with hintStream := bytes }

/-- Memory replaced as a whole. -/
def setMem (s : Machine) (mem : Memory) : Machine := { s with cpu := { s.cpu with mem } }

section Frames
variable (s : Machine) (ptr pc val : Word) (r : Reg) (bs : List Byte) (io : IoState) (mem : Memory)

@[simp] theorem mem_setMem : (s.setMem mem).cpu.mem = mem := rfl
@[simp] theorem pc_setMem : (s.setMem mem).cpu.pc = s.cpu.pc := rfl
@[simp] theorem x_setMem : (s.setMem mem).cpu.x = s.cpu.x := rfl
@[simp] theorem steps_setMem : (s.setMem mem).cpu.steps = s.cpu.steps := rfl
@[simp] theorem handler_setMem : (s.setMem mem).handler = s.handler := rfl

theorem store_eq : s.store ptr bs = s.setMem (s.cpu.mem.writeSlice ptr bs) := rfl

@[simp] theorem mem_store : (s.store ptr bs).cpu.mem = s.cpu.mem.writeSlice ptr bs := rfl
@[simp] theorem pc_store : (s.store ptr bs).cpu.pc = s.cpu.pc := rfl
@[simp] theorem x_store : (s.store ptr bs).cpu.x = s.cpu.x := rfl
@[simp] theorem steps_store : (s.store ptr bs).cpu.steps = s.cpu.steps := rfl
@[simp] theorem handler_store : (s.store ptr bs).handler = s.handler := rfl

@[simp] theorem cpu_setReg : (s.setReg r val).cpu = s.cpu.writeReg r val := rfl
@[simp] theorem handler_setReg : (s.setReg r val).handler = s.handler := rfl

@[simp] theorem mem_setPc : (s.setPc pc).cpu.mem = s.cpu.mem := rfl
@[simp] theorem pc_setPc : (s.setPc pc).cpu.pc = pc := rfl
@[simp] theorem x_setPc : (s.setPc pc).cpu.x = s.cpu.x := rfl
@[simp] theorem steps_setPc : (s.setPc pc).cpu.steps = s.cpu.steps := rfl
@[simp] theorem handler_setPc : (s.setPc pc).handler = s.handler := rfl

@[simp] theorem cpu_setIo : (s.setIo io).cpu = s.cpu := rfl
@[simp] theorem io_setIo : (s.setIo io).handler.io = io := rfl

@[simp] theorem cpu_setHint : (s.setHint bs).cpu = s.cpu := rfl
@[simp] theorem io_setHint :
    (s.setHint bs).handler.io = { s.handler.io with hintStream := bs } := rfl

end Frames

end OpenvmSim.Rv32im.Sim

namespace OpenvmSim.Precompiles
open Rv32im

def writeBytes (ptr : Word) (bs : List Byte) : HandlerM Unit := modify (·.store ptr bs)

/-- Write a number as `n` little-endian bytes. -/
def writeLe (ptr : Word) (val n : ℕ) : HandlerM Unit := writeBytes ptr (BigUint.bytesLe val n)

def writeReg (r : Reg) (val : Word) : HandlerM Unit := modify (·.setReg r val)

def setIo (io : IoState) : HandlerM Unit := modify (·.setIo io)

/-- Replace the host hint stream with `bytes`. -/
def replaceHintStream (bytes : List Byte) : HandlerM Unit := modify (·.setHint bytes)

/-- Push bytes at the end of the hint stream. -/
def pushHintStream (bytes : List Byte) : HandlerM Unit :=
  modify fun s => s.setHint (s.handler.io.hintStream ++ bytes)

/-! ### Reads -/

def readLe (mem : Memory) (ptr : Word) (n : ℕ) : ℕ := LittleEndian.toNat (mem.readVec ptr n)

/-- Two `{ptr, len}` descriptors of eight bytes each. -/
structure Descriptors where
  pPtr : Word
  pLen : Word
  qPtr : Word
  qLen : Word

def readDescriptors (mem : Memory) (descP descQ : Word) : Descriptors where
  pPtr := mem.readU32 descP
  pLen := mem.readU32 (descP + 4#32)
  qPtr := mem.readU32 descQ
  qLen := mem.readU32 (descQ + 4#32)

/-- The `len` points of an array, read by index. -/
def readPoints {P : Type} (len : Word) (readPoint : ℕ → Calc P) : Calc (List P) :=
  (List.range len.toNat).mapM readPoint

def customOp {α : Type} (message : String) : HandlerM α := throw (.err (.customOp message))

end OpenvmSim.Precompiles
