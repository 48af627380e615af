import OpenvmSim.Base.Loop
import OpenvmSim.Precompiles.State

/-! 256-bit integer precompiles (opcode 0x0b, funct3=0b101) and BEQ256 (opcode 0x0b,
funct3=0b110).

All operands are 32-byte little-endian buffers in guest memory. Sums, differences and
products are computed byte by byte on `u16`, `i16` and `u32` intermediates, which are
numbers here with the overflow check of the type at every operation. -/
namespace OpenvmSim.Precompiles
open Rv32im

abbrev U256 := Vector Byte 32

def read32 (mem : Memory) (ptr : Word) : U256 :=
  Vector.ofFn fun i => mem.readU8 (ptr + BitVec.ofNat 32 i)

def write32 (ptr : Word) (val : U256) : HandlerM Unit := writeBytes ptr val.toList

namespace Int256

/-- A result of `i16` arithmetic. -/
def toI16 (host : Host) (v : ℤ) : Calc ℤ :=
  if -2 ^ 15 ≤ v ∧ v < 2 ^ 15 then pure v
  else if host.debugBuild then throw (.panic "attempt to subtract with overflow")
  else pure (v.bmod (2 ^ 16))

def add (host : Host) (a b : U256) : Calc U256 := do
  let (r, _) ← forRange 32 (fun i _ (r, carry) => do
    let s ← addUnsigned host 16 a[i].toNat b[i].toNat
    let s ← addUnsigned host 16 s carry
    pure (r.set i (BitVec.ofNat 8 s), s / 256)) (Vector.replicate 32 0#8, 0)
  pure r

def sub (host : Host) (a b : U256) : Calc U256 := do
  let (r, _) ← forRange 32 (fun i _ (r, borrow) => do
    let s ← toI16 host (a[i].toNat - b[i].toNat)
    let s ← toI16 host (s - borrow)
    if s < 0 then do
      let s ← toI16 host (s + 256)
      pure (r.set i (BitVec.ofInt 8 s), 1)
    else pure (r.set i (BitVec.ofInt 8 s), 0)) (Vector.replicate 32 0#8, (0 : ℤ))
  pure r

def xor (a b : U256) : U256 := Vector.zipWith (· ^^^ ·) a b

def and (a b : U256) : U256 := Vector.zipWith (· &&& ·) a b

def or (a b : U256) : U256 := Vector.zipWith (· ||| ·) a b

/-- Shift amount: low 8 bits of `b`. -/
def shiftAmount (b : U256) : ℕ := b[0].toNat

/-- The byte `byteOff` below index `i`, zero below the buffer. -/
def byteBelow (a : U256) (i byteOff : ℕ) : Byte :=
  if h : byteOff ≤ i ∧ i - byteOff < 32 then a[i - byteOff] else 0#8

/-- The byte at index `k`, `fill` above the buffer. -/
def byteAt (a : U256) (fill : Byte) (k : ℕ) : Byte := if h : k < 32 then a[k] else fill

def shl (a : U256) (amt : ℕ) : U256 :=
  if amt ≥ 256 then Vector.replicate 32 0#8
  else
    let byteOff := amt / 8
    let bitOff := amt % 8
    if bitOff = 0 then Vector.ofFn fun i => byteBelow a i byteOff
    else
      Vector.ofFn fun i =>
        let hi := byteBelow a i byteOff
        let lo := byteBelow a i (byteOff + 1)
        hi <<< bitOff ||| lo >>> (8 - bitOff)

/-- Both right shifts: `fill` is what comes in from above. -/
def shrFill (fill : Byte) (a : U256) (amt : ℕ) : U256 :=
  if amt ≥ 256 then Vector.replicate 32 fill
  else
    let byteOff := amt / 8
    let bitOff := amt % 8
    if bitOff = 0 then Vector.ofFn fun i => byteAt a fill (i + byteOff)
    else
      Vector.ofFn fun i =>
        let lo := byteAt a fill (i + byteOff)
        let hi := byteAt a fill (i + byteOff + 1)
        lo >>> bitOff ||| hi <<< (8 - bitOff)

def shrLogical (a : U256) (amt : ℕ) : U256 := shrFill 0#8 a amt

def shrArith (a : U256) (amt : ℕ) : U256 :=
  shrFill (if a[31] &&& 0x80#8 ≠ 0#8 then 0xff#8 else 0x00#8) a amt

/-- Truncated 256x256 → 256 multiply, schoolbook over bytes. -/
def mul (host : Host) (a b : U256) : Calc U256 := do
  let r ← forRange 32 (fun i _ r =>
    forRange (32 - i) (fun j _ r => do
      let t ← mulUnsigned host 32 a[i].toNat b[j].toNat
      let t ← addUnsigned host 32 r[i + j] t
      pure (r.set (i + j) t)) r) (Vector.replicate 32 0)
  let (out, _) ← forRange 32 (fun i _ (out, carry) => do
    let v ← addUnsigned host 32 r[i] carry
    pure (out.set i (BitVec.ofNat 8 v), v / 256)) (Vector.replicate 32 0#8, 0)
  pure out

/-- The comparison of the `n` lowest bytes, from the top down. -/
def cmpBelow (a b : U256) : (n : ℕ) → n ≤ 32 → Ordering
  | 0, _ => .eq
  | n + 1, h =>
    match compare a[n].toNat b[n].toNat with
    | .eq => cmpBelow a b n (Nat.le_of_succ_le h)
    | other => other

def cmpUnsigned (a b : U256) : Ordering := cmpBelow a b 32 (Nat.le_refl 32)

def cmpSigned (a b : U256) : Ordering :=
  let aNeg := a[31] &&& 0x80#8 ≠ 0#8
  let bNeg := b[31] &&& 0x80#8 ≠ 0#8
  if aNeg ∧ ¬bNeg then .lt
  else if ¬aNeg ∧ bNeg then .gt
  else cmpUnsigned a b

def boolToU256 (b : Bool) : U256 :=
  (Vector.replicate 32 0#8).set 0 ((BitVec.ofBool b).setWidth 8)

/-- The result of operation `op`, if there is one. -/
def compute (host : Host) (op : Word) (a b : U256) : Calc (Option U256) :=
  if op = INT256_ADD then some <$> add host a b
  else if op = INT256_SUB then some <$> sub host a b
  else if op = INT256_XOR then pure (some (xor a b))
  else if op = INT256_OR then pure (some (or a b))
  else if op = INT256_AND then pure (some (and a b))
  else if op = INT256_SLL then pure (some (shl a (shiftAmount b)))
  else if op = INT256_SRL then pure (some (shrLogical a (shiftAmount b)))
  else if op = INT256_SRA then pure (some (shrArith a (shiftAmount b)))
  else if op = INT256_SLT then pure (some (boolToU256 (cmpSigned a b == .lt)))
  else if op = INT256_SLTU then pure (some (boolToU256 (cmpUnsigned a b == .lt)))
  else if op = INT256_MUL then some <$> mul host a b
  else pure none

end Int256

def handleInt256 (host : Host) (insn : Word) : HandlerM Unit := do
  let s ← get
  let out := s.cpu.readReg (rd insn)
  let aPtr := s.cpu.readReg (rs1 insn)
  let bPtr := s.cpu.readReg (rs2 insn)
  let a := read32 s.cpu.mem aPtr
  let b := read32 s.cpu.mem bPtr
  let op := funct7 insn
  match ← Int256.compute host op a b with
  | some result => write32 out result
  | none => customOp s!"unknown INT256 funct7={dec op} at pc=0x{hex8 s.cpu.pc}"

/-- BEQ256: PC is set to `pc + imm_b` if the values at `[rs1]` and `[rs2]` are equal,
otherwise `pc + 4`. -/
def handleBeq256 (insn : Word) : HandlerM Unit := do
  let s ← get
  let aPtr := s.cpu.readReg (rs1 insn)
  let bPtr := s.cpu.readReg (rs2 insn)
  let a := read32 s.cpu.mem aPtr
  let b := read32 s.cpu.mem bPtr
  let target := if a = b then s.cpu.pc + immB insn else s.cpu.pc + 4#32
  set (s.setPc target)

end OpenvmSim.Precompiles
