import OpenvmSim.Precompiles.State

/-! Hash primitives.

- KECCAKF: one Keccak-f[1600] permutation on a 200-byte state buffer at `[rd]`.
- XORIN: XOR `len` (rs2) bytes from `[rs1]` into the buffer at `[rd]`, byte by byte.
- SHA256C: writes a new 32-byte state to `[rd]` given the previous state at `[rs1]`
  and a 64-byte block at `[rs2]`. -/
namespace OpenvmSim.Precompiles
open Rv32im

/-! ### Keccak-f[1600] -/

abbrev Lanes := Vector (BitVec 64) 25

namespace Keccak

def RC : Vector (BitVec 64) 24 :=
  #v[0x0000000000000001, 0x0000000000008082, 0x800000000000808a, 0x8000000080008000,
    0x000000000000808b, 0x0000000080000001, 0x8000000080008081, 0x8000000000008009,
    0x000000000000008a, 0x0000000000000088, 0x0000000080008009, 0x000000008000000a,
    0x000000008000808b, 0x800000000000008b, 0x8000000000008089, 0x8000000000008003,
    0x8000000000008002, 0x8000000000000080, 0x000000000000800a, 0x800000008000000a,
    0x8000000080008081, 0x8000000000008080, 0x0000000080000001, 0x8000000080008008]

def ROTC : Vector ℕ 24 :=
  #v[1, 3, 6, 10, 15, 21, 28, 36, 45, 55, 2, 14, 27, 41, 56, 8, 25, 43, 62, 18, 39, 61, 20, 44]

def PIL : Vector (Fin 25) 24 :=
  #v[10, 7, 11, 17, 18, 3, 5, 16, 8, 21, 24, 4, 15, 23, 19, 13, 12, 2, 20, 14, 22, 9, 6, 1]

def theta (s : Lanes) : Lanes :=
  let bc : Vector (BitVec 64) 5 :=
    Vector.ofFn fun x => s[x.val] ^^^ s[x.val + 5] ^^^ s[x.val + 10] ^^^ s[x.val + 15] ^^^ s[x.val + 20]
  let d : Vector (BitVec 64) 5 :=
    Vector.ofFn fun x => bc[(x.val + 4) % 5] ^^^ bc[(x.val + 1) % 5].rotateLeft 1
  Vector.ofFn fun k => s[k] ^^^ d[k.val % 5]

/-- `t` walks along the lanes in the order of `PIL`, each taking the one before. -/
def rhoPi (s : Lanes) : Lanes :=
  (Nat.fold 24 (fun i _ (s, t) =>
    let j := PIL[i]
    (s.set j (t.rotateLeft ROTC[i]), s[j])) (s, s[1])).1

def chi (s : Lanes) : Lanes :=
  Vector.ofFn fun k =>
    let x := k.val % 5
    let y := k.val / 5
    s[k] ^^^ (~~~s[(x + 1) % 5 + 5 * y] &&& s[(x + 2) % 5 + 5 * y])

def iota (rc : BitVec 64) (s : Lanes) : Lanes := s.set 0 (s[0] ^^^ rc)

def round (rc : BitVec 64) (s : Lanes) : Lanes := iota rc (chi (rhoPi (theta s)))

/-- `theta` as it is computed, lane by lane in place. -/
def thetaInPlace (s : Lanes) : Lanes :=
  let bc : Vector (BitVec 64) 5 :=
    Vector.ofFn fun x => s[x.val] ^^^ s[x.val + 5] ^^^ s[x.val + 10] ^^^ s[x.val + 15] ^^^ s[x.val + 20]
  let d : Vector (BitVec 64) 5 :=
    Vector.ofFn fun x => bc[(x.val + 4) % 5] ^^^ bc[(x.val + 1) % 5].rotateLeft 1
  Nat.fold 5 (fun x _ s => Nat.fold 5 (fun y _ s => s.set (x + 5 * y) (s[x + 5 * y] ^^^ d[x])) s) s

/-- `chi` as it is computed, row by row in place. -/
def chiInPlace (s : Lanes) : Lanes :=
  Nat.fold 5 (fun y _ s =>
    let row : Vector (BitVec 64) 5 := Vector.ofFn fun x => s[x.val + 5 * y]
    Nat.fold 5 (fun x _ s =>
      s.set (x + 5 * y) (row[x] ^^^ (~~~row[(x + 1) % 5] &&& row[(x + 2) % 5]))) s) s

/-- One iteration of the loop over the rounds. -/
def iteration (i : ℕ) (h : i < 24) (s : Lanes) : Lanes :=
  iota RC[i] (chiInPlace (rhoPi (thetaInPlace s)))

end Keccak

/-- In-place Keccak-f[1600] permutation. Standard 24-round Keccak. -/
def keccakf1600 (s : Lanes) : Lanes := Nat.fold 24 (fun i _ s => Keccak.round Keccak.RC[i] s) s

def readLanes (mem : Memory) (ptr : Word) : Lanes :=
  Vector.ofFn fun i => LittleEndian.word64
    ((List.range 8).map fun j => mem.readU8 (ptr + BitVec.ofNat 32 (i * 8 + j)))

def laneBytes (s : Lanes) : List Byte := s.toList.flatMap fun lane => LittleEndian.ofNat 8 lane.toNat

def doKeccakf (insn : Word) : HandlerM Unit := do
  let s ← get
  let ptr := s.cpu.readReg (rd insn)
  let state := readLanes s.cpu.mem ptr
  writeBytes ptr (laneBytes (keccakf1600 state))

/-! ### XORIN -/

/-- The bytes are read and written one after the other. -/
def xorBytes (mem : Memory) (dst src : Word) (len : ℕ) : Memory :=
  Nat.fold len (fun i _ mem =>
    let s := mem.readU8 (src + BitVec.ofNat 32 i)
    let d := mem.readU8 (dst + BitVec.ofNat 32 i)
    mem.writeU8 (dst + BitVec.ofNat 32 i) (d ^^^ s)) mem

def doXorin (insn : Word) : HandlerM Unit :=
  modify fun s =>
    let dst := s.cpu.readReg (rd insn)
    let src := s.cpu.readReg (rs1 insn)
    let len := s.cpu.readReg (rs2 insn)
    { s with cpu := { s.cpu with mem := xorBytes s.cpu.mem dst src len.toNat } }

/-! ### SHA-256 compression -/

/-- Each four-byte word of the state is interpreted little-endian. -/
def readState (mem : Memory) (ptr : Word) : Vector Word 8 :=
  Vector.ofFn fun i => BitVec.ofNat 32 (LittleEndian.toNat
    ((List.range 4).map fun j => mem.readU8 (ptr + BitVec.ofNat 32 (i * 4 + j))))

def readBlock (mem : Memory) (ptr : Word) : Vector Byte 64 :=
  Vector.ofFn fun i => mem.readU8 (ptr + BitVec.ofNat 32 i)

def stateBytes (s : Vector Word 8) : List Byte :=
  s.toList.flatMap fun word => LittleEndian.ofNat 4 word.toNat

def doSha256Compress (host : Host) (insn : Word) : HandlerM Unit := do
  let s ← get
  let outPtr := s.cpu.readReg (rd insn)
  let prevPtr := s.cpu.readReg (rs1 insn)
  let blockPtr := s.cpu.readReg (rs2 insn)
  let state := readState s.cpu.mem prevPtr
  let block := readBlock s.cpu.mem blockPtr
  writeBytes outPtr (stateBytes (host.compress256 state block))

end OpenvmSim.Precompiles
