import OpenvmSim.Precompiles.Handler
import OpenvmSim.Rv32im.FlatMemory

/-! The custom instructions by kind.

Which handler branch a word selects is a property of its fields, and for the table
operations also of the table. `MemOp` is what the handlers compute on memory: an
operation reads one or two byte strings and yields the bytes to store at `[rd]`.
`MemOp.output` states that calculation on byte strings alone, so that it cannot see
where its operands lie. -/
namespace OpenvmSim.Precompiles
open Rv32im

/-! ### Kinds of words -/

section Kinds
variable (insn f3 : Word)

def IsCustom0 : Prop := opcode insn = OPCODE_CUSTOM_0 ∧ funct3 insn = f3

def IsCustom1 : Prop := opcode insn = OPCODE_CUSTOM_1 ∧ funct3 insn = f3

instance : Decidable (IsCustom0 insn f3) := inferInstanceAs (Decidable (_ ∧ _))
instance : Decidable (IsCustom1 insn f3) := inferInstanceAs (Decidable (_ ∧ _))

/-- The twelve immediate bits, unsigned. -/
def imm12 : Word := immI insn &&& 0xfff#32

/-- The table index of a table operation. -/
def tableIdx : ℕ := (funct7 insn / 8#32).toNat

/-- The base operation of a table operation. -/
def tableOp : Word := funct7 insn % 8#32

def IsTerminate : Prop := IsCustom0 insn F3_TERMINATE
def IsHintStorew : Prop := IsCustom0 insn F3_HINT ∧ imm12 insn = HINT_STOREW_IMM
def IsHintBuffer : Prop := IsCustom0 insn F3_HINT ∧ imm12 insn = HINT_BUFFER_IMM
def IsReveal : Prop := IsCustom0 insn F3_REVEAL
def IsHintInput : Prop := IsCustom0 insn F3_PHANTOM ∧ imm12 insn = PHANTOM_HINT_INPUT
def IsXorin : Prop := IsCustom0 insn F3_HASH ∧ funct7 insn = F7_XORIN
def IsBeq256 : Prop := IsCustom0 insn F3_BEQ256
def IsHintNonQr : Prop := IsCustom1 insn F3_MODULAR ∧ tableOp insn = MOD_HINT_NON_QR
def IsHintSqrt : Prop := IsCustom1 insn F3_MODULAR ∧ tableOp insn = MOD_HINT_SQRT
def IsIsEq : Prop :=
  (IsCustom1 insn F3_MODULAR ∨ IsCustom1 insn F3_COMPLEX) ∧ tableOp insn = MOD_ISEQ
def IsPairing : Prop := IsCustom1 insn F3_PAIRING

instance : Decidable (IsTerminate insn) := inferInstanceAs (Decidable (IsCustom0 _ _))
instance : Decidable (IsHintStorew insn) := inferInstanceAs (Decidable (_ ∧ _))
instance : Decidable (IsHintBuffer insn) := inferInstanceAs (Decidable (_ ∧ _))
instance : Decidable (IsReveal insn) := inferInstanceAs (Decidable (IsCustom0 _ _))
instance : Decidable (IsHintInput insn) := inferInstanceAs (Decidable (_ ∧ _))
instance : Decidable (IsXorin insn) := inferInstanceAs (Decidable (_ ∧ _))
instance : Decidable (IsBeq256 insn) := inferInstanceAs (Decidable (IsCustom0 _ _))
instance : Decidable (IsHintNonQr insn) := inferInstanceAs (Decidable (_ ∧ _))
instance : Decidable (IsHintSqrt insn) := inferInstanceAs (Decidable (_ ∧ _))
instance : Decidable (IsIsEq insn) := inferInstanceAs (Decidable (_ ∧ _))
instance : Decidable (IsPairing insn) := inferInstanceAs (Decidable (IsCustom1 _ _))

end Kinds

/-! ### Byte strings as operands -/

section Operands
variable (bs : List Byte)

def byteOf (i : ℕ) : Byte := bs[i]?.getD 0#8

def u256Of : U256 := Vector.ofFn fun i => byteOf bs i

def lanesOf : Lanes :=
  Vector.ofFn fun i => LittleEndian.word64 ((List.range 8).map fun j => byteOf bs (i * 8 + j))

def stateOf : Vector Word 8 :=
  Vector.ofFn fun i =>
    BitVec.ofNat 32 (LittleEndian.toNat ((List.range 4).map fun j => byteOf bs (i * 4 + j)))

def blockOf : Vector Byte 64 := Vector.ofFn fun i => byteOf bs i

def pairOf (n : ℕ) : Pair :=
  (LittleEndian.toNat (bs.take n), LittleEndian.toNat (bs.drop n))

def pairBytes (n : ℕ) (r : Pair) : List Byte := BigUint.bytesLe r.1 n ++ BigUint.bytesLe r.2 n

@[simp] theorem length_pairBytes (n : ℕ) (r : Pair) : (pairBytes n r).length = 2 * n := by
  rw [pairBytes, List.length_append, BigUint.length_bytesLe, BigUint.length_bytesLe]
  ring

end Operands

section Reads
variable (mem : Memory) (ptr : Word)

/-- A byte of a byte string that was read from memory. -/
theorem byteOf_readVec {n i : ℕ} (h : i < n) :
    byteOf (mem.readVec ptr n) i = mem.readU8 (ptr + BitVec.ofNat 32 i) := by
  simp [byteOf, Memory.readVec, h]

theorem read32_eq : read32 mem ptr = u256Of (mem.readVec ptr 32) := by
  apply Vector.ext
  intro i hi
  rw [read32, u256Of, Vector.getElem_ofFn, Vector.getElem_ofFn, byteOf_readVec mem ptr hi]

theorem readLanes_eq : readLanes mem ptr = lanesOf (mem.readVec ptr 200) := by
  apply Vector.ext
  intro i hi
  rw [readLanes, lanesOf, Vector.getElem_ofFn, Vector.getElem_ofFn]
  refine congrArg LittleEndian.word64 (List.map_congr_left fun j hj => ?_)
  have hj := List.mem_range.mp hj
  exact (byteOf_readVec mem ptr (by omega)).symm

theorem readState_eq : readState mem ptr = stateOf (mem.readVec ptr 32) := by
  apply Vector.ext
  intro i hi
  rw [readState, stateOf, Vector.getElem_ofFn, Vector.getElem_ofFn]
  refine congrArg (fun l => BitVec.ofNat 32 (LittleEndian.toNat l)) (List.map_congr_left fun j hj => ?_)
  have hj := List.mem_range.mp hj
  exact (byteOf_readVec mem ptr (by omega)).symm

theorem readBlock_eq : readBlock mem ptr = blockOf (mem.readVec ptr 64) := by
  apply Vector.ext
  intro i hi
  rw [readBlock, blockOf, Vector.getElem_ofFn, Vector.getElem_ofFn, byteOf_readVec mem ptr hi]

theorem readPair_eq (n : ℕ) : readPair mem ptr n = pairOf (mem.readVec ptr (2 * n)) n := by
  have hsplit : mem.readVec ptr (2 * n) =
      mem.readVec ptr n ++ mem.readVec (ptr + BitVec.ofNat 32 n) n := by
    rw [two_mul]
    exact Flat.load_add mem.bytes ptr n n
  rw [readPair, pairOf, hsplit, List.take_left' (Memory.length_readVec mem ptr n),
    List.drop_left' (Memory.length_readVec mem ptr n)]
  rfl

end Reads

/-! ### Operations on memory -/

/-- An operation that stores bytes at `[rd]`. -/
inductive MemOp where
  | keccakf
  | sha256
  | int256 (op : Word)
  | modular (entry : ModulusEntry) (op : Word)
  | complex (entry : ModulusEntry) (op : Word)
  | swAddNe (curve : CurveEntry)
  | swDouble (curve : CurveEntry)
  | swDecompress (curve : CurveEntry)
  | swNonQr (curve : CurveEntry)
  deriving DecidableEq

namespace MemOp

/-- The number of bytes stored. -/
def width : MemOp → ℕ
  | keccakf => 200
  | sha256 => 32
  | int256 _ => 32
  | modular entry _ => entry.limbBytes
  | complex entry _ => 2 * entry.limbBytes
  | swAddNe curve => 2 * curve.coordBytes
  | swDouble curve => 2 * curve.coordBytes
  | swDecompress curve => curve.coordBytes
  | swNonQr curve => curve.coordBytes

/-- The operand bytes: those at `[rs1]` and `[rs2]`, except that KECCAKF works in place,
a decompression takes a parity from the register `rs2` and a non-residue takes
nothing. -/
def operands (op : MemOp) (insn : Word) (cpu : Cpu) : List Byte × List Byte :=
  let left := cpu.readReg (rs1 insn)
  let right := cpu.readReg (rs2 insn)
  match op with
  | keccakf => (cpu.mem.readVec (cpu.readReg (rd insn)) 200, [])
  | sha256 => (cpu.mem.readVec left 32, cpu.mem.readVec right 64)
  | swDouble curve => (cpu.mem.readVec left (2 * curve.coordBytes), [])
  | swDecompress curve =>
    (cpu.mem.readVec left curve.coordBytes, [BitVec.ofNat 8 (right &&& 1#32).toNat])
  | swNonQr _ => ([], [])
  | op => (cpu.mem.readVec left op.width, cpu.mem.readVec right op.width)

/-- The element an operation of the modular table stores. -/
def modularResult (op : Word) (a b p : ℕ) : Calc (Option ℕ) :=
  if op = MOD_ADD then some <$> BigUint.rem (a + b) p
  else if op = MOD_SUB then some <$> subOnce a b p
  else if op = MOD_MUL then some <$> BigUint.rem (a * b) p
  else if op = MOD_DIV then modDiv a b p
  else pure none

/-- The element an operation of the complex table stores. -/
def complexResult (op : Word) (a b : Pair) (p : ℕ) : Calc (Option Pair) :=
  if op = MOD_ADD then some <$> complexAdd a b p
  else if op = MOD_SUB then some <$> complexSub a b p
  else if op = MOD_MUL then some <$> complexMul a b p
  else if op = MOD_DIV then complexDiv a b p
  else pure none

/-- The bytes stored, from the operand bytes; `none` when the operation reports an
error. -/
def output (host : Host) : MemOp → List Byte → List Byte → Calc (Option (List Byte))
  | keccakf, x, _ => pure (some (laneBytes (keccakf1600 (lanesOf x))))
  | sha256, x, y => pure (some (stateBytes (host.compress256 (stateOf x) (blockOf y))))
  | int256 op, x, y => do
    let r ← Int256.compute host op (u256Of x) (u256Of y)
    pure (r.map Vector.toList)
  | modular entry op, x, y => do
    let r ← modularResult op (LittleEndian.toNat x) (LittleEndian.toNat y) entry.modulus
    pure (r.map fun r => BigUint.bytesLe r entry.limbBytes)
  | complex entry op, x, y => do
    let r ← complexResult op (pairOf x entry.limbBytes) (pairOf y entry.limbBytes) entry.modulus
    pure (r.map (pairBytes entry.limbBytes))
  | swAddNe curve, x, y => do
    let r ← addNe curve (pairOf x curve.coordBytes) (pairOf y curve.coordBytes)
    pure (some (pairBytes curve.coordBytes r))
  | swDouble curve, x, _ => do
    let r ← double curve (pairOf x curve.coordBytes)
    pure (some (pairBytes curve.coordBytes r))
  | swDecompress curve, x, y => do
    let r ← decompress host curve (LittleEndian.toNat x) (LittleEndian.toNat y)
    pure (r.map fun y => BigUint.bytesLe y curve.coordBytes)
  | swNonQr curve, _, _ => do
    let z ← leastNonQr curve.modulus
    pure (some (BigUint.bytesLe z curve.coordBytes))

end MemOp

/-- The operations of a table that store a field element. -/
def IsArith (op : Word) : Prop := op = MOD_ADD ∨ op = MOD_SUB ∨ op = MOD_MUL ∨ op = MOD_DIV

instance (op : Word) : Decidable (IsArith op) := inferInstanceAs (Decidable (_ ∨ _))

/-! ### The kind of a word -/

/-- What a word does if its handler returns. -/
inductive Kind where
  /-- Nothing. -/
  | silent
  /-- The output of a memory operation goes to `[rd]`. -/
  | store (op : MemOp)
  /-- An equality test sets the register `rd`. -/
  | isEq
  | xorin
  | beq256
  /-- Hint bytes go to `[rd]`. -/
  | deliver
  | reveal
  /-- An input stream becomes the hint stream. -/
  | hintInput
  /-- A modular hint becomes the hint stream. -/
  | replace
  /-- A pairing hint joins the hint stream. -/
  | push
  deriving DecidableEq

namespace Kind

def ofMemOp : Option MemOp → Kind
  | some op => .store op
  | none => .silent

def custom0 (insn f3 : Word) : Kind :=
  if f3 = F3_HINT then .deliver
  else if f3 = F3_REVEAL then .reveal
  else if f3 = F3_PHANTOM then if imm12 insn = PHANTOM_HINT_INPUT then .hintInput else .silent
  else if f3 = F3_HASH then
    if funct7 insn = F7_KECCAKF then .store .keccakf
    else if funct7 insn = F7_XORIN then .xorin
    else if funct7 insn = F7_SHA256_COMPRESS then .store .sha256
    else .silent
  else if f3 = F3_INT256 then .store (.int256 (funct7 insn))
  else if f3 = F3_BEQ256 then .beq256
  else .silent

def modular (entry : Option ModulusEntry) (op : Word) : Kind :=
  if op = MOD_ISEQ then .isEq
  else if op = MOD_HINT_NON_QR ∨ op = MOD_HINT_SQRT then .replace
  else if IsArith op then ofMemOp (entry.map (.modular · op))
  else .silent

def complex (entry : Option ModulusEntry) (op : Word) : Kind :=
  if op = MOD_ISEQ then .isEq
  else if IsArith op then ofMemOp (entry.map (.complex · op))
  else .silent

def sw (curve : Option CurveEntry) (op : Word) : Kind :=
  if op = SW_ADD_NE then ofMemOp (curve.map .swAddNe)
  else if op = SW_DOUBLE then ofMemOp (curve.map .swDouble)
  else if op = SW_HINT_DECOMPRESS then ofMemOp (curve.map .swDecompress)
  else if op = SW_HINT_NON_QR then ofMemOp (curve.map .swNonQr)
  else .silent

def custom1 (h : PrecompileHandler) (insn f3 : Word) : Kind :=
  if f3 = F3_MODULAR then modular h.moduli[tableIdx insn]? (tableOp insn)
  else if f3 = F3_COMPLEX then complex h.complex[tableIdx insn]? (tableOp insn)
  else if f3 = F3_SW then sw h.curves[tableIdx insn]? (tableOp insn)
  else if f3 = F3_PAIRING then .push
  else .silent

end Kind

/-- The kind of a word, given the handler's tables. -/
def kindOf (h : PrecompileHandler) (insn : Word) : Kind :=
  if opcode insn = OPCODE_CUSTOM_0 then .custom0 insn (funct3 insn)
  else if opcode insn = OPCODE_CUSTOM_1 then .custom1 h insn (funct3 insn)
  else .silent

section KindOf
variable {insn f3 f3' : Word} (h : PrecompileHandler)

theorem kindOf_custom0 (h0 : IsCustom0 insn f3) : kindOf h insn = .custom0 insn f3 := by
  rw [kindOf, if_pos h0.1, h0.2]

theorem custom1_not_custom0 (h1 : IsCustom1 insn f3) : ¬IsCustom0 insn f3' :=
  fun h' => absurd (h1.1.symm.trans h'.1) (by decide)

theorem kindOf_custom1 (h1 : IsCustom1 insn f3) : kindOf h insn = .custom1 h insn f3 := by
  have hne : opcode insn ≠ OPCODE_CUSTOM_0 := by
    rw [h1.1]
    decide
  rw [kindOf, if_neg hne, if_pos h1.1, h1.2]

theorem kindOf_beq256 (hb : IsBeq256 insn) : kindOf h insn = .beq256 := kindOf_custom0 h hb

theorem kindOf_storew (hs : IsHintStorew insn) : kindOf h insn = .deliver := kindOf_custom0 h hs.1

theorem kindOf_buffer (hb : IsHintBuffer insn) : kindOf h insn = .deliver := kindOf_custom0 h hb.1

theorem kindOf_hintInput (hi : IsHintInput insn) : kindOf h insn = .hintInput := by
  rw [kindOf_custom0 h hi.1]
  exact if_pos hi.2

theorem kindOf_nonQr (hn : IsHintNonQr insn) : kindOf h insn = .replace := by
  rw [kindOf_custom1 h hn.1]
  show Kind.modular _ (tableOp insn) = _
  rw [hn.2]
  rfl

theorem kindOf_sqrt (hs : IsHintSqrt insn) : kindOf h insn = .replace := by
  rw [kindOf_custom1 h hs.1]
  show Kind.modular _ (tableOp insn) = _
  rw [hs.2]
  rfl

theorem kindOf_isEq (hi : IsIsEq insn) : kindOf h insn = .isEq := by
  obtain ⟨h1 | h1, hop⟩ := hi
  · rw [kindOf_custom1 h h1]
    exact if_pos hop
  · rw [kindOf_custom1 h h1]
    exact if_pos hop

theorem kindOf_phantom (h0 : IsCustom0 insn F3_PHANTOM) (himm : imm12 insn ≠ PHANTOM_HINT_INPUT) :
    kindOf h insn = .silent := by
  rw [kindOf_custom0 h h0]
  exact if_neg himm

theorem kindOf_keccakf (h0 : IsCustom0 insn F3_HASH) (hf : funct7 insn = F7_KECCAKF) :
    kindOf h insn = .store .keccakf := by
  rw [kindOf_custom0 h h0]
  exact if_pos hf

theorem kindOf_xorin (hx : IsXorin insn) : kindOf h insn = .xorin := by
  rw [kindOf_custom0 h hx.1]
  show (if funct7 insn = F7_KECCAKF then _ else if funct7 insn = F7_XORIN then _ else _) = _
  rw [hx.2]
  rfl

theorem kindOf_sha256 (h0 : IsCustom0 insn F3_HASH) (hf : funct7 insn = F7_SHA256_COMPRESS) :
    kindOf h insn = .store .sha256 := by
  rw [kindOf_custom0 h h0]
  show (if funct7 insn = F7_KECCAKF then _ else if funct7 insn = F7_XORIN then _
    else if funct7 insn = F7_SHA256_COMPRESS then _ else _) = _
  rw [hf]
  rfl

theorem kindOf_int256 (h0 : IsCustom0 insn F3_INT256) :
    kindOf h insn = .store (.int256 (funct7 insn)) := kindOf_custom0 h h0

/-- An arithmetic operation is none of the others. -/
theorem IsArith.ne {op : Word} (h : IsArith op) :
    op ≠ MOD_ISEQ ∧ op ≠ MOD_HINT_NON_QR ∧ op ≠ MOD_HINT_SQRT := by
  rcases h with rfl | rfl | rfl | rfl <;> decide

theorem kindOf_modular {entry : ModulusEntry} (h1 : IsCustom1 insn F3_MODULAR)
    (he : h.moduli[tableIdx insn]? = some entry) (hop : IsArith (tableOp insn)) :
    kindOf h insn = .store (.modular entry (tableOp insn)) := by
  obtain ⟨hne, hne', hne''⟩ := hop.ne
  rw [kindOf_custom1 h h1]
  show Kind.modular h.moduli[tableIdx insn]? (tableOp insn) = _
  rw [he, Kind.modular, if_neg hne, if_neg (not_or.mpr ⟨hne', hne''⟩), if_pos hop]
  rfl

theorem kindOf_complex {entry : ModulusEntry} (h1 : IsCustom1 insn F3_COMPLEX)
    (he : h.complex[tableIdx insn]? = some entry) (hop : IsArith (tableOp insn)) :
    kindOf h insn = .store (.complex entry (tableOp insn)) := by
  rw [kindOf_custom1 h h1]
  show Kind.complex h.complex[tableIdx insn]? (tableOp insn) = _
  rw [he, Kind.complex, if_neg hop.ne.1, if_pos hop]
  rfl

theorem kindOf_setup (h1 : IsCustom1 insn F3_MODULAR ∨ IsCustom1 insn F3_COMPLEX)
    (hop : tableOp insn = MOD_SETUP) : kindOf h insn = .silent := by
  obtain h1 | h1 := h1
  · rw [kindOf_custom1 h h1]
    show Kind.modular _ (tableOp insn) = _
    rw [hop]
    rfl
  · rw [kindOf_custom1 h h1]
    show Kind.complex _ (tableOp insn) = _
    rw [hop]
    rfl

/-- The kind of a curve word, operation by operation. -/
theorem kindOf_sw {curve : CurveEntry} (h1 : IsCustom1 insn F3_SW)
    (he : h.curves[tableIdx insn]? = some curve) :
    kindOf h insn = Kind.sw (some curve) (tableOp insn) := by
  rw [kindOf_custom1 h h1, ← he]
  rfl

theorem kindOf_pairing (hp : IsPairing insn) : kindOf h insn = .push := kindOf_custom1 h hp

end KindOf

end OpenvmSim.Precompiles
