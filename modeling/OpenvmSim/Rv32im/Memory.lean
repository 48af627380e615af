import OpenvmSim.Base.Bytes
import OpenvmSim.Base.Overlay
import OpenvmSim.Rv32im.Decode

/-! Sparse paged 32-bit memory.

A hash map from page numbers to 4 KiB pages. The map is a partial function: no
operation depends on how it is stored. Pages are arrays of 4096 bytes, and every
access to one carries the proof that its offset is inside the page; for the
aligned word accesses that proof is `offset_fits`. -/
namespace OpenvmSim.Rv32im

def PAGE_BITS : ℕ := 12
def PAGE_SIZE : ℕ := 4096
def PAGE_MASK : Word := 0xfff#32

abbrev Page := Vector Byte 4096

structure Memory where
  pages : Word → Option Page

namespace Memory

def new : Memory := ⟨fun _ => none⟩

def pageIdx (addr : Word) : Word := addr >>> PAGE_BITS

def pageOff (addr : Word) : ℕ := (addr &&& PAGE_MASK).toNat

/-- An offset is the address modulo the page size. -/
theorem pageOff_eq (addr : Word) : pageOff addr = addr.toNat % 4096 := by
  rw [pageOff, BitVec.toNat_and]
  exact Nat.and_two_pow_sub_one_eq_mod addr.toNat 12

theorem pageOff_lt (addr : Word) : pageOff addr < 4096 := by
  rw [pageOff_eq]
  exact Nat.mod_lt _ (by decide)

theorem aligned_iff (addr : Word) : addr &&& 3#32 = 0#32 ↔ addr.toNat % 4 = 0 := by
  have h : (addr &&& 3#32).toNat = addr.toNat % 4 := by
    rw [BitVec.toNat_and]
    exact Nat.and_two_pow_sub_one_eq_mod addr.toNat 2
  rw [← h]
  exact ⟨fun h0 => by rw [h0]; rfl, fun h0 => BitVec.eq_of_toNat_eq h0⟩

/-- An aligned word lies inside its page. -/
theorem offset_fits {addr : Word} (h : addr &&& 3#32 = 0#32) : pageOff addr + 3 < 4096 := by
  have h4 := (aligned_iff addr).mp h
  rw [pageOff_eq]
  omega

/-- The page at `idx`, a zero page if it is not there yet. -/
def pageMut (m : Memory) (idx : Word) : Page := (m.pages idx).getD (Vector.replicate 4096 0#8)

/-- Store a page that was taken with `pageMut`. -/
def putPage (m : Memory) (idx : Word) (p : Page) : Memory := ⟨Function.update m.pages idx (some p)⟩

/-- Read a single byte (zero outside touched pages). -/
def readU8 (m : Memory) (addr : Word) : Byte :=
  match m.pages (pageIdx addr) with
  | some p =>
    have ho := pageOff_lt addr
    p[pageOff addr]
  | none => 0#8

def writeU8 (m : Memory) (addr : Word) (val : Byte) : Memory :=
  let idx := pageIdx addr
  m.putPage idx ((m.pageMut idx).set (pageOff addr) val (pageOff_lt addr))

/-- Reads cross page boundaries naturally because the byte API is per-address. -/
def readU16 (m : Memory) (addr : Word) : BitVec 16 :=
  let lo := (m.readU8 addr).setWidth 16
  let hi := (m.readU8 (addr + 1#32)).setWidth 16
  lo ||| hi <<< 8

def readU32 (m : Memory) (addr : Word) : Word :=
  -- Fast path: aligned, single page.
  if h : addr &&& 3#32 = 0#32 then
    have ho := offset_fits h
    match m.pages (pageIdx addr) with
    | some p =>
      LittleEndian.word32 p[pageOff addr] p[pageOff addr + 1] p[pageOff addr + 2] p[pageOff addr + 3]
    | none => 0#32
  else
    let b0 := (m.readU8 addr).setWidth 32
    let b1 := (m.readU8 (addr + 1#32)).setWidth 32
    let b2 := (m.readU8 (addr + 2#32)).setWidth 32
    let b3 := (m.readU8 (addr + 3#32)).setWidth 32
    b0 ||| b1 <<< 8 ||| b2 <<< 16 ||| b3 <<< 24

def writeU16 (m : Memory) (addr : Word) (val : BitVec 16) : Memory :=
  (m.writeU8 addr (val.setWidth 8)).writeU8 (addr + 1#32) ((val >>> 8).setWidth 8)

/-- Copy `data` into memory starting at `addr`. Used by the ELF loader. -/
def writeSlice (m : Memory) (addr : Word) (data : List Byte) : Memory :=
  data.zipIdx.foldl (fun m b => m.writeU8 (addr + BitVec.ofNat 32 b.2) b.1) m

def writeU32 (m : Memory) (addr : Word) (val : Word) : Memory :=
  let bs := LittleEndian.ofNat 4 val.toNat
  if h : addr &&& 3#32 = 0#32 then
    have ho := offset_fits h
    let idx := pageIdx addr
    let o := pageOff addr
    let p := m.pageMut idx
    let p := p.set o (bs.getD 0 0#8) (by omega)
    let p := p.set (o + 1) (bs.getD 1 0#8) (by omega)
    let p := p.set (o + 2) (bs.getD 2 0#8) (by omega)
    let p := p.set (o + 3) (bs.getD 3 0#8) ho
    m.putPage idx p
  else
    m.writeSlice addr bs

/-- Reads `len` bytes into a Vec (used by precompiles). -/
def readVec (m : Memory) (addr : Word) (len : ℕ) : List Byte :=
  (List.range len).map fun i => m.readU8 (addr + BitVec.ofNat 32 i)

end Memory

end OpenvmSim.Rv32im
