import OpenvmSim.Precompiles.Keccak
import OpenvmSim.Precompiles.Xorin

/-! The sponge of the guest.

A guest absorbs a message block by block: XORIN combines a block into the state, KECCAKF
permutes the state. If the blocks lie outside of the state, the state becomes what the sponge of
the standard makes of it, and nothing else changes (`sponge_absorbs`). -/
namespace OpenvmSim.Precompiles
open Rv32im

/-- The address is not one of the 200 bytes at `buf`. -/
def Outside (buf a : Word) : Prop := 200 ≤ (a - buf).toNat

/-- Where a block of the message is, and its length. -/
structure Block where
  src : Word
  len : ℕ

namespace Block

/-- The bytes of the block. -/
def bytes (b : Block) (mem : Memory) : List Byte := mem.readVec b.src b.len

/-- The block is no longer than the state at `buf`, and outside of it. -/
structure Beside (b : Block) (buf : Word) : Prop where
  fits : b.len ≤ 200
  outside : ∀ i < b.len, Outside buf (b.src + BitVec.ofNat 32 i)

/-- A block is as before if the bytes outside of the state are. -/
theorem Beside.bytes_eq {b : Block} {buf : Word} (h : b.Beside buf) {mem mem' : Memory}
    (hkept : ∀ a, Outside buf a → mem'.readU8 a = mem.readU8 a) : b.bytes mem' = b.bytes mem :=
  List.map_congr_left fun i hi => hkept _ (h.outside i (List.mem_range.mp hi))

end Block

/-! ### One block -/

section Words
variable {buf : Word} {b : Block}

/-- A byte after XORIN. -/
theorem readU8_xorBytes (h : b.Beside buf) (mem : Memory) (a : Word) :
    (xorBytes mem buf b.src b.len).readU8 a =
      if (a - buf).toNat < b.len then
        mem.readU8 a ^^^ mem.readU8 (b.src + BitVec.ofNat 32 (a - buf).toNat)
      else mem.readU8 a := by
  have hfits := h.fits
  rw [← Memory.bytes_apply, bytes_xorBytes, Flat.combine_apart _ _ _ _ (by omega)]
  · rfl
  · exact fun i hi => hfits.trans (h.outside i hi)

/-- The state after XORIN: the block is added to its front. -/
theorem memoryArray_xorBytes (h : b.Beside buf) (mem : Memory) :
    memoryArray (xorBytes mem buf b.src b.len) buf =
      Fips202.xorBlock (memoryArray mem buf) (b.bytes mem) := by
  funext x y z
  have hbyte : (64 * (5 * y.val + x.val) + z.val) / 8 = (x.val + 5 * y.val) * 8 + z.val / 8 := by
    omega
  have hbit : (64 * (5 * y.val + x.val) + z.val) % 8 = z.val % 8 := by omega
  have hdist := Flat.distance_add buf (show (x.val + 5 * y.val) * 8 + z.val / 8 < 2 ^ 32 by omega)
  rw [memoryArray, readU8_xorBytes h, hdist, Fips202.xorBlock, memoryArray, Fips202.bitOf, hbyte,
    hbit, Block.bytes, Memory.readVec, List.getD_eq_getElem?_getD, List.getElem?_map]
  split
  · next hlt =>
    rw [List.getElem?_range hlt, BitVec.getLsbD_xor]
    rfl
  · next hge =>
    rw [List.getElem?_eq_none (by simpa using hge), Option.map_none, Option.getD_none,
      BitVec.getLsbD_zero, Bool.xor_false]

/-- What a block may do to the machine: it is absorbed into the state at `buf`, and all other
bytes, the registers and the handler stay as they are. -/
structure AbsorbsBlock (buf : Word) (b : Block) (s t : Machine) : Prop where
  state : memoryArray t.cpu.mem buf = Fips202.absorb (memoryArray s.cpu.mem buf) (b.bytes s.cpu.mem)
  kept : ∀ a, Outside buf a → t.cpu.mem.readU8 a = s.cpu.mem.readU8 a
  regs : t.cpu.x = s.cpu.x
  handler : t.handler = s.handler

/-- XORIN of a block followed by KECCAKF, on the registers that name them. -/
theorem absorbsBlock {host : Host} {xorin keccakf : Word} {s s₁ t : Machine} (h : b.Beside buf)
    (hx : IsXorin xorin) (hk : IsKeccakf keccakf) (hdst : xorinDst xorin s = buf)
    (hsrc : xorinSrc xorin s = b.src) (hlen : xorinLen xorin s = b.len)
    (hptr : s₁.cpu.readReg (rd keccakf) = buf)
    (hrun : (handle host xorin).run s = .ok .continue s₁)
    (hrun' : (handle host keccakf).run s₁ = .ok .continue t) : AbsorbsBlock buf b s t := by
  rw [xorin_run xorin s hx, hdst, hsrc, hlen] at hrun
  rw [keccakf_run hk, hptr] at hrun'
  have hmem : s₁.cpu.mem = xorBytes s.cpu.mem buf b.src b.len := by
    cases hrun
    rw [mem_advanced, Sim.mem_setMem]
  have hregs : s₁.cpu.x = s.cpu.x := by
    cases hrun
    rw [x_advanced, Sim.x_setMem]
  have hhandler : s₁.handler = s.handler := by
    cases hrun
    rw [handler_advanced, Sim.handler_setMem]
  cases hrun'
  refine ⟨?_, fun a ha => ?_, ?_, ?_⟩
  · rw [mem_advanced, memoryArray_keccakf, hmem, memoryArray_xorBytes h]
    rfl
  · have hfits := h.fits
    have hout : 200 ≤ (a - buf).toNat := ha
    have hlanes := length_laneBytes (keccakf1600 (readLanes s₁.cpu.mem buf))
    rw [mem_advanced, ← Memory.bytes_apply, Sim.mem_store, Memory.bytes_writeSlice,
      Flat.overlay_apply _ _ _ (by rw [hlanes]; decide), List.getElem?_eq_none (by rwa [hlanes]),
      Option.getD_none, Memory.bytes_apply, hmem, readU8_xorBytes h, if_neg (by omega)]
  · rw [x_advanced, Sim.x_store, hregs]
  · rw [handler_advanced, Sim.handler_store, hhandler]

end Words

/-! ### A message -/

/-- The guest loads its registers. -/
def loadRegs (s : Machine) (x : Vector Word 32) : Machine := { s with cpu := { s.cpu with x } }

/-- XORIN and KECCAKF for each block in turn. Between the blocks the guest may load registers,
which are listed. -/
inductive Absorbs (host : Host) (buf : Word) :
    List (Vector Word 32) → List Block → Machine → Machine → Prop where
  | done (s : Machine) : Absorbs host buf [] [] s s
  | load {loads : List (Vector Word 32)} {blocks : List Block} {s s' : Machine}
      (x : Vector Word 32) (hrest : Absorbs host buf loads blocks (loadRegs s x) s') :
      Absorbs host buf (x :: loads) blocks s s'
  | block {loads : List (Vector Word 32)} {b : Block} {blocks : List Block}
      {xorin keccakf : Word} {s s₁ t s' : Machine} (hx : IsXorin xorin) (hk : IsKeccakf keccakf)
      (hdst : xorinDst xorin s = buf) (hsrc : xorinSrc xorin s = b.src)
      (hlen : xorinLen xorin s = b.len) (hptr : s₁.cpu.readReg (rd keccakf) = buf)
      (hrun : (handle host xorin).run s = .ok .continue s₁)
      (hrun' : (handle host keccakf).run s₁ = .ok .continue t)
      (hrest : Absorbs host buf loads blocks t s') : Absorbs host buf loads (b :: blocks) s s'

/-- The message has been absorbed into the state at `buf`, and all other bytes, the registers as
last loaded and the handler are as they were. -/
structure Absorbed (buf : Word) (loads : List (Vector Word 32)) (blocks : List Block)
    (s t : Machine) : Prop where
  state : memoryArray t.cpu.mem buf =
    (blocks.map (·.bytes s.cpu.mem)).foldl Fips202.absorb (memoryArray s.cpu.mem buf)
  kept : ∀ a, Outside buf a → t.cpu.mem.readU8 a = s.cpu.mem.readU8 a
  message : ∀ b ∈ blocks, b.bytes t.cpu.mem = b.bytes s.cpu.mem
  regs : t.cpu.x = loads.getLastD s.cpu.x
  handler : t.handler = s.handler

theorem Absorbs.absorbed {host : Host} {buf : Word} {loads : List (Vector Word 32)}
    {blocks : List Block} {s t : Machine} (h : Absorbs host buf loads blocks s t)
    (hbeside : ∀ b ∈ blocks, b.Beside buf) : Absorbed buf loads blocks s t := by
  induction h with
  | done s => exact ⟨rfl, fun _ _ => rfl, nofun, rfl, rfl⟩
  | load x hrest ih =>
    obtain ⟨hstate, hkept, hmessage, hregs, hhandler⟩ := ih hbeside
    exact ⟨hstate, hkept, hmessage, hregs.trans List.getLastD_cons.symm, hhandler⟩
  | @block loads b blocks xorin keccakf s s₁ t s' hx hk hdst hsrc hlen hptr hrun hrun' hrest ih =>
    have hb := hbeside b List.mem_cons_self
    have hone := absorbsBlock hb hx hk hdst hsrc hlen hptr hrun hrun'
    have hrest' : ∀ c ∈ blocks, c.Beside buf := fun c hc => hbeside c (List.mem_cons_of_mem _ hc)
    have hall := ih hrest'
    have hkept : ∀ a, Outside buf a → s'.cpu.mem.readU8 a = s.cpu.mem.readU8 a :=
      fun a ha => (hall.kept a ha).trans (hone.kept a ha)
    -- the later blocks are outside of the state, and so still what they were
    have hlater : blocks.map (·.bytes t.cpu.mem) = blocks.map (·.bytes s.cpu.mem) :=
      List.map_congr_left fun c hc => (hrest' c hc).bytes_eq hone.kept
    refine ⟨?_, hkept, fun c hc => (hbeside c hc).bytes_eq hkept, ?_, ?_⟩
    · rw [hall.state, hlater, hone.state, List.map_cons, List.foldl_cons]
    · rw [hall.regs, hone.regs]
    · rw [hall.handler, hone.handler]

/-- XORIN of the bytes at `[x2]`, as many as `x3` says, into the state at `[x1]`. -/
def xorinX1 : Word := F7_XORIN <<< 25 ||| 3#32 <<< 20 ||| 2#32 <<< 15 ||| F3_HASH <<< 12 |||
  1#32 <<< 7 ||| OPCODE_CUSTOM_0

/-- KECCAKF of the state at `[x1]`. -/
def keccakfX1 : Word := F7_KECCAKF <<< 25 ||| F3_HASH <<< 12 ||| 1#32 <<< 7 ||| OPCODE_CUSTOM_0

/-- The registers that name a block. -/
def Block.regs (b : Block) (buf : Word) : Vector Word 32 :=
  (((Sim.blank.setReg 1#5 buf).setReg 2#5 b.src).setReg 3#5 (BitVec.ofNat 32 b.len)).cpu.x

/-- Messages can always be absorbed. -/
theorem exists_absorbs (host : Host) (buf : Word) (blocks : List Block)
    (hbeside : ∀ b ∈ blocks, b.Beside buf) (s : Machine) :
    ∃ loads s', Absorbs host buf loads blocks s s' := by
  induction blocks generalizing s with
  | nil => exact ⟨[], s, .done s⟩
  | cons b blocks ih =>
    have hfits := (hbeside b List.mem_cons_self).fits
    have hx : IsXorin xorinX1 := by decide
    have hk : IsKeccakf keccakfX1 := by decide
    have hlen : xorinLen xorinX1 (loadRegs s (b.regs buf)) = b.len :=
      (BitVec.toNat_ofNat b.len 32).trans (Nat.mod_eq_of_lt (by omega))
    have hrun : (handle host xorinX1).run (loadRegs s (b.regs buf)) = _ := xorin_run _ _ hx
    obtain ⟨loads, s', hrest⟩ := ih (fun c hc => hbeside c (List.mem_cons_of_mem _ hc)) _
    refine ⟨b.regs buf :: loads, s', .load _ (.block hx hk rfl rfl hlen ?_ hrun (keccakf_run hk _) hrest)⟩
    rw [Cpu.readReg_of_x _ (x_advanced _ _)]
    rfl

/-- **XORIN and KECCAKF for each block of a message outside of the state absorb the message: the
state becomes what the sponge makes of it, block by block, at any address and for any lengths up
to 200; every byte outside of the state, the registers and the I/O state are left as they
were.** -/
theorem sponge_absorbs (host : Host) (buf : Word) (blocks : List Block) (s : Machine)
    (hbeside : ∀ b ∈ blocks, b.Beside buf) :
    (∃ loads t, Absorbs host buf loads blocks s t) ∧
      ∀ loads t, Absorbs host buf loads blocks s t → Absorbed buf loads blocks s t :=
  ⟨exists_absorbs host buf blocks hbeside s, fun _ _ h => h.absorbed hbeside⟩

/-- A state around the end of the address space, and a block on each side of it. -/
theorem sponge_absorbs_wrapping :
    ∃ loads t, Absorbed 0xffffff9c#32 loads [⟨0x64#32, 136⟩, ⟨0xffffff98#32, 4⟩] Sim.blank t := by
  have hbeside : ∀ b ∈ [(⟨0x64#32, 136⟩ : Block), ⟨0xffffff98#32, 4⟩], b.Beside 0xffffff9c#32 := by
    have hout : ∀ b ∈ [(⟨0x64#32, 136⟩ : Block), ⟨0xffffff98#32, 4⟩], b.len ≤ 200 ∧
        ∀ i < b.len, 200 ≤ (b.src + BitVec.ofNat 32 i - 0xffffff9c#32).toNat := by decide +kernel
    exact fun b hb => ⟨(hout b hb).1, (hout b hb).2⟩
  obtain ⟨⟨loads, t, hrun⟩, hall⟩ := sponge_absorbs Host.constant 0xffffff9c#32 _ Sim.blank hbeside
  exact ⟨loads, t, hall loads t hrun⟩

end OpenvmSim.Precompiles
