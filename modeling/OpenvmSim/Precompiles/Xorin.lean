import OpenvmSim.Base.InPlace
import OpenvmSim.Precompiles.Outcomes

/-! What XORIN does where its regions overlap.

The bytes are combined in place, one after the other. A source byte that lies in the part of
the destination that has been written already is read as it is then, not as it was before the
instruction. -/
namespace OpenvmSim.Precompiles
open Rv32im

theorem bytes_xorBytes (mem : Memory) (dst src : Word) (len : ℕ) :
    (xorBytes mem dst src len).bytes = Flat.combine (· ^^^ ·) mem.bytes dst src len := by
  induction len with
  | zero => rfl
  | succ n ih =>
    rw [Flat.combine, ← ih, xorBytes, Nat.fold_succ, Memory.bytes_writeU8]
    rfl

theorem xor_eq_left_iff (x y : Byte) : x ^^^ y = x ↔ y = 0#8 := by
  rw [← BitVec.xor_right_inj (x := y) (y := 0#8) x, BitVec.xor_zero]

section Word
variable (insn : Word) (s : Machine)

def xorinDst : Word := s.cpu.readReg (rd insn)

def xorinSrc : Word := s.cpu.readReg (rs1 insn)

def xorinLen : ℕ := (s.cpu.readReg (rs2 insn)).toNat

theorem xorinLen_le : xorinLen insn s ≤ 2 ^ 32 := (BitVec.isLt _).le

/-- Each destination byte is combined with the source byte, both as they were in `s`, and
nothing else has changed. -/
structure XorsInto (s' : Machine) : Prop where
  xored : ∀ i < xorinLen insn s,
    s'.cpu.mem.readU8 (xorinDst insn s + BitVec.ofNat 32 i) =
      s.cpu.mem.readU8 (xorinDst insn s + BitVec.ofNat 32 i) ^^^
        s.cpu.mem.readU8 (xorinSrc insn s + BitVec.ofNat 32 i)
  kept : ∀ a, (∀ i < xorinLen insn s, a ≠ xorinDst insn s + BitVec.ofNat 32 i) →
    s'.cpu.mem.readU8 a = s.cpu.mem.readU8 a
  regs : s'.cpu.x = s.cpu.x
  io : s'.handler = s.handler

theorem xorin_run {host : Host} (h : IsXorin insn) : (handle host insn).run s =
    .ok .continue (advanced s.cpu.pc (s.setMem (xorBytes s.cpu.mem (xorinDst insn s)
      (xorinSrc insn s) (xorinLen insn s)))) := by
  refine handle_run_ok (calls_hash h.1) ?_
  show (if funct7 insn = F7_KECCAKF then _ else if funct7 insn = F7_XORIN then doXorin insn
    else _ : HandlerM Unit).run s = _
  rw [h.2]
  rfl

/-- The bytes outside the destination, the registers and the I/O state never change. -/
theorem xorsInto_iff_xored : XorsInto insn s (advanced s.cpu.pc (s.setMem (xorBytes s.cpu.mem
    (xorinDst insn s) (xorinSrc insn s) (xorinLen insn s)))) ↔
    ∀ i < xorinLen insn s, Flat.combine (· ^^^ ·) s.cpu.mem.bytes (xorinDst insn s)
      (xorinSrc insn s) (xorinLen insn s) (xorinDst insn s + BitVec.ofNat 32 i) =
        s.cpu.mem.bytes (xorinDst insn s + BitVec.ofNat 32 i) ^^^
          s.cpu.mem.bytes (xorinSrc insn s + BitVec.ofNat 32 i) := by
  have hbytes : (advanced s.cpu.pc (s.setMem (xorBytes s.cpu.mem (xorinDst insn s)
      (xorinSrc insn s) (xorinLen insn s)))).cpu.mem.bytes = Flat.combine (· ^^^ ·)
        s.cpu.mem.bytes (xorinDst insn s) (xorinSrc insn s) (xorinLen insn s) := by
    rw [mem_advanced, Sim.mem_setMem, bytes_xorBytes]
  constructor
  · intro h i hi
    rw [← hbytes]
    exact h.xored i hi
  · refine fun h => ⟨fun i hi => ?_, fun a ha => ?_, by simp, by simp⟩
    · rw [← Memory.bytes_apply, hbytes]
      exact h i hi
    · rw [← Memory.bytes_apply, hbytes, Flat.combine_apply _ _ _ _ (xorinLen_le insn s), if_neg]
      · rfl
      · exact fun hlt => ha _ hlt (Flat.eq_add_distance a _)

/-- XORIN combines the bytes as they were before the instruction if and only if the source bytes
that it overwrites before it reads them are combined with zero. -/
theorem xorin_iff (host : Host) (h : IsXorin insn) :
    (∃ s', (handle host insn).run s = .ok .continue s' ∧ XorsInto insn s s') ↔
      Flat.SourceKept s.cpu.mem.readU8 (xorinDst insn s) (xorinSrc insn s) 0#8
        (xorinLen insn s) := by
  refine Iff.trans ?_ (Flat.combine_law_iff s.cpu.mem.bytes (xorinDst insn s) (xorinSrc insn s)
    xor_eq_left_iff (fun x y z => (BitVec.xor_right_inj x).mp) (xorinLen_le insn s))
  rw [xorin_run insn s h, ← xorsInto_iff_xored]
  constructor
  · rintro ⟨s', hrun, hx⟩
    cases hrun
    exact hx
  · exact fun hx => ⟨_, rfl, hx⟩

end Word

/-- XORIN of `x2` bytes from address zero into the buffer at `[x1]`. -/
def xorinWord : Word := F7_XORIN <<< 25 ||| 2#32 <<< 20 ||| F3_HASH <<< 12 ||| 1#32 <<< 7 |||
  OPCODE_CUSTOM_0

/-- A machine about to combine two bytes, the first of them a one, into the buffer at `dst`. -/
def xorinMachine (dst : Word) : Machine :=
  ((Sim.blank.setReg 1#5 dst).setReg 2#5 2#32).store 0#32 [1#8]

/-- The buffer begins where the source ends. -/
theorem xorin_iff_apart : ∃ s', (handle Host.constant xorinWord).run (xorinMachine 2#32) =
    .ok .continue s' ∧ XorsInto xorinWord (xorinMachine 2#32) s' := by
  refine (xorin_iff xorinWord (xorinMachine 2#32) Host.constant (by decide)).mpr (.inr ?_)
  have hlead : Flat.lead (xorinDst xorinWord (xorinMachine 2#32))
      (xorinSrc xorinWord (xorinMachine 2#32)) = 2 := by decide
  have hlen : xorinLen xorinWord (xorinMachine 2#32) = 2 := by decide
  intro j hj
  omega

/-- The buffer begins at the second byte of the source, which is read after it has become one. -/
theorem xorin_overlap : ¬∀ (host : Host) (insn : Word) (s : Machine), IsXorin insn →
    ∃ s', (handle host insn).run s = .ok .continue s' ∧ XorsInto insn s s' := by
  intro h
  obtain ⟨s', hrun, hx⟩ := h Host.constant xorinWord (xorinMachine 1#32) (by decide)
  rw [xorin_run xorinWord (xorinMachine 1#32) (by decide)] at hrun
  cases hrun
  have hxored := hx.xored 1 (by decide)
  revert hxored
  decide

end OpenvmSim.Precompiles
