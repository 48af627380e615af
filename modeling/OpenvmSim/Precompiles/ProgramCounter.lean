import OpenvmSim.Precompiles.Effects

/-! The program counter after a custom instruction.

The dispatcher advances the program counter when it finds it where it was. That is
right for every handler that never moves it, and for BEQ256 with any offset but
zero: a taken branch to itself looks like a handler that did not move. -/
namespace OpenvmSim.Precompiles
open Rv32im

/-- A BEQ256 whose two operands are equal. -/
def IsTaken (insn : Word) (cpu : Cpu) : Prop :=
  IsBeq256 insn ∧
    read32 cpu.mem (cpu.readReg (rs1 insn)) = read32 cpu.mem (cpu.readReg (rs2 insn))

instance (insn : Word) (cpu : Cpu) : Decidable (IsTaken insn cpu) := inferInstanceAs (Decidable (_ ∧ _))

/-- Where a custom instruction goes: to the branch target, or to the next word. -/
def target (insn : Word) (cpu : Cpu) : Word :=
  if IsTaken insn cpu then cpu.pc + immB insn else cpu.pc + 4#32

section Pc
variable {host : Host} {insn : Word} {s s' : Machine}

/-- A BEQ256 goes to its target, and every other word stays. -/
theorem pc_of_effect (h : WordEffect host insn s s') :
    s'.cpu.pc = if IsBeq256 insn then target insn s.cpu else s.cpu.pc := by
  by_cases hb : IsBeq256 insn
  · rw [WordEffect, kindOf_beq256 _ hb] at h
    obtain _ | _ | _ | _ | hb := h
    rw [if_pos hb, Sim.pc_setPc, target]
    exact if_congr ⟨fun heq => ⟨hb, heq⟩, fun ht => ht.2⟩ rfl rfl
  · rw [if_neg hb]
    obtain ⟨k, he⟩ : ∃ k, Effect host insn s k s' := ⟨_, h⟩
    cases he with
    | beq256 hb' => exact absurd hb' hb
    | _ => simp

theorem next_ne (pc : Word) : pc + 4#32 ≠ pc := by
  intro h
  simp at h

/-- After a custom instruction that continues, the program counter is at the branch
target of a taken BEQ256 and at the next word otherwise, unless the instruction is a
taken BEQ256 with offset zero: that one never gets there. -/
theorem handle_pc_iff (host : Host) (insn : Word) (s s' : Machine)
    (h : (handle host insn).run s = .ok .continue s') :
    s'.cpu.pc = target insn s.cpu ↔ ¬(IsTaken insn s.cpu ∧ immB insn = 0#32) := by
  obtain _ | ⟨-, he⟩ := (handle_atomic host s insn).of_ok h
  rw [pc_advanced, pc_of_effect he]
  by_cases hb : IsBeq256 insn
  · rw [if_pos hb, target]
    by_cases ht : IsTaken insn s.cpu
    · rw [if_pos ht]
      by_cases hz : immB insn = 0#32
      · have hstay : s.cpu.pc + immB insn = s.cpu.pc := by rw [hz, BitVec.add_zero]
        rw [if_pos hstay, hstay]
        exact ⟨fun hn => absurd hn (next_ne _), fun hn => absurd ⟨ht, hz⟩ hn⟩
      · have hmove : s.cpu.pc + immB insn ≠ s.cpu.pc := fun hc => hz (by simpa using hc)
        rw [if_neg hmove]
        exact ⟨fun _ hn => hz hn.2, fun _ => rfl⟩
    · rw [if_neg ht, if_neg (next_ne _)]
      exact ⟨fun _ hn => ht hn.1, fun _ => rfl⟩
  · have ht : ¬IsTaken insn s.cpu := fun ht => hb ht.1
    rw [if_neg hb, if_pos rfl, target, if_neg ht]
    exact ⟨fun _ hn => ht hn.1, fun _ => rfl⟩

/-- BEQ256 of `x0` with `x0` and offset zero. -/
def beq256Self : Word := F3_BEQ256 <<< 12 ||| OPCODE_CUSTOM_0

/-- XORIN of no bytes. -/
def xorinNothing : Word := F7_XORIN <<< 25 ||| F3_HASH <<< 12 ||| OPCODE_CUSTOM_0

theorem handle_pc_iff_xorin :
    ∃ s', (handle Host.constant xorinNothing).run Sim.blank = .ok .continue s' ∧
      (s'.cpu.pc = target xorinNothing Sim.blank.cpu ↔
        ¬(IsTaken xorinNothing Sim.blank.cpu ∧ immB xorinNothing = 0#32)) :=
  ⟨_, rfl, handle_pc_iff Host.constant xorinNothing Sim.blank _ rfl⟩

/-- The branch to itself ends up behind itself. -/
theorem beq256_self_advances :
    ∃ s', (handle Host.constant beq256Self).run Sim.blank = .ok .continue s' ∧
      IsTaken beq256Self Sim.blank.cpu ∧ immB beq256Self = 0#32 ∧
      s'.cpu.pc ≠ Sim.blank.cpu.pc + immB beq256Self :=
  ⟨_, rfl, by decide, by decide, by decide⟩

end Pc

end OpenvmSim.Precompiles
