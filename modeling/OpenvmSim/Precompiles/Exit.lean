import OpenvmSim.Precompiles.Step
import OpenvmSim.Rv32im.FlatMemory
import OpenvmSim.Rv32im.Resume

/-! The exit code of a run.

TERMINATE returns the register `rs1`. A guest that puts its exit code in the
immediate and leaves `rs1` at `x0` therefore exits with zero, whatever the code. -/
namespace OpenvmSim.Precompiles
open Rv32im

/-- TERMINATE as the guests encode it: I-type, with `rd` and `rs1` both `x0`. -/
def IsGuestTerminate (insn : Word) : Prop := IsTerminate insn ∧ rd insn = 0#5 ∧ rs1 insn = 0#5

instance (insn : Word) : Decidable (IsGuestTerminate insn) := inferInstanceAs (Decidable (_ ∧ _))

theorem handle_terminate (host : Host) {insn : Word} (h : IsTerminate insn) (s : Machine) :
    (handle host insn).run s = .ok (.terminated (s.cpu.readReg (rs1 insn))) s := by
  have hdispatch : (dispatch host insn).run s = .ok (.terminated (s.cpu.readReg (rs1 insn))) s := by
    show (if opcode insn = OPCODE_CUSTOM_0 then handleCustom0 host insn (funct3 insn)
      else _ : HandlerM StepOutcome).run s = _
    rw [if_pos h.1, handleCustom0, if_pos h.2]
    rfl
  show (dispatch host insn >>= _ : HandlerM StepOutcome).run s = _
  rw [EStateM.run_bind, hdispatch]
  rfl

/-- A run that ends at a TERMINATE returns the register it names. -/
theorem run_terminate (host : Host) {s t : Machine} {trace : List Machine} {maxSteps : ℕ}
    (hrun : Run (customOps host) s trace t) (hlim : t.cpu.steps < maxSteps)
    (hterm : IsTerminate t.cpu.fetch) :
    (Cpu.run (customOps host) maxSteps).run s = .ok (t.cpu.readReg (rs1 t.cpu.fetch)) t := by
  refine run_eq (customOps_careful host) hrun hlim ?_
  rw [step_custom _ (.inl hterm.1)]
  exact handle_terminate host hterm t

/-- A run that ends at a guest's TERMINATE returns the exit code in its immediate if
and only if that code is zero. -/
theorem run_exit_iff (host : Host) (s t : Machine) (trace : List Machine) (maxSteps : ℕ)
    (hrun : Run (customOps host) s trace t) (hlim : t.cpu.steps < maxSteps)
    (hterm : IsGuestTerminate t.cpu.fetch) :
    (∃ t', (Cpu.run (customOps host) maxSteps).run s = .ok (imm12 t.cpu.fetch) t') ↔
      imm12 t.cpu.fetch = 0#32 := by
  have hzero : t.cpu.readReg (rs1 t.cpu.fetch) = 0#32 := by
    rw [hterm.2.2]
    rfl
  rw [run_terminate host hrun hlim hterm.1, hzero]
  constructor
  · rintro ⟨t', h⟩
    injection h with hcode
    exact hcode.symm
  · intro h
    exact ⟨t, by rw [h]⟩

/-- `.insn i 0x0b, 0, x0, x0, code` -/
def terminateWord (code : BitVec 12) : Word := code.setWidth 32 <<< 20 ||| OPCODE_CUSTOM_0

/-- A machine about to run a TERMINATE with exit code `code`. -/
def terminating (code : BitVec 12) : Machine :=
  Sim.blank.setMem (Memory.new.writeU32 0#32 (terminateWord code))

theorem terminating_fetch (code : BitVec 12) :
    (terminating code).cpu.fetch = terminateWord code := by
  have hpc : Sim.blank.cpu.pc = 0#32 := rfl
  rw [Cpu.fetch, terminating, Sim.mem_setMem, Sim.pc_setMem, hpc]
  exact Memory.readU32_writeU32 _ _ _

theorem run_exit_iff_normal :
    (∃ t', (Cpu.run (customOps Host.constant) 1).run (terminating 0#12) =
      .ok (imm12 (terminating 0#12).cpu.fetch) t') ↔ imm12 (terminating 0#12).cpu.fetch = 0#32 := by
  refine run_exit_iff Host.constant _ _ [] 1 (.done _) Nat.one_pos ?_
  rw [terminating_fetch]
  decide

/-- The exit of the guests' panic handler is reported as success. -/
theorem panic_exits_with_zero :
    IsGuestTerminate (terminating 1#12).cpu.fetch ∧ imm12 (terminating 1#12).cpu.fetch = 1#32 ∧
      (Cpu.run (customOps Host.constant) 1).run (terminating 1#12) = .ok 0#32 (terminating 1#12) := by
  have hguest : IsGuestTerminate (terminating 1#12).cpu.fetch := by
    rw [terminating_fetch]
    decide
  refine ⟨hguest, ?_, ?_⟩
  · rw [terminating_fetch]
    decide
  · rw [run_terminate Host.constant (.done _) Nat.one_pos hguest.1, hguest.2.2]
    rfl

end OpenvmSim.Precompiles
