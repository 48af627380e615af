import OpenvmSim.Base.Agreement
import OpenvmSim.Rv32im.FlatMemory
import OpenvmSim.Rv32im.Resume

/-! Machines that look alike.

Two CPUs have the same view if their registers, pc, step counter and bytes are the same,
however the bytes are laid out on pages. Every instruction of the interpreter itself sees the
view only, so that two machines with one view stay together for as long as the handler of the
custom opcodes keeps them together (`run_agree`). What is asked of the two handler states is
left open. -/
namespace OpenvmSim.Rv32im

namespace Memory

/-- Reading sees the bytes. -/
theorem readU32_congr {m m' : Memory} (h : m'.bytes = m.bytes) : m'.readU32 = m.readU32 := by
  funext a
  rw [readU32_eq, readU32_eq, h]

theorem readU16_congr {m m' : Memory} (h : m'.bytes = m.bytes) : m'.readU16 = m.readU16 := by
  funext a
  rw [readU16_eq, readU16_eq, h]

theorem readVec_congr {m m' : Memory} (h : m'.bytes = m.bytes) : m'.readVec = m.readVec := by
  funext a n
  rw [readVec_eq_load, readVec_eq_load, h]

end Memory

namespace Cpu

/-- What a program can see of a CPU. -/
structure SameView (c d : Cpu) : Prop where
  pc : d.pc = c.pc
  reg : d.readReg = c.readReg
  bytes : d.mem.bytes = c.mem.bytes
  steps : d.steps = c.steps

namespace SameView

theorem refl (c : Cpu) : SameView c c := ⟨rfl, rfl, rfl, rfl⟩

variable {c d : Cpu} (h : SameView c d)
include h

theorem fetch : d.fetch = c.fetch := by
  rw [Cpu.fetch, Cpu.fetch, h.pc, Memory.readU32_congr h.bytes]

theorem writeReg (r : Reg) (v : Word) : SameView (c.writeReg r v) (d.writeReg r v) where
  pc := by rw [pc_writeReg, pc_writeReg, h.pc]
  reg := by
    funext r'
    by_cases hr : r = 0#5
    · rw [Cpu.writeReg, Cpu.writeReg, if_pos hr, if_pos hr, h.reg]
    · by_cases hne : r' = r
      · rw [hne, readReg_writeReg_self _ _ _ hr, readReg_writeReg_self _ _ _ hr]
      · rw [readReg_writeReg_ne _ _ _ hne, readReg_writeReg_ne _ _ _ hne, h.reg]
  bytes := by rw [mem_writeReg, mem_writeReg, h.bytes]
  steps := by rw [steps_writeReg, steps_writeReg, h.steps]

theorem withPc (pc : Word) : SameView { c with pc } { d with pc } := ⟨rfl, h.reg, h.bytes, h.steps⟩

theorem withMem {m m' : Memory} (hm : m'.bytes = m.bytes) :
    SameView { c with mem := m } { d with mem := m' } := ⟨h.pc, h.reg, hm, h.steps⟩

end SameView

/-! ### The opcode groups -/

section Groups
variable {Excused : Stop CpuError → Prop} {c d : Cpu} (insn : Word) (h : SameView c d)
include h

theorem execBranch_agree :
    Agree Excused SameView ((execBranch insn).run c) ((execBranch insn).run d) := by
  refine agree_get ?_
  simp only [h.reg, h.pc]
  iterate 6 refine agree_ite (fun _ => agree_set (h.withPc _)) fun _ => ?_
  exact agree_throw _ h

theorem execLoad_agree :
    Agree Excused SameView ((execLoad insn).run c) ((execLoad insn).run d) := by
  have hread : d.mem.readU8 = c.mem.readU8 := h.bytes
  refine agree_get ?_
  simp only [h.reg, h.pc, hread, Memory.readU16_congr h.bytes, Memory.readU32_congr h.bytes]
  iterate 5 refine agree_ite (fun _ => agree_set ((h.writeReg _ _).withPc _)) fun _ => ?_
  exact agree_throw _ h

theorem execStore_agree :
    Agree Excused SameView ((execStore insn).run c) ((execStore insn).run d) := by
  refine agree_get ?_
  simp only [h.reg, h.pc]
  have hset : ∀ {m m' : Memory}, m'.bytes = m.bytes → Agree Excused SameView
      ((set { c with mem := m, pc := c.pc + 4#32 } : CpuM PUnit).run c)
      ((set { d with mem := m', pc := c.pc + 4#32 } : CpuM PUnit).run d) := fun hm =>
    agree_set ((h.withMem hm).withPc _)
  refine agree_ite (fun _ => hset ?_) fun _ => agree_ite (fun _ => hset ?_) fun _ =>
    agree_ite (fun _ => hset ?_) fun _ => agree_throw _ h
  · rw [Memory.bytes_writeU8, Memory.bytes_writeU8, h.bytes]
  · rw [Memory.bytes_writeU16, Memory.bytes_writeU16, h.bytes]
  · rw [Memory.bytes_writeU32, Memory.bytes_writeU32, h.bytes]

theorem execOpImm_agree :
    Agree Excused SameView ((execOpImm insn).run c) ((execOpImm insn).run d) := by
  refine agree_get ?_
  simp only [h.reg, h.pc]
  have hset : ∀ v, Agree Excused SameView
      ((set { c.writeReg (rd insn) v with pc := c.pc + 4#32 } : CpuM PUnit).run c)
      ((set { d.writeReg (rd insn) v with pc := c.pc + 4#32 } : CpuM PUnit).run d) := fun v =>
    agree_set ((h.writeReg _ v).withPc _)
  iterate 7 refine agree_ite (fun _ => hset _) fun _ => ?_
  refine agree_ite (fun _ => ?_) fun _ => agree_throw _ h
  -- the two shifts to the right
  exact agree_ite (fun _ => hset _) fun _ => agree_ite (fun _ => hset _) fun _ => agree_throw _ h

theorem execOp_agree :
    Agree Excused SameView ((execOp insn).run c) ((execOp insn).run d) := by
  refine agree_get ?_
  simp only [h.reg, h.pc]
  have hset : ∀ v, Agree Excused SameView
      ((set { c.writeReg (rd insn) v with pc := c.pc + 4#32 } : CpuM PUnit).run c)
      ((set { d.writeReg (rd insn) v with pc := c.pc + 4#32 } : CpuM PUnit).run d) := fun v =>
    agree_set ((h.writeReg _ v).withPc _)
  iterate 14 refine agree_ite (fun _ => hset _) fun _ => ?_
  -- divisions and remainders decide on their operands first
  refine agree_ite (fun _ => ?_) fun _ => agree_ite (fun _ => ?_) fun _ =>
    agree_ite (fun _ => ?_) fun _ => agree_ite (fun _ => ?_) fun _ => agree_throw _ h
  · exact agree_ite (fun _ => hset _) fun _ => agree_ite (fun _ => hset _) fun _ => hset _
  · exact agree_ite (fun _ => hset _) fun _ => hset _
  · exact agree_ite (fun _ => hset _) fun _ => agree_ite (fun _ => hset _) fun _ => hset _
  · exact agree_ite (fun _ => hset _) fun _ => hset _

end Groups

end Cpu

/-! ### One step -/

section Step
variable {H : Type} {handler : CustomOpHandler H} {Excused : Stop CpuError → Prop}
variable {RH : H → H → Prop} {s t : Sim H}

/-- Two machines with the same view whose handler states are related. -/
structure Together (RH : H → H → Prop) (s t : Sim H) : Prop where
  cpu : Cpu.SameView s.cpu t.cpu
  handler : RH s.handler t.handler

/-- The handler keeps machines together, unless it stops the first one with an excuse. -/
def CustomOpHandler.KeepsTogether (handler : CustomOpHandler H) (Excused : Stop CpuError → Prop)
    (RH : H → H → Prop) : Prop :=
  ∀ insn s t, Together RH s t →
    Agree Excused (Together RH) ((handler.handle insn).run s) ((handler.handle insn).run t)

theorem onCpu_agree {m m' : CpuM Unit} (h : Together RH s t)
    (hm : Agree Excused Cpu.SameView (m.run s.cpu) (m'.run t.cpu)) :
    Agree Excused (Together RH) ((onCpu m : SimM H Unit).run s) ((onCpu m' : SimM H Unit).run t) := by
  rw [onCpu, onCpu, run_focus, run_focus]
  generalize m.run s.cpu = r at hm
  generalize m'.run t.cpu = r' at hm
  cases hm with
  | ok hc => exact .ok ⟨hc, h.handler⟩
  | error hc => exact .error ⟨hc, h.handler⟩
  | excused he => exact .excused he

theorem exec_agree (hh : handler.KeepsTogether Excused RH) (h : Together RH s t) (pc insn : Word) :
    Agree Excused (Together RH) ((Cpu.exec handler pc insn).run s)
      ((Cpu.exec handler pc insn).run t) := by
  have hcpu : ∀ {m : CpuM Unit}, Agree Excused Cpu.SameView (m.run s.cpu) (m.run t.cpu) →
      Agree Excused (Together RH) ((do onCpu m; return .continue : SimM H StepOutcome).run s)
        ((do onCpu m; return .continue : SimM H StepOutcome).run t) := fun hm =>
    agree_bind (onCpu_agree h hm) fun _ _ _ hc => agree_pure _ hc
  refine agree_ite (fun _ => hcpu (agree_modify ((h.cpu.writeReg _ _).withPc _))) fun _ =>
    agree_ite (fun _ => hcpu (agree_modify ((h.cpu.writeReg _ _).withPc _))) fun _ =>
    agree_ite (fun _ => hcpu (agree_modify ((h.cpu.writeReg _ _).withPc _))) fun _ =>
    agree_ite (fun _ => hcpu ?_) fun _ =>
    agree_ite (fun _ => hcpu (Cpu.execBranch_agree insn h.cpu)) fun _ =>
    agree_ite (fun _ => hcpu (Cpu.execLoad_agree insn h.cpu)) fun _ =>
    agree_ite (fun _ => hcpu (Cpu.execStore_agree insn h.cpu)) fun _ =>
    agree_ite (fun _ => hcpu (Cpu.execOpImm_agree insn h.cpu)) fun _ =>
    agree_ite (fun _ => hcpu (Cpu.execOp_agree insn h.cpu)) fun _ =>
    agree_ite (fun _ => hcpu (agree_modify (h.cpu.withPc _))) fun _ =>
    agree_ite (fun _ => ?_) fun _ => agree_ite (fun _ => hh insn s t h) fun _ => agree_throw _ h
  · refine agree_modify ?_
    rw [h.cpu.reg]
    exact (h.cpu.writeReg _ _).withPc _
  · exact agree_ite (fun _ => agree_throw _ h) fun _ => agree_ite (fun _ => agree_throw _ h)
      fun _ => agree_throw _ h

theorem step_agree (hh : handler.KeepsTogether Excused RH) (h : Together RH s t) :
    Agree Excused (Together RH) ((Cpu.step handler).run s) ((Cpu.step handler).run t) := by
  refine agree_get ?_
  rw [h.cpu.pc, h.cpu.fetch]
  exact exec_agree hh h _ _

/-! ### A run -/

theorem Together.countStep (h : Together RH s t) : Together RH s.countStep t.countStep where
  cpu := ⟨h.cpu.pc, h.cpu.reg, h.cpu.bytes, congrArg (· + 1) h.cpu.steps⟩
  handler := h.handler

theorem runLoop_agree (hh : handler.KeepsTogether Excused RH) (n bound : ℕ)
    (h : Together RH s t) :
    Agree Excused (Together RH) ((Cpu.runLoop handler n bound).run s)
      ((Cpu.runLoop handler n bound).run t) := by
  induction bound generalizing s t with
  | zero => exact agree_throw _ h
  | succ bound ih =>
    refine agree_get ?_
    rw [h.cpu.steps, h.cpu.pc]
    refine agree_ite (fun _ => agree_throw _ h) fun _ =>
      agree_bind (step_agree hh h) fun o s₁ t₁ h₁ => ?_
    cases o with
    | «continue» => exact ih h₁.countStep
    | terminated code => exact agree_pure _ h₁

/-- Machines that look alike run alike. -/
theorem run_agree (hh : handler.KeepsTogether Excused RH) (n : ℕ) (h : Together RH s t) :
    Agree Excused (Together RH) ((Cpu.run handler n).run s) ((Cpu.run handler n).run t) := by
  refine agree_get ?_
  rw [h.cpu.steps]
  exact runLoop_agree hh n _ h

end Step

end OpenvmSim.Rv32im
