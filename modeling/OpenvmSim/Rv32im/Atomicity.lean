import OpenvmSim.Rv32im.Cpu

/-! A step that fails changes nothing, and one that does not leaves the step counter
to the run loop.

Every opcode group of the interpreter reads the CPU, decides, and writes it in one
assignment. A step is as good as the handler of the custom opcodes it is given. -/
namespace OpenvmSim.Rv32im

/-! ### The opcode groups -/

section Groups
variable (insn : Word) (cpu : Cpu)

/-- The step counter is the one of `cpu`. -/
def SameCount (_ : Unit) (cpu' : Cpu) : Prop := cpu'.steps = cpu.steps

theorem execBranch_atomic : Atomic (Cpu.execBranch insn) cpu (SameCount cpu) := by
  refine atomic_get ?_
  repeat' refine atomic_ite (fun _ => ?_) fun _ => ?_
  all_goals rfl

theorem execLoad_atomic : Atomic (Cpu.execLoad insn) cpu (SameCount cpu) := by
  refine atomic_get ?_
  repeat' refine atomic_ite (fun _ => ?_) fun _ => ?_
  all_goals first
    | exact cpu.steps_writeReg _ _
    | rfl

theorem execStore_atomic : Atomic (Cpu.execStore insn) cpu (SameCount cpu) := by
  refine atomic_get ?_
  repeat' refine atomic_ite (fun _ => ?_) fun _ => ?_
  all_goals rfl

theorem execOpImm_atomic : Atomic (Cpu.execOpImm insn) cpu (SameCount cpu) := by
  refine atomic_get ?_
  repeat' refine atomic_ite (fun _ => ?_) fun _ => ?_
  all_goals first
    | exact cpu.steps_writeReg _ _
    | rfl

theorem execOp_atomic : Atomic (Cpu.execOp insn) cpu (SameCount cpu) := by
  refine atomic_get ?_
  repeat' refine atomic_ite (fun _ => ?_) fun _ => ?_
  all_goals first
    | exact cpu.steps_writeReg _ _
    | rfl

end Groups

/-! ### One step -/

/-- A word of one of the two custom opcodes. -/
def IsCustom (insn : Word) : Prop := opcode insn = OPCODE_CUSTOM_0 ∨ opcode insn = OPCODE_CUSTOM_1

theorem IsCustom.opcode_ne {insn op : Word} (h : IsCustom insn) (h0 : op ≠ OPCODE_CUSTOM_0)
    (h1 : op ≠ OPCODE_CUSTOM_1) : opcode insn ≠ op := by
  rintro rfl
  exact h.elim h0 h1

section Step
variable {H : Type} {handler : CustomOpHandler H} {Q : StepOutcome → Sim H → Prop} {s : Sim H}

theorem onCpu_atomic {m : CpuM Unit} (h : Atomic m s.cpu (SameCount s.cpu))
    (hq : ∀ cpu', cpu'.steps = s.cpu.steps → Q .continue { s with cpu := cpu' }) :
    Atomic (do onCpu m; return StepOutcome.continue) s Q := by
  refine atomic_bind (P := fun _ s' => Q .continue s') ?_ fun _ s' hs => ⟨.continue, s', rfl, hs⟩
  exact atomic_focus rfl h fun _ cpu' hc => hq cpu' hc

/-- An assignment to the CPU. -/
theorem onCpu_modify {f : Cpu → Cpu} (h : (f s.cpu).steps = s.cpu.steps)
    (hq : ∀ cpu', cpu'.steps = s.cpu.steps → Q .continue { s with cpu := cpu' }) :
    Atomic (do onCpu (modify f); return StepOutcome.continue) s Q := onCpu_atomic h hq

/-- A step changes the CPU and not its step counter, or is a call of the handler. -/
theorem exec_atomic (pc insn : Word)
    (hq : ∀ cpu', cpu'.steps = s.cpu.steps → Q .continue { s with cpu := cpu' })
    (hh : IsCustom insn → Atomic (handler.handle insn) s Q) :
    Atomic (Cpu.exec handler pc insn) s Q := by
  refine atomic_ite (fun _ => onCpu_modify (s.cpu.steps_writeReg _ _) hq) fun _ =>
    atomic_ite (fun _ => onCpu_modify (s.cpu.steps_writeReg _ _) hq) fun _ =>
    atomic_ite (fun _ => onCpu_modify (s.cpu.steps_writeReg _ _) hq) fun _ =>
    atomic_ite (fun _ => onCpu_modify (s.cpu.steps_writeReg _ _) hq) fun _ =>
    atomic_ite (fun _ => onCpu_atomic (execBranch_atomic insn s.cpu) hq) fun _ =>
    atomic_ite (fun _ => onCpu_atomic (execLoad_atomic insn s.cpu) hq) fun _ =>
    atomic_ite (fun _ => onCpu_atomic (execStore_atomic insn s.cpu) hq) fun _ =>
    atomic_ite (fun _ => onCpu_atomic (execOpImm_atomic insn s.cpu) hq) fun _ =>
    atomic_ite (fun _ => onCpu_atomic (execOp_atomic insn s.cpu) hq) fun _ =>
    atomic_ite (fun _ => onCpu_modify rfl hq) fun _ => atomic_ite (fun _ => ?_) fun _ =>
    atomic_ite (fun hop => hh hop) fun _ => atomic_throw _
  exact atomic_ite (fun _ => atomic_throw _) fun _ =>
    atomic_ite (fun _ => atomic_throw _) fun _ => atomic_throw _

theorem step_atomic (hq : ∀ cpu', cpu'.steps = s.cpu.steps → Q .continue { s with cpu := cpu' })
    (hh : IsCustom s.cpu.fetch → Atomic (handler.handle s.cpu.fetch) s Q) :
    Atomic (Cpu.step handler) s Q :=
  atomic_get (exec_atomic _ _ hq hh)

/-- On a custom word a step is a call of the handler. -/
theorem step_custom (handler : CustomOpHandler H) (h : IsCustom s.cpu.fetch) :
    (Cpu.step handler).run s = (handler.handle s.cpu.fetch).run s := by
  show (Cpu.exec handler s.cpu.pc s.cpu.fetch).run s = _
  unfold Cpu.exec
  rw [if_neg (h.opcode_ne (by decide) (by decide)), if_neg (h.opcode_ne (by decide) (by decide)),
    if_neg (h.opcode_ne (by decide) (by decide)), if_neg (h.opcode_ne (by decide) (by decide)),
    if_neg (h.opcode_ne (by decide) (by decide)), if_neg (h.opcode_ne (by decide) (by decide)),
    if_neg (h.opcode_ne (by decide) (by decide)), if_neg (h.opcode_ne (by decide) (by decide)),
    if_neg (h.opcode_ne (by decide) (by decide)), if_neg (h.opcode_ne (by decide) (by decide)),
    if_neg (h.opcode_ne (by decide) (by decide))]
  exact congrArg (EStateM.run · s) (if_pos h)

/-- A handler that leaves everything alone unless it returns, and the step counter
even then. -/
def CustomOpHandler.Careful (handler : CustomOpHandler H) : Prop :=
  ∀ insn s, Atomic (handler.handle insn) s fun _ s' => s'.cpu.steps = s.cpu.steps

theorem CustomOpHandler.Careful.step (hh : handler.Careful) (s : Sim H) :
    Atomic (Cpu.step handler) s fun _ s' => s'.cpu.steps = s.cpu.steps :=
  step_atomic (fun _ h => h) fun _ => hh _ s

end Step

end OpenvmSim.Rv32im
