import OpenvmSim.Base.Panic
import OpenvmSim.Rv32im.Atomicity

/-! The interpreter itself never panics.

The one panic of its own, for a funct3 that is none of the eight, is never reached. What is
left are the panics of the handler of the custom opcodes. -/
namespace OpenvmSim.Rv32im

section Groups
variable (insn : Word) (cpu : Cpu)

theorem execBranch_returns : Returns (Cpu.execBranch insn) cpu := by
  refine returns_get ?_
  repeat' refine returns_ite (fun _ => ?_) fun _ => ?_
  all_goals first
    | exact .inl ⟨_, _, rfl⟩
    | exact .inr ⟨_, _, rfl⟩

theorem execLoad_returns : Returns (Cpu.execLoad insn) cpu := by
  refine returns_get ?_
  repeat' refine returns_ite (fun _ => ?_) fun _ => ?_
  all_goals first
    | exact .inl ⟨_, _, rfl⟩
    | exact .inr ⟨_, _, rfl⟩

theorem execStore_returns : Returns (Cpu.execStore insn) cpu := by
  refine returns_get ?_
  repeat' refine returns_ite (fun _ => ?_) fun _ => ?_
  all_goals first
    | exact .inl ⟨_, _, rfl⟩
    | exact .inr ⟨_, _, rfl⟩

/-- A funct3 is one of the eight three-bit numbers. -/
theorem funct3_cases : funct3 insn = 0#32 ∨ funct3 insn = 2#32 ∨ funct3 insn = 3#32 ∨
    funct3 insn = 4#32 ∨ funct3 insn = 6#32 ∨ funct3 insn = 7#32 ∨ funct3 insn = 1#32 ∨
    funct3 insn = 5#32 := by
  have hlt := funct3_lt insn
  simp only [← BitVec.toNat_inj, BitVec.toNat_ofNat]
  omega

theorem execOpImm_returns : Returns (Cpu.execOpImm insn) cpu := by
  refine returns_get ?_
  refine returns_ite (fun _ => .inl ⟨_, _, rfl⟩) fun h0 => ?_
  refine returns_ite (fun _ => .inl ⟨_, _, rfl⟩) fun h2 => ?_
  refine returns_ite (fun _ => .inl ⟨_, _, rfl⟩) fun h3 => ?_
  refine returns_ite (fun _ => .inl ⟨_, _, rfl⟩) fun h4 => ?_
  refine returns_ite (fun _ => .inl ⟨_, _, rfl⟩) fun h6 => ?_
  refine returns_ite (fun _ => .inl ⟨_, _, rfl⟩) fun h7 => ?_
  refine returns_ite (fun _ => .inl ⟨_, _, rfl⟩) fun h1 => ?_
  refine returns_ite (fun _ => ?_) fun h5 => ?_
  · refine returns_ite (fun _ => .inl ⟨_, _, rfl⟩) fun _ => ?_
    exact returns_ite (fun _ => .inl ⟨_, _, rfl⟩) fun _ => .inr ⟨_, _, rfl⟩
  · obtain h | h | h | h | h | h | h | h := funct3_cases insn <;> contradiction

theorem execOp_returns : Returns (Cpu.execOp insn) cpu := by
  refine returns_get ?_
  repeat' refine returns_ite (fun _ => ?_) fun _ => ?_
  all_goals first
    | exact .inl ⟨_, _, rfl⟩
    | exact .inr ⟨_, _, rfl⟩

end Groups

section Step
variable {H : Type} {handler : CustomOpHandler H} {s : Sim H} {c : Prop}

theorem onCpu_returns {m : CpuM Unit} (h : Returns m s.cpu) :
    Returns (do onCpu m; return StepOutcome.continue) s := by
  have hf : Returns (onCpu m) s := returns_focus h
  obtain ⟨a, s', hr⟩ | ⟨e, s', hr⟩ := hf
  · refine .inl ⟨.continue, s', ?_⟩
    rw [EStateM.run_bind, hr]
    rfl
  · refine .inr ⟨e, s', ?_⟩
    rw [EStateM.run_bind, hr]

/-- A step panics when its custom operation does. -/
theorem step_panicsAt (hn : ¬IsCustom s.cpu.fetch → ¬c)
    (hh : IsCustom s.cpu.fetch → PanicsAt (handler.handle s.cpu.fetch) s c) :
    PanicsAt (Cpu.step handler) s c := by
  by_cases hc : IsCustom s.cpu.fetch
  · have h := hh hc
    have hrun := step_custom handler hc
    exact ⟨by rw [hrun]; exact h.panics, by rw [Returns, hrun]; exact h.returns⟩
  · refine panicsAt_of_returns ?_ (hn hc)
    refine returns_get ?_
    refine returns_ite (fun _ => .inl ⟨_, _, rfl⟩) fun _ => ?_
    refine returns_ite (fun _ => .inl ⟨_, _, rfl⟩) fun _ => ?_
    refine returns_ite (fun _ => .inl ⟨_, _, rfl⟩) fun _ => ?_
    refine returns_ite (fun _ => .inl ⟨_, _, rfl⟩) fun _ => ?_
    refine returns_ite (fun _ => onCpu_returns (execBranch_returns _ _)) fun _ => ?_
    refine returns_ite (fun _ => onCpu_returns (execLoad_returns _ _)) fun _ => ?_
    refine returns_ite (fun _ => onCpu_returns (execStore_returns _ _)) fun _ => ?_
    refine returns_ite (fun _ => onCpu_returns (execOpImm_returns _ _)) fun _ => ?_
    refine returns_ite (fun _ => onCpu_returns (execOp_returns _ _)) fun _ => ?_
    refine returns_ite (fun _ => .inl ⟨_, _, rfl⟩) fun _ => ?_
    refine returns_ite (fun _ => ?_) fun _ => ?_
    · refine returns_ite (fun _ => .inr ⟨_, _, rfl⟩) fun _ => ?_
      exact returns_ite (fun _ => .inr ⟨_, _, rfl⟩) fun _ => .inr ⟨_, _, rfl⟩
    · exact returns_ite (fun hcustom => absurd hcustom hc) fun _ => .inr ⟨_, _, rfl⟩

end Step

end OpenvmSim.Rv32im
