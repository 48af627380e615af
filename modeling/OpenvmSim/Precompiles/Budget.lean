import OpenvmSim.Precompiles.Exit
import OpenvmSim.Rv32im.Resume

/-! The step budget of a run.

With the precompiles as handler, a run may be stopped by its budget and gone on with under a
larger one, and a budget that was not used up might as well have been larger. -/
namespace OpenvmSim.Precompiles
open Rv32im

/-- **Resumability.** A run cut off by the budget `n₁` and continued with the budget `n₂` is
the run with the budget `n₂`; a run that ends otherwise within `n₁` ends the same way within
`n₂`. The step counter grows by the number of steps that continued, up to the budget. -/
theorem run_resumable (host : Host) (s : Machine) {n₁ n₂ : ℕ} (h : n₁ ≤ n₂) :
    (∀ pc s', (Cpu.run (customOps host) n₁).run s = .error (.err (.stepLimitExceeded pc)) s' →
      (Cpu.run (customOps host) n₂).run s' = (Cpu.run (customOps host) n₂).run s) ∧
    ((∀ pc s', (Cpu.run (customOps host) n₁).run s ≠
        .error (.err (.stepLimitExceeded pc)) s') →
      (Cpu.run (customOps host) n₂).run s = (Cpu.run (customOps host) n₁).run s) ∧
    ∃ trace t, Run (customOps host) s trace t ∧
      Ends (customOps host) n₁ t ((Cpu.run (customOps host) n₁).run s) ∧
      (stateAfter ((Cpu.run (customOps host) n₁).run s)).cpu.steps =
        s.cpu.steps + trace.length ∧
      (stateAfter ((Cpu.run (customOps host) n₁).run s)).cpu.steps ≤ max s.cpu.steps n₁ := by
  have hh := customOps_careful host
  refine ⟨fun pc s' => run_resume hh h, run_mono hh h, ?_⟩
  obtain ⟨trace, t, hrun, hbelow, hends⟩ := run_spec hh s n₁
  refine ⟨trace, t, hrun, hends, ?_, ?_⟩
  · rw [hends.steps_eq hh, hrun.steps_eq hh]
  · rw [hends.steps_eq hh]
    exact hrun.steps_le hh hbelow

/-- A machine about to run `addi x1, x0, 1`, `addi x2, x1, 1` and a TERMINATE. -/
def counting : Machine := Sim.loaded [0x00100093#32, 0x00108113#32, terminateWord 0#12] [[]]

/-- A budget of one step cuts the run at 68; gone on with, it returns as the run in one go. -/
theorem run_resumable_counting : ∃ s' t,
    (Cpu.run (customOps Host.constant) 1).run counting =
      .error (.err (.stepLimitExceeded 68#32)) s' ∧
    (Cpu.run (customOps Host.constant) 5).run s' =
      (Cpu.run (customOps Host.constant) 5).run counting ∧
    (Cpu.run (customOps Host.constant) 5).run counting = .ok 0#32 t ∧ t.cpu.readReg 2#5 = 2#32 := by
  have hh := customOps_careful Host.constant
  have hfirst : Run (customOps Host.constant) counting [counting]
      (counting.after (customOps Host.constant) 1) := run_after (n := 1) (by decide +kernel)
  have hlast : Run (customOps Host.constant) counting _
      (counting.after (customOps Host.constant) 2) := run_after (n := 2) (by decide +kernel)
  have hpc : (counting.after (customOps Host.constant) 1).cpu.pc = 68#32 := by decide +kernel
  have hcut : (Cpu.run (customOps Host.constant) 1).run counting =
      .error (.err (.stepLimitExceeded 68#32)) (counting.after (customOps Host.constant) 1) := by
    rw [hfirst.cut hh (List.forall_mem_singleton.mpr Nat.one_pos), ← hpc]
    exact run_at_limit (by decide +kernel)
  have hret := run_terminate Host.constant hlast (by decide +kernel : _ < 5) (by decide +kernel)
  have hcode : (counting.after (customOps Host.constant) 2).cpu.readReg
      (rs1 (counting.after (customOps Host.constant) 2).cpu.fetch) = 0#32 := by decide +kernel
  rw [hcode] at hret
  exact ⟨_, _, hcut, (run_resumable Host.constant counting (by decide : 1 ≤ 5)).1 _ _ hcut, hret,
    by decide +kernel⟩

end OpenvmSim.Precompiles
