import OpenvmSim.Precompiles.Step
import OpenvmSim.Precompiles.Outcomes
import OpenvmSim.Rv32im.Alignment
import OpenvmSim.Rv32im.Resume

/-! Where a run stops.

The step that ends a run changes nothing: a TERMINATE word only reports its register, and a step
that fails is undone. So the state a run leaves is the one it stopped in, running on from there
gives the same result again (`run_again`), and a run returns exactly if it comes to a TERMINATE
word below its limit (`run_ok_iff`). -/
namespace OpenvmSim.Precompiles
open Rv32im

section Halting
variable {host : Host} {s t : Machine} {code : Word}

/-- A step terminates at a TERMINATE word, with the code in its register. -/
theorem step_terminated_iff : (Cpu.step (customOps host)).run s = .ok (.terminated code) t ↔
    IsTerminate s.cpu.fetch ∧ code = s.cpu.readReg (rs1 s.cpu.fetch) ∧ t = s := by
  constructor
  · intro h
    by_cases hc : IsCustom s.cpu.fetch
    · rw [step_custom _ hc] at h
      obtain ⟨hterm⟩ | _ := (handle_atomic host s s.cpu.fetch).of_ok h
      exact ⟨hterm, rfl, rfl⟩
    · have hgo : StepOutcome.terminated code = .continue ∧ _ := (step_pc hc).of_ok h
      cases hgo.1
  · rintro ⟨hterm, rfl, rfl⟩
    rw [step_custom _ (.inl hterm.1)]
    show (dispatch host t.cpu.fetch >>= _ : HandlerM StepOutcome).run t = _
    rw [EStateM.run_bind, dispatch_custom0 hterm]
    rfl

/-- A run leaves the state it stopped in. -/
theorem ends_state {n : ℕ} {r : EStateM.Result (Stop CpuError) Machine Word}
    (h : Ends (customOps host) n t r) : stateAfter r = t := by
  cases h with
  | limit h => rfl
  | terminated hlt h => exact (step_terminated_iff.mp h).2.2
  | failed hlt h => exact ((customOps_careful host).step t).of_error h

/-- The last state of a run and how it got there. -/
theorem run_state (host : Host) (s : Machine) (n : ℕ) : ∃ trace,
    Run (customOps host) s trace (stateAfter ((Cpu.run (customOps host) n).run s)) ∧
      (∀ u ∈ trace, u.cpu.steps < n) ∧
      Ends (customOps host) n (stateAfter ((Cpu.run (customOps host) n).run s))
        ((Cpu.run (customOps host) n).run s) := by
  obtain ⟨trace, t, hrun, hbelow, hends⟩ := run_spec (customOps_careful host) s n
  have hlast := ends_state hends
  refine ⟨trace, ?_, hbelow, ?_⟩
  · rwa [hlast]
  · rwa [hlast]

end Halting

/-- **A finished run is finished.** Running the machine on from where a run stopped, under the same
limit, returns the same exit code or the same error and changes nothing any more, whatever
stopped the run. -/
theorem run_again (host : Host) (s : Machine) (n : ℕ) :
    (Cpu.run (customOps host) n).run (stateAfter ((Cpu.run (customOps host) n).run s)) =
      (Cpu.run (customOps host) n).run s := by
  obtain ⟨trace, -, -, hends⟩ := run_state host s n
  exact hends.run_eq (customOps_careful host)

/-- **A run returns exactly if it comes to a TERMINATE word.** `Cpu.run` returns a code in a state
if and only if iterations below the limit lead to that state, the state is below the limit, the
word at its pc is a TERMINATE and the code is in the register that word names. -/
theorem run_ok_iff (host : Host) (s t : Machine) (n : ℕ) (code : Word) :
    (Cpu.run (customOps host) n).run s = .ok code t ↔
      (∃ trace, Run (customOps host) s trace t) ∧ t.cpu.steps < n ∧ IsTerminate t.cpu.fetch ∧
        code = t.cpu.readReg (rs1 t.cpu.fetch) := by
  have hh := customOps_careful host
  constructor
  · intro h
    obtain ⟨trace, hrun, -, hends⟩ := run_state host s n
    rw [h] at hrun hends
    cases hends with
    | terminated hlt hstep =>
      obtain ⟨hterm, hcode, -⟩ := step_terminated_iff.mp hstep
      exact ⟨⟨trace, hrun⟩, hlt, hterm, hcode⟩
  · rintro ⟨⟨trace, hrun⟩, hlt, hterm, rfl⟩
    exact run_eq hh hrun hlt (step_terminated_iff.mpr ⟨hterm, rfl, rfl⟩)

end OpenvmSim.Precompiles
