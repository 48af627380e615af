import OpenvmSim.Precompiles.Effects
import OpenvmSim.Rv32im.Run

/-! A step of the interpreter with the precompiles.

An iteration that completes either changes the CPU alone or has the effect of its
custom word (`iteration_effect`); a step that fails changes nothing
(`step_error_atomic`). -/
namespace OpenvmSim.Precompiles
open Rv32im

/-- No effect touches the step counter. -/
theorem Effect.steps_eq {host : Host} {insn : Word} {s s' : Machine} {k : Kind}
    (h : Effect host insn s k s') : s'.cpu.steps = s.cpu.steps := by
  cases h <;> simp

theorem customOps_careful (host : Host) : (customOps host).Careful := by
  intro insn s
  refine (handle_atomic host s insn).mono fun o s' he => ?_
  cases he with
  | terminated h => rfl
  | continued h he => rw [steps_advanced, he.steps_eq]

/-- A step of a word that is not custom does not reach the handler. -/
theorem step_plain_handler {host : Host} {s t : Machine} {o : StepOutcome}
    (hc : ¬IsCustom s.cpu.fetch) (h : (Cpu.step (customOps host)).run s = .ok o t) :
    t.handler = s.handler := by
  have hatomic : Atomic (Cpu.step (customOps host)) s fun _ s' => s'.handler = s.handler :=
    step_atomic (fun _ _ => rfl) fun hc' => absurd hc' hc
  exact hatomic.of_ok h

/-- The effect of an iteration: that of a custom word, or one on the CPU alone. -/
theorem iteration_effect {host : Host} {s s' : Machine} (h : Iteration (customOps host) s s') :
    (¬IsCustom s.cpu.fetch ∧ s'.handler = s.handler) ∨
      (IsCustom s.cpu.fetch ∧ ∃ s₁, WordEffect host s.cpu.fetch s s₁ ∧
        s' = (advanced s.cpu.pc s₁).countStep) := by
  obtain ⟨t, ht, rfl⟩ := iteration_iff.mp h
  by_cases hc : IsCustom s.cpu.fetch
  · rw [step_custom _ hc] at ht
    obtain _ | ⟨-, he⟩ := (handle_atomic host s s.cpu.fetch).of_ok ht
    exact .inr ⟨hc, _, he, rfl⟩
  · have hh : t.handler = s.handler := step_plain_handler hc ht
    exact .inl ⟨hc, hh⟩

/-- If a step with the precompile handler returns an error, or panics, the CPU with
its pc, registers, memory and step counter and the handler with its queues and
output are exactly as before. -/
theorem step_error_atomic (host : Host) (s s' : Machine) (e : Stop CpuError)
    (h : (Cpu.step (customOps host)).run s = .error e s') : s' = s :=
  ((customOps_careful host).step s).of_error h

/-- A machine with a byte to read, about to divide zero by zero modulo the first modulus. -/
def dividing : Machine := (Sim.loaded [0x0600002b#32] [[1#8]]).setHint [7#8]

/-- The division is refused. -/
theorem step_error_atomic_divides :
    ∃ message s', (Cpu.step (customOps Host.constant)).run dividing =
      .error (.err (.customOp message)) s' ∧ s' = dividing := by
  have hrefused : (match (Cpu.step (customOps Host.constant)).run dividing with
      | .error (.err (.customOp _)) _ => true
      | _ => false) = true := by decide +kernel
  split at hrefused
  · next message s' hstep =>
    exact ⟨message, s', hstep, step_error_atomic Host.constant _ _ _ hstep⟩
  · cases hrefused

end OpenvmSim.Precompiles
