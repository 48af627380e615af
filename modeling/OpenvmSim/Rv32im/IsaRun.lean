import OpenvmSim.Rv32im.Reserved
import OpenvmSim.Rv32im.Resume

/-! Runs of the instruction set.

The instruction set takes one architectural state to the next as long as the word at its pc is
an instruction that raises no exception. A run of the interpreter over such words is a run of
the instruction set, and the other way round, so that `Cpu.run` computes what the instruction
set prescribes up to an ECALL, an EBREAK or its limit. -/
namespace OpenvmSim.Isa

/-- One instruction of a program that raises no exception. -/
def Step (a b : ArchState) : Prop :=
  ∃ i, decode a.fetch = some i ∧ i ≠ .ecall ∧ i ≠ .ebreak ∧ i.exec a = b

/-- Instructions one after the other. -/
inductive Steps : ℕ → ArchState → ArchState → Prop where
  | refl (a : ArchState) : Steps 0 a a
  | head {k : ℕ} {a b c : ArchState} (h : Step a b) (hs : Steps k b c) : Steps (k + 1) a c

end OpenvmSim.Isa

namespace OpenvmSim.Rv32im
open Isa

section Simulation
variable {H : Type} {handler : CustomOpHandler H} {s t : Sim H} {trace : List (Sim H)}

@[simp] theorem archState_countStep (s : Sim H) : archState s.countStep.cpu = archState s.cpu := rfl

/-- The word at the pc is an instruction that raises no exception. -/
def Plain (s : Sim H) : Prop := ∃ i, decode s.cpu.fetch = some i ∧ i ≠ .ecall ∧ i ≠ .ebreak

/-- An instruction is an iteration of the loop, and is counted once. -/
theorem iteration_of_step {a : ArchState} (handler : CustomOpHandler H)
    (h : Step (archState s.cpu) a) :
    Counts handler s ∧
      ∃ s', Iteration handler s s' ∧ archState s'.cpu = a ∧ s'.handler = s.handler := by
  obtain ⟨i, hi, hcall, hbreak, rfl⟩ := h
  rw [fetch_eq] at hi
  obtain ⟨cpu', hstep, harch, hsteps⟩ := refines_of_decode handler s hi hcall hbreak
  refine ⟨counts_of_step fun t ht => ?_, Sim.countStep { s with cpu := cpu' },
    iteration_iff.mpr ⟨_, hstep, rfl⟩, harch, rfl⟩
  cases hstep.symm.trans ht
  exact hsteps

/-- An iteration over an instruction is that instruction. -/
theorem step_of_iteration (h : Iteration handler s t) (hp : Plain s) :
    Step (archState s.cpu) (archState t.cpu) ∧ t.handler = s.handler := by
  obtain ⟨i, hi, hcall, hbreak⟩ := hp
  rw [← fetch_eq] at hi
  obtain ⟨-, s', hit, harch, hsame⟩ := iteration_of_step handler ⟨i, hi, hcall, hbreak, rfl⟩
  obtain rfl : s' = t := Option.some.inj (hit.symm.trans h)
  exact ⟨⟨i, hi, hcall, hbreak, harch.symm⟩, hsame⟩

/-- A run of the instruction set is a run of the interpreter. -/
theorem run_of_steps {k : ℕ} {a : ArchState} (handler : CustomOpHandler H) (s : Sim H)
    (h : Steps k (archState s.cpu) a) :
    ∃ trace s', Run handler s trace s' ∧ (∀ u ∈ trace, Counts handler u) ∧ trace.length = k ∧
      archState s'.cpu = a ∧ s'.handler = s.handler := by
  generalize hs : archState s.cpu = start at h
  induction h generalizing s with
  | refl => exact ⟨[], s, .done s, nofun, rfl, hs, rfl⟩
  | head hstep _ ih =>
    subst hs
    obtain ⟨hc, s₁, hit, harch, hsame⟩ := iteration_of_step handler hstep
    obtain ⟨trace, s', hrun, hcounts, hlen, hlast, hsame'⟩ := ih s₁ harch
    exact ⟨s :: trace, s', .next hit hrun, List.forall_mem_cons.mpr ⟨hc, hcounts⟩,
      by rw [List.length_cons, hlen], hlast, hsame'.trans hsame⟩

/-- `Cpu::run` follows a run of the instruction set. -/
theorem run_to_steps {k : ℕ} {a : ArchState} (handler : CustomOpHandler H) (s : Sim H)
    (h : Steps k (archState s.cpu) a) :
    ∃ t, archState t.cpu = a ∧ t.handler = s.handler ∧ t.cpu.steps = s.cpu.steps + k ∧
      ∀ n, t.cpu.steps ≤ n → (Cpu.run handler n).run s = (Cpu.run handler n).run t := by
  obtain ⟨trace, t, hrun, hcounts, rfl, harch, hsame⟩ := run_of_steps handler s h
  exact ⟨t, harch, hsame, hrun.steps_of_counts hcounts, fun n hn =>
    hrun.cut_of_counts hcounts fun u hu => (hrun.steps_lt hcounts hu).trans_le hn⟩

/-- A run of the interpreter over instructions is a run of the instruction set. -/
theorem steps_of_run (h : Run handler s trace t) (hp : ∀ u ∈ trace, Plain u) :
    Steps trace.length (archState s.cpu) (archState t.cpu) ∧ t.handler = s.handler := by
  induction h with
  | done s => exact ⟨.refl _, rfl⟩
  | next hit _ ih =>
    obtain ⟨hstep, hsame⟩ := step_of_iteration hit (hp _ List.mem_cons_self)
    obtain ⟨hsteps, hsame'⟩ := ih fun u hu => hp u (List.mem_cons_of_mem _ hu)
    exact ⟨.head hstep hsteps, hsame'.trans hsame⟩

/-! ### Exceptions -/

/-- ECALL and EBREAK are one word each. -/
theorem word_of_system {w : Word} {i : Instr} (h : decode w = some i) (hi : i = .ecall ∨ i = .ebreak) :
    (i = .ecall ∧ w = 0x00000073#32) ∨ (i = .ebreak ∧ w = 0x00100073#32) := by
  have hop := system_of_decode h hi
  unfold decode at h
  rw [hop] at h
  simp only at h
  split at h
  · next hw =>
    cases h
    exact .inl ⟨rfl, hw⟩
  · split at h
    · next hw =>
      cases h
      exact .inr ⟨rfl, hw⟩
    · cases h

theorem step_ecall (h : decode s.cpu.fetch = some .ecall) :
    (Cpu.step handler).run s = .error (.err (.eCall s.cpu.pc)) s := by
  obtain ⟨-, hw⟩ | ⟨hn, -⟩ := word_of_system h (.inl rfl)
  · rw [step_run, hw]
    rfl
  · cases hn

theorem step_ebreak (h : decode s.cpu.fetch = some .ebreak) :
    (Cpu.step handler).run s = .error (.err (.eBreak s.cpu.pc)) s := by
  obtain ⟨hn, -⟩ | ⟨-, hw⟩ := word_of_system h (.inr rfl)
  · cases hn
  · rw [step_run, hw]
    rfl

/-- An error ends the run. -/
theorem run_of_error {n : ℕ} {e : Stop CpuError} (hlt : s.cpu.steps < n)
    (h : (Cpu.step handler).run s = .error e s) : (Cpu.run handler n).run s = .error e s := by
  have hc : Counts handler s := counts_of_step fun t ht => nomatch h.symm.trans ht
  rw [run_of_counts hc, if_neg (Nat.not_le.mpr hlt), h]

end Simulation

/-- What `Cpu.run` with the limit `n` returns when the instruction set has come to the state of `t`. -/
structure StopsAt {H : Type} (handler : CustomOpHandler H) (s t : Sim H) (n : ℕ) : Prop where
  limit : t.cpu.steps = n →
    (Cpu.run handler n).run s = .error (.err (.stepLimitExceeded t.cpu.pc)) t
  ecall : t.cpu.steps < n → decode t.cpu.fetch = some .ecall →
    (Cpu.run handler n).run s = .error (.err (.eCall t.cpu.pc)) t
  ebreak : t.cpu.steps < n → decode t.cpu.fetch = some .ebreak →
    (Cpu.run handler n).run s = .error (.err (.eBreak t.cpu.pc)) t

/-- **A run of the interpreter is a run of the instruction set.** If the instruction set executes `k`
instructions from the architectural state of a machine, then so does the interpreter: it comes to
a machine with the architectural state they lead to, the same handler and `k` more steps
counted, and `Cpu.run` stops there if its limit is reached, at an ECALL or at an EBREAK. And
every run of the interpreter over RV32IM instructions is obtained so. -/
theorem run_isa {H : Type} (handler : CustomOpHandler H) (s : Sim H) :
    (∀ k a, Steps k (archState s.cpu) a → ∃ t, archState t.cpu = a ∧ t.handler = s.handler ∧
      t.cpu.steps = s.cpu.steps + k ∧ ∀ n, StopsAt handler s t n) ∧
    ∀ trace t, Run handler s trace t → (∀ u ∈ trace, Plain u) →
      Steps trace.length (archState s.cpu) (archState t.cpu) ∧ t.handler = s.handler := by
  refine ⟨fun k a hsteps => ?_, fun trace t hrun hp => steps_of_run hrun hp⟩
  obtain ⟨t, harch, hsame, hcount, hcut⟩ := run_to_steps handler s hsteps
  refine ⟨t, harch, hsame, hcount, fun n => ?_⟩
  constructor
  · intro hn
    rw [hcut n hn.le, run_at_limit hn.ge]
  · intro hlt hcall
    rw [hcut n hlt.le, run_of_error hlt (step_ecall hcall)]
  · intro hlt hbreak
    rw [hcut n hlt.le, run_of_error hlt (step_ebreak hbreak)]

/-- An `addi` is executed, and the limit then stops the machine. -/
theorem run_isa_addi : ∃ t : Sim Unit,
    archState t.cpu = (Instr.opImm .addi 1#5 0#5 5#12).exec (archState addiCpu) ∧
      (Cpu.run ⟨fun _ => pure .continue⟩ 1).run ⟨addiCpu, ()⟩ =
        .error (.err (.stepLimitExceeded t.cpu.pc)) t := by
  have hstep : Step (archState addiCpu) ((Instr.opImm .addi 1#5 0#5 5#12).exec (archState addiCpu)) :=
    ⟨_, addiCpu_decode, nofun, nofun, rfl⟩
  obtain ⟨t, harch, -, hcount, hstop⟩ :=
    (run_isa _ ⟨addiCpu, ()⟩).1 1 _ (.head hstep (.refl _))
  exact ⟨t, harch, (hstop 1).limit hcount⟩

end OpenvmSim.Rv32im
