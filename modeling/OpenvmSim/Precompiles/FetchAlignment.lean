import OpenvmSim.Precompiles.Outcomes
import OpenvmSim.Precompiles.ProgramCounter
import OpenvmSim.Precompiles.Step
import OpenvmSim.Rv32im.Alignment

/-! The alignment of instruction fetches.

The interpreter has no alignment check: it executes a word from any address it is sent to. From
an aligned entry it stays on multiples of four as long as the targets of all jumps are, and on
even addresses whatever they are (`fetch_alignment`). -/
namespace OpenvmSim.Precompiles
open Rv32im

/-- Where a JAL, a JALR, a taken branch or a taken BEQ256 jumps to. -/
def jumpsTo (insn : Word) (cpu : Cpu) : Option Word :=
  if IsTaken insn cpu then some (cpu.pc + immB insn) else jumpTarget insn cpu

section Step
variable {host : Host} {s s' : Machine}

theorem jumpTarget_custom {insn : Word} {cpu : Cpu} (h : IsCustom insn) :
    jumpTarget insn cpu = none :=
  jumpTarget_none (h.opcode_ne (by decide) (by decide)) (h.opcode_ne (by decide) (by decide))
    (h.opcode_ne (by decide) (by decide))

/-- Where an iteration goes: to its target, or to the next word if it does not jump or if it is
a BEQ256 that jumps to itself. -/
theorem iteration_pc (h : Iteration (customOps host) s s') :
    jumpsTo s.cpu.fetch s.cpu = some s'.cpu.pc ∨
      s'.cpu.pc = s.cpu.pc + 4#32 ∧ (jumpsTo s.cpu.fetch s.cpu = none ∨
        jumpsTo s.cpu.fetch s.cpu = some s.cpu.pc) := by
  obtain ⟨t, ht, rfl⟩ := iteration_iff.mp h
  rw [pc_countStep]
  by_cases hc : IsCustom s.cpu.fetch
  · rw [step_custom _ hc] at ht
    cases (handle_atomic host s s.cpu.fetch).of_ok ht with
    | continued hterm he =>
    have hpc := pc_of_effect he
    rw [pc_advanced]
    by_cases htaken : IsTaken s.cpu.fetch s.cpu
    · rw [if_pos htaken.1, target, if_pos htaken] at hpc
      rw [jumpsTo, if_pos htaken, hpc]
      split
      · next hself => exact .inr ⟨rfl, .inr (congrArg some hself)⟩
      · exact .inl rfl
    · rw [target, if_neg htaken] at hpc
      rw [jumpsTo, if_neg htaken, jumpTarget_custom hc, hpc]
      refine .inr ⟨?_, .inl rfl⟩
      by_cases hb : IsBeq256 s.cpu.fetch
      · rw [if_pos hb, if_neg (next_ne _)]
      · rw [if_neg hb, if_pos rfl]
  · have hpc := ((step_pc hc).of_ok ht).2
    have hnot : ¬IsTaken s.cpu.fetch s.cpu := fun ht => hc (.inl ht.1.1)
    rw [jumpsTo, if_neg hnot, hpc]
    cases jumpTarget s.cpu.fetch s.cpu with
    | none => exact .inr ⟨rfl, .inl rfl⟩
    | some a => exact .inl rfl

/-- An even address leads to an even one. -/
theorem iteration_even (h : Iteration (customOps host) s s') (hpc : Aligned 2 s.cpu.pc) :
    Aligned 2 s'.cpu.pc := by
  obtain hjump | ⟨hnext, -⟩ := iteration_pc h
  · unfold jumpsTo at hjump
    split at hjump
    · rw [← Option.some.inj hjump]
      exact hpc.add (by decide) (immB_even _)
    · exact jumpTarget_even hjump hpc
  · rw [hnext]
    exact hpc.add (by decide) (by decide)

/-- The target of the state's next step, if that is a jump, is a multiple of four. -/
def TargetAligned (u : Machine) : Prop :=
  ∀ a, jumpsTo u.cpu.fetch u.cpu = some a → Aligned 4 a

/-- An aligned address leads to an aligned one exactly if the jump there does. -/
theorem iteration_aligned_iff (h : Iteration (customOps host) s s') (hpc : Aligned 4 s.cpu.pc) :
    Aligned 4 s'.cpu.pc ↔ TargetAligned s := by
  unfold TargetAligned
  have hfour : Aligned 4 (s.cpu.pc + 4#32) := hpc.add (by decide) (by decide)
  obtain hjump | ⟨hnext, hnone | hself⟩ := iteration_pc h
  · rw [hjump]
    exact ⟨fun ha a he => Option.some.inj he ▸ ha, fun ha => ha _ rfl⟩
  · rw [hnext, hnone]
    exact ⟨fun _ _ he => absurd he nofun, fun _ => hfour⟩
  · rw [hnext, hself]
    exact ⟨fun _ a he => Option.some.inj he ▸ hpc, fun _ => hfour⟩

/-- A jump is no error, whatever its target is. It goes there, unless it is a BEQ256 to itself. -/
theorem step_jumpsTo {a : Word} (h : jumpsTo s.cpu.fetch s.cpu = some a) :
    ∃ t, (Cpu.step (customOps host)).run s = .ok .continue t ∧
      (¬(IsTaken s.cpu.fetch s.cpu ∧ a = s.cpu.pc) → t.cpu.pc = a) := by
  unfold jumpsTo at h
  split at h
  · next htaken =>
    have hc : IsCustom s.cpu.fetch := .inl htaken.1.1
    have hbody : (handleBeq256 s.cpu.fetch).run s = .ok () (s.setPc a) := by
      show EStateM.Result.ok () (s.setPc (if _ then _ else _)) = _
      rw [if_pos htaken.2, Option.some.inj h]
    refine ⟨_, (step_custom _ hc).trans (handle_run_ok (calls_beq256 htaken.1) hbody), fun ha => ?_⟩
    rw [pc_advanced, Sim.pc_setPc, if_neg fun hself => ha ⟨htaken, hself⟩]
  · obtain ⟨t, hrun, hpc⟩ := step_jump h
    exact ⟨t, hrun, fun _ => hpc⟩

end Step

/-! ### Runs -/

section Run
variable {host : Host} {s t : Machine} {trace : List Machine}

theorem run_even (h : Run (customOps host) s trace t) (hpc : Aligned 2 s.cpu.pc) :
    ∀ u ∈ trace ++ [t], Aligned 2 u.cpu.pc := by
  induction h with
  | done s => exact List.forall_mem_singleton.mpr hpc
  | next hit _ ih => exact List.forall_mem_cons.mpr ⟨hpc, ih (iteration_even hit hpc)⟩

/-- All addresses of a run are multiples of four exactly if all targets in it are. -/
theorem run_aligned_iff (h : Run (customOps host) s trace t) (hpc : Aligned 4 s.cpu.pc) :
    (∀ u ∈ trace ++ [t], Aligned 4 u.cpu.pc) ↔ ∀ u ∈ trace, TargetAligned u := by
  induction h with
  | done s =>
    exact ⟨fun _ u hu => absurd hu List.not_mem_nil, fun _ => List.forall_mem_singleton.mpr hpc⟩
  | @next s s₁ t trace hit hrun ih =>
    rw [List.cons_append, List.forall_mem_cons, List.forall_mem_cons, ← iteration_aligned_iff hit hpc]
    constructor
    · rintro ⟨-, hrest⟩
      have hfirst : Aligned 4 s₁.cpu.pc := by
        cases hrun with
        | done => exact hrest _ List.mem_cons_self
        | next _ _ => exact hrest _ List.mem_cons_self
      exact ⟨hfirst, (ih hfirst).mp hrest⟩
    · rintro ⟨hfirst, hrest⟩
      exact ⟨hpc, (ih hfirst).mpr hrest⟩

end Run

/-- **Every address that a run of a program with an aligned entry reaches is even, and all of them
are multiples of four exactly if every jump of the run has a multiple of four as its target.** A
jump to any other address is no error: the run goes on there, unless the jump is a BEQ256 to its
own address. -/
theorem fetch_alignment (host : Host) (prog : Elf.LoadedProgram) (handler : PrecompileHandler)
    (hentry : Aligned 4 prog.entry) {t : Machine} {trace : List Machine}
    (h : Run (customOps host) ⟨Cpu.new prog, handler⟩ trace t) :
    (∀ u ∈ trace ++ [t], Aligned 2 u.cpu.pc) ∧
      ((∀ u ∈ trace ++ [t], Aligned 4 u.cpu.pc) ↔ ∀ u ∈ trace, TargetAligned u) ∧
      ∀ u ∈ trace ++ [t], ∀ a, jumpsTo u.cpu.fetch u.cpu = some a →
        ∃ v, (Cpu.step (customOps host)).run u = .ok .continue v ∧
          (¬(IsTaken u.cpu.fetch u.cpu ∧ a = u.cpu.pc) → v.cpu.pc = a) := by
  have heven : Aligned 2 prog.entry := by
    unfold Aligned at hentry ⊢
    omega
  exact ⟨run_even h heven, run_aligned_iff h hentry, fun u _ a hjump => step_jumpsTo hjump⟩

/-- `jal x0, 6` at 64, two bytes, and `addi x0, x0, 0` at 70. -/
def crooked : Elf.LoadedProgram where
  entry := 64#32
  segments := [
    { vaddr := 64#32
      memSize := 10#32
      writable := false
      executable := true
      data := [0x6f#8, 0x00#8, 0x60#8, 0x00#8, 0x00#8, 0x00#8, 0x13#8, 0x00#8, 0x00#8, 0x00#8] }]

/-- A machine about to run it. -/
def crookedStart : Machine := ⟨Cpu.new crooked, PrecompileHandler.new []⟩

theorem crookedStart_next : (crookedStart.next (customOps Host.constant)).isSome := by decide +kernel

/-- The machine after the jump. -/
def jumped : Machine := (crookedStart.next (customOps Host.constant)).get crookedStart_next

theorem jumped_next : (jumped.next (customOps Host.constant)).isSome := by decide +kernel

theorem crooked_run : ∃ t, Run (customOps Host.constant) crookedStart [crookedStart, jumped] t := by
  obtain ⟨t, ht⟩ := Option.isSome_iff_exists.mp jumped_next
  exact ⟨t, .next (Option.some_get crookedStart_next).symm (.next ht (.done t))⟩

/-- The jump leads to 70, which is even. -/
theorem fetch_alignment_crooked : Aligned 2 jumped.cpu.pc ∧
    ∃ v, (Cpu.step (customOps Host.constant)).run crookedStart = .ok .continue v ∧
      v.cpu.pc = 70#32 := by
  obtain ⟨t, hrun⟩ := crooked_run
  have hentry : Aligned 4 crooked.entry := by decide
  have hjump : jumpsTo crookedStart.cpu.fetch crookedStart.cpu = some 70#32 := by decide +kernel
  have hself : 70#32 ≠ crookedStart.cpu.pc := by decide +kernel
  obtain ⟨heven, -, hjumps⟩ := fetch_alignment Host.constant crooked _ hentry hrun
  obtain ⟨v, hstep, hpc⟩ := hjumps crookedStart List.mem_cons_self _ hjump
  exact ⟨heven jumped (by simp), v, hstep, hpc fun h => hself h.2⟩

/-- The jump is executed, and so is the word at its target. -/
theorem misaligned_fetch : Aligned 4 crooked.entry ∧
    (∃ t, Run (customOps Host.constant) crookedStart [crookedStart, jumped] t) ∧
      jumped.cpu.pc = 70#32 ∧ ¬Aligned 4 jumped.cpu.pc :=
  ⟨by decide, crooked_run, by decide +kernel, by decide +kernel⟩

end OpenvmSim.Precompiles
