import OpenvmSim.Rv32im.Run

/-! Where the next instruction is fetched.

A word that does not jump goes on to the next one. Jumps have even targets, but nothing in the
interpreter asks whether a target is a multiple of four. -/
namespace OpenvmSim.Rv32im

/-- The address is a multiple of `n`. -/
def Aligned (n : ℕ) (addr : Word) : Prop := addr.toNat % n = 0

instance (n : ℕ) (addr : Word) : Decidable (Aligned n addr) := inferInstanceAs (Decidable (_ = _))

theorem Aligned.add {n : ℕ} {a b : Word} (hn : n ∣ 2 ^ 32) (ha : Aligned n a) (hb : Aligned n b) :
    Aligned n (a + b) := by
  rw [Aligned, BitVec.toNat_add, Nat.mod_mod_of_dvd _ hn, Nat.add_mod, ha, hb, Nat.zero_add,
    Nat.zero_mod]

theorem aligned_two_iff {a : Word} : Aligned 2 a ↔ a.getLsbD 0 = false := by
  rw [Aligned, BitVec.getLsbD, Nat.testBit_zero]
  have h := Nat.mod_two_eq_zero_or_one a.toNat
  grind

section Immediates
variable (insn : Word)

theorem immB_even : Aligned 2 (immB insn) := by
  rw [aligned_two_iff]
  simp [immB]

theorem immJ_even : Aligned 2 (immJ insn) := by
  rw [aligned_two_iff]
  simp [immJ]

theorem clearBit_even (a : Word) : Aligned 2 (a &&& ~~~1#32) := by
  rw [aligned_two_iff]
  simp

end Immediates

/-! ### Jumps -/

section Jumps
variable (insn : Word) (cpu : Cpu)

/-- The comparison of a branch; a reserved one is never taken. -/
def branchTaken : Bool :=
  let a := cpu.readReg (rs1 insn)
  let b := cpu.readReg (rs2 insn)
  let f3 := funct3 insn
  if f3 = 0#32 then a == b
  else if f3 = 1#32 then a != b
  else if f3 = 4#32 then a.slt b
  else if f3 = 5#32 then b.sle a
  else if f3 = 6#32 then a.ult b
  else if f3 = 7#32 then b.ule a
  else false

/-- Where a JAL, a JALR or a taken branch jumps to. -/
def jumpTarget : Option Word :=
  if opcode insn = OPCODE_JAL then some (cpu.pc + immJ insn)
  else if opcode insn = OPCODE_JALR then some ((cpu.readReg (rs1 insn) + immI insn) &&& ~~~1#32)
  else if opcode insn = OPCODE_BRANCH ∧ branchTaken insn cpu then some (cpu.pc + immB insn)
  else none

variable {insn cpu}

theorem jumpTarget_none (h : opcode insn ≠ OPCODE_JAL) (h' : opcode insn ≠ OPCODE_JALR)
    (h'' : opcode insn ≠ OPCODE_BRANCH) : jumpTarget insn cpu = none := by
  rw [jumpTarget, if_neg h, if_neg h', if_neg fun hb => h'' hb.1]

/-- Jumps from an even address go to an even address. -/
theorem jumpTarget_even {a : Word} (h : jumpTarget insn cpu = some a) (hpc : Aligned 2 cpu.pc) :
    Aligned 2 a := by
  unfold jumpTarget at h
  split at h
  · cases h
    exact hpc.add (by decide) (immJ_even insn)
  · split at h
    · cases h
      exact clearBit_even _
    · split at h
      · cases h
        exact hpc.add (by decide) (immB_even insn)
      · cases h

end Jumps

/-! ### The program counter after a step -/

section Groups
variable (insn : Word) (cpu : Cpu)

/-- The program counter is `pc`. -/
def GoesTo (pc : Word) (_ : Unit) (cpu' : Cpu) : Prop := cpu'.pc = pc

theorem execBranch_pc : Atomic (Cpu.execBranch insn) cpu
    (GoesTo (if branchTaken insn cpu then cpu.pc + immB insn else cpu.pc + 4#32)) := by
  refine atomic_get ?_
  unfold branchTaken
  refine atomic_ite (fun h => ?_) fun h0 => atomic_ite (fun h => ?_) fun h1 =>
    atomic_ite (fun h => ?_) fun h4 => atomic_ite (fun h => ?_) fun h5 =>
    atomic_ite (fun h => ?_) fun h6 => atomic_ite (fun h => ?_) fun h7 => ?_
  · rw [if_pos h]; rfl
  · rw [if_neg h0, if_pos h]; rfl
  · rw [if_neg h0, if_neg h1, if_pos h]; rfl
  · rw [if_neg h0, if_neg h1, if_neg h4, if_pos h]; rfl
  · rw [if_neg h0, if_neg h1, if_neg h4, if_neg h5, if_pos h]; rfl
  · rw [if_neg h0, if_neg h1, if_neg h4, if_neg h5, if_neg h6, if_pos h]; rfl
  · exact atomic_throw _

theorem execLoad_pc : Atomic (Cpu.execLoad insn) cpu (GoesTo (cpu.pc + 4#32)) := by
  refine atomic_get ?_
  repeat' refine atomic_ite (fun _ => ?_) fun _ => ?_
  all_goals rfl

theorem execStore_pc : Atomic (Cpu.execStore insn) cpu (GoesTo (cpu.pc + 4#32)) := by
  refine atomic_get ?_
  repeat' refine atomic_ite (fun _ => ?_) fun _ => ?_
  all_goals rfl

theorem execOpImm_pc : Atomic (Cpu.execOpImm insn) cpu (GoesTo (cpu.pc + 4#32)) := by
  refine atomic_get ?_
  repeat' refine atomic_ite (fun _ => ?_) fun _ => ?_
  all_goals rfl

theorem execOp_pc : Atomic (Cpu.execOp insn) cpu (GoesTo (cpu.pc + 4#32)) := by
  refine atomic_get ?_
  repeat' refine atomic_ite (fun _ => ?_) fun _ => ?_
  all_goals rfl

end Groups

section Step
variable {H : Type} {handler : CustomOpHandler H} {s : Sim H} {insn : Word}

/-- The step continues at `pc`. -/
def ContinuesAt (pc : Word) (o : StepOutcome) (s' : Sim H) : Prop := o = .continue ∧ s'.cpu.pc = pc

theorem onCpu_pc {m : CpuM Unit} {pc : Word} (h : Atomic m s.cpu (GoesTo pc)) :
    Atomic (do onCpu m; return StepOutcome.continue) s (ContinuesAt pc) := by
  refine atomic_bind (P := fun _ s' => s'.cpu.pc = pc) ?_ fun _ s' hs => ⟨_, s', rfl, rfl, hs⟩
  exact atomic_focus rfl h fun _ cpu' hc => hc

/-- A word that is not custom jumps to its target or goes on to the next word. -/
theorem exec_pc (hc : ¬IsCustom insn) : Atomic (Cpu.exec handler s.cpu.pc insn) s
    (ContinuesAt ((jumpTarget insn s.cpu).getD (s.cpu.pc + 4#32))) := by
  have hnext : opcode insn ≠ OPCODE_JAL → opcode insn ≠ OPCODE_JALR → opcode insn ≠ OPCODE_BRANCH →
      (jumpTarget insn s.cpu).getD (s.cpu.pc + 4#32) = s.cpu.pc + 4#32 := fun h h' h'' => by
    rw [jumpTarget_none h h' h'', Option.getD_none]
  refine atomic_ite (fun h => ?_) fun _ => atomic_ite (fun h => ?_) fun _ =>
    atomic_ite (fun h => ?_) fun hjal => atomic_ite (fun h => ?_) fun hjalr =>
    atomic_ite (fun h => ?_) fun hbr => ?_
  · rw [hnext (by rw [h]; decide) (by rw [h]; decide) (by rw [h]; decide)]
    exact onCpu_pc rfl
  · rw [hnext (by rw [h]; decide) (by rw [h]; decide) (by rw [h]; decide)]
    exact onCpu_pc rfl
  · rw [jumpTarget, if_pos h, Option.getD_some]
    exact onCpu_pc rfl
  · rw [jumpTarget, if_neg hjal, if_pos h, Option.getD_some]
    exact onCpu_pc rfl
  · have htarget : (jumpTarget insn s.cpu).getD (s.cpu.pc + 4#32) =
        if branchTaken insn s.cpu then s.cpu.pc + immB insn else s.cpu.pc + 4#32 := by
      rw [jumpTarget, if_neg hjal, if_neg hjalr]
      split
      · next ht => rw [if_pos ht.2, Option.getD_some]
      · next ht => rw [if_neg fun hb => ht ⟨h, hb⟩, Option.getD_none]
    rw [htarget]
    exact onCpu_pc (execBranch_pc insn s.cpu)
  · rw [hnext hjal hjalr hbr]
    refine atomic_ite (fun _ => onCpu_pc (execLoad_pc insn s.cpu)) fun _ =>
      atomic_ite (fun _ => onCpu_pc (execStore_pc insn s.cpu)) fun _ =>
      atomic_ite (fun _ => onCpu_pc (execOpImm_pc insn s.cpu)) fun _ =>
      atomic_ite (fun _ => onCpu_pc (execOp_pc insn s.cpu)) fun _ =>
      atomic_ite (fun _ => onCpu_pc rfl) fun _ => atomic_ite (fun _ => ?_) fun _ =>
      atomic_ite (fun h => absurd h hc) fun _ => atomic_throw _
    exact atomic_ite (fun _ => atomic_throw _) fun _ =>
      atomic_ite (fun _ => atomic_throw _) fun _ => atomic_throw _

theorem step_pc (hc : ¬IsCustom s.cpu.fetch) : Atomic (Cpu.step handler) s
    (ContinuesAt ((jumpTarget s.cpu.fetch s.cpu).getD (s.cpu.pc + 4#32))) :=
  atomic_get (exec_pc hc)

/-! ### Jumps always succeed -/

/-- One link of a chain of comparisons that comes out true, with what follows it. -/
theorem ite_run_true {cpu : Cpu} {r : EStateM.Result (Stop CpuError) Cpu Unit} {p : Prop}
    [Decidable p] {x y : Bool} {k : Bool → CpuM Unit} {m : CpuM Unit} (hk : (k true).run cpu = r)
    (h : (if p then x else y) = true) (hm : y = true → m.run cpu = r) :
    (if p then pure x >>= k else m).run cpu = r := by
  split at h
  · next hp =>
    rw [if_pos hp, h]
    exact hk
  · next hp =>
    rw [if_neg hp]
    exact hm h

theorem execBranch_taken {cpu : Cpu} (h : branchTaken insn cpu = true) :
    (Cpu.execBranch insn).run cpu = .ok () { cpu with pc := cpu.pc + immB insn } := by
  unfold Cpu.execBranch
  rw [EStateM.run_bind, EStateM.run_get]
  exact ite_run_true rfl h fun h => ite_run_true rfl h fun h => ite_run_true rfl h
    fun h => ite_run_true rfl h fun h => ite_run_true rfl h fun h => ite_run_true rfl h
    fun h => absurd h (by decide)

/-- A jump continues at its target, whatever that is. -/
theorem step_jump {a : Word} (h : jumpTarget s.cpu.fetch s.cpu = some a) :
    ∃ t, (Cpu.step handler).run s = .ok .continue t ∧ t.cpu.pc = a := by
  show ∃ t, (Cpu.exec handler s.cpu.pc s.cpu.fetch).run s = .ok .continue t ∧ t.cpu.pc = a
  unfold jumpTarget at h
  unfold Cpu.exec
  split at h
  · next hop =>
    cases h
    rw [hop]
    exact ⟨_, rfl, rfl⟩
  · split at h
    · next hop =>
      cases h
      rw [hop]
      exact ⟨_, rfl, rfl⟩
    · split at h
      · next hb =>
        cases h
        rw [hb.1]
        show ∃ t, (do onCpu (Cpu.execBranch s.cpu.fetch); return StepOutcome.continue).run s =
          .ok .continue t ∧ _
        rw [EStateM.run_bind, onCpu, run_focus, execBranch_taken hb.2]
        exact ⟨_, rfl, rfl⟩
      · cases h

end Step

end OpenvmSim.Rv32im
