import OpenvmSim.Rv32im.Cpu
import OpenvmSim.Rv32im.Fields
import OpenvmSim.Rv32im.FlatMemory
import OpenvmSim.Rv32im.Values

/-! A step of the CPU is a step of the instruction set.

`archState` forgets the pages and the step counter. For every word that `Isa`
decodes, executing it commutes with `archState`: first for the registers and the
memory, then for each opcode group, then for whole instructions. -/
namespace OpenvmSim.Rv32im
open Isa

/-- The architectural state of a CPU. -/
def archState (cpu : Cpu) : ArchState where
  pc := cpu.pc
  regs r := cpu.x[r.toNat]
  mem := cpu.mem.bytes

/-! ### Registers and memory -/

section State
variable (cpu : Cpu)

theorem readReg_eq (r : Reg) : cpu.readReg r = (archState cpu).read r := rfl

theorem archState_writeReg (r : Reg) (v : Word) :
    archState (cpu.writeReg r v) = (archState cpu).write r v := by
  unfold Cpu.writeReg ArchState.write
  split
  · rfl
  · have hregs : (archState { cpu with x := cpu.x.set r.toNat v r.isLt }).regs =
        Function.update (archState cpu).regs r v := by
      funext q
      have hq := q.isLt
      have hr := r.isLt
      by_cases h : q = r
      · subst h
        simp [archState]
      · have hne : r.toNat ≠ q.toNat := fun e => h (BitVec.eq_of_toNat_eq e.symm)
        rw [Function.update_of_ne h]
        exact Vector.getElem_set_ne hr hq hne
    rw [← hregs]
    rfl

theorem loadNat_one (addr : Word) :
    (archState cpu).loadNat addr 1 = (cpu.mem.readU8 addr).toNat := rfl

theorem loadNat_two (addr : Word) :
    (archState cpu).loadNat addr 2 = (cpu.mem.readU16 addr).toNat := by
  rw [Memory.readU16_eq, LittleEndian.word16_toNat]
  rfl

theorem loadNat_four (addr : Word) :
    (archState cpu).loadNat addr 4 = (cpu.mem.readU32 addr).toNat := by
  have h2 : addr + 1#32 + 1#32 = addr + 2#32 := by grind
  have h3 : addr + 1#32 + 1#32 + 1#32 = addr + 3#32 := by grind
  rw [Memory.readU32_eq, LittleEndian.word32_toNat, ← h2, ← h3]
  rfl

theorem fetch_eq : (archState cpu).fetch = cpu.fetch := by
  rw [ArchState.fetch, loadNat_four]
  exact BitVec.ofNat_toNat ..

/-- The bytes a store writes, as an overlay. -/
theorem store_eq (addr v : Word) {n : ℕ} (hn : n ≤ 4) :
    (archState cpu).store addr n v = { archState cpu with
      mem := Flat.overlay cpu.mem.bytes addr (LittleEndian.ofNat n v.toNat) } := by
  unfold ArchState.store
  congr 1
  funext x
  have hlen := LittleEndian.length_ofNat n v.toNat
  rw [Flat.overlay_apply _ _ _ (by rw [hlen]; omega)]
  generalize (x - addr).toNat = k
  split
  · next hk =>
    rw [LittleEndian.getElem?_ofNat hk, Option.getD_some]
    apply BitVec.eq_of_toNat_eq
    rw [BitVec.extractLsb'_toNat, BitVec.toNat_ofNat, Nat.shiftRight_eq_div_pow, pow_mul]
    rfl
  · next hk =>
    rw [List.getElem?_eq_none (by omega)]
    rfl

end State

/-! ### The opcode groups -/

section Groups
variable (cpu : Cpu) {insn : Word}

theorem execBranch_run {op : BranchOp} (h : branchOp (funct3Field insn) = some op) :
    (Cpu.execBranch insn).run cpu = .ok () { cpu with
      pc := if op.taken (cpu.readReg (rs1 insn)) (cpu.readReg (rs2 insn)) then cpu.pc + immB insn
        else cpu.pc + 4#32 } := by
  unfold branchOp at h
  split at h <;> cases h <;> next hf =>
    simp [Cpu.execBranch, funct3_eq, hf, BranchOp.taken, BitVec.slt_eq_decide, BitVec.sle_eq_decide,
      BitVec.ult_eq_decide, BitVec.ule_eq_decide]

theorem execLoad_run {op : LoadOp} (h : loadOp (funct3Field insn) = some op) :
    (Cpu.execLoad insn).run cpu = .ok () { cpu.writeReg (rd insn)
      (op.value (archState cpu) (cpu.readReg (rs1 insn) + immI insn)) with pc := cpu.pc + 4#32 } := by
  unfold loadOp at h
  split at h <;> cases h <;> next hf =>
    simp [Cpu.execLoad, funct3_eq, hf, LoadOp.value, loadNat_one, loadNat_two, loadNat_four]

theorem execOpImm_run {op : ImmOp} (h : immOp (funct3Field insn) = some op) :
    (Cpu.execOpImm insn).run cpu = .ok () { cpu.writeReg (rd insn)
      (op.value (cpu.readReg (rs1 insn)) (immI insn)) with pc := cpu.pc + 4#32 } := by
  unfold immOp at h
  split at h <;> cases h <;> next hf =>
    simp [Cpu.execOpImm, funct3_eq, hf, ImmOp.value, slt_value, ult_value, ← add_value]

theorem execOpImm_run_shift {op : ShiftOp}
    (h : shiftOp (funct3Field insn) (funct7Field insn) = some op) :
    (Cpu.execOpImm insn).run cpu = .ok () { cpu.writeReg (rd insn)
      (op.value (cpu.readReg (rs1 insn)) (rs2Field insn).toNat) with pc := cpu.pc + 4#32 } := by
  unfold shiftOp at h
  split at h <;> cases h <;> next hf3 hf7 =>
    simp [Cpu.execOpImm, funct3_eq, funct7_eq, hf3, hf7, ShiftOp.value, shamt_toNat,
      ← shiftLeft_value, ← ushiftRight_value, ← sshiftRight_value]

/-- The register-register results as the interpreter's own expressions. -/
theorem regOp_value (a b : Word) (op : RegOp) :
    op.value a b =
      match op with
      | .add => a + b
      | .sub => a - b
      | .sll => a <<< (b &&& 0x1f#32).toNat
      | .slt => (BitVec.ofBool (a.slt b)).setWidth 32
      | .sltu => (BitVec.ofBool (a.ult b)).setWidth 32
      | .xor => a ^^^ b
      | .srl => a >>> (b &&& 0x1f#32).toNat
      | .sra => a.sshiftRight (b &&& 0x1f#32).toNat
      | .or => a ||| b
      | .and => a &&& b
      | .mul => a * b
      | .mulh => ((a.signExtend 64 * b.signExtend 64).sshiftRight 32).setWidth 32
      | .mulhsu => ((a.signExtend 64 * b.setWidth 64).sshiftRight 32).setWidth 32
      | .mulhu => ((a.setWidth 64 * b.setWidth 64) >>> 32).setWidth 32
      | .div =>
        if b = 0#32 then 0xffffffff#32
        else if a = 0x80000000#32 ∧ b = 0xffffffff#32 then 0x80000000#32
        else a.sdiv b
      | .divu => if b = 0#32 then 0xffffffff#32 else a / b
      | .rem =>
        if b = 0#32 then a
        else if a = 0x80000000#32 ∧ b = 0xffffffff#32 then 0#32
        else a.srem b
      | .remu => if b = 0#32 then a else a % b := by
  cases op with
  | add => exact (add_value a b).symm
  | sub => exact (sub_value a b).symm
  | sll => rw [low_five, shiftLeft_value, RegOp.value]
  | slt => exact (slt_value a b).symm
  | sltu => exact (ult_value a b).symm
  | srl => rw [low_five, ushiftRight_value, RegOp.value]
  | sra => rw [low_five, sshiftRight_value, RegOp.value]
  | mul => exact (mul_value a b).symm
  | mulh => exact (mulh_value a b).symm
  | mulhsu => exact (mulhsu_value a b).symm
  | mulhu => exact (mulhu_value a b).symm
  | div =>
    simp only [RegOp.value, ← overflow_iff]
    by_cases h : a = 0x80000000#32 ∧ b = 0xffffffff#32
    · rw [if_pos h, if_pos h, h.1]
      rfl
    · rw [if_neg h, if_neg h, sdiv_value h]
      rfl
  | divu =>
    rw [udiv_value]
    rfl
  | rem => simp only [RegOp.value, ← overflow_iff, srem_value]
  | remu =>
    rw [umod_value]
    rfl
  | xor | or | and => rfl

theorem execOp_run {op : RegOp} (h : regOp (funct7Field insn) (funct3Field insn) = some op) :
    (Cpu.execOp insn).run cpu = .ok () { cpu.writeReg (rd insn)
      (op.value (cpu.readReg (rs1 insn)) (cpu.readReg (rs2 insn))) with pc := cpu.pc + 4#32 } := by
  rw [regOp_value]
  unfold regOp at h
  split at h <;> cases h <;> next hf7 hf3 =>
    simp [Cpu.execOp, funct3_eq, funct7_eq, hf3, hf7]
    -- the divisions are left with their special cases
    all_goals (repeat' split) <;> rfl

theorem execStore_run {op : StoreOp} (h : storeOp (funct3Field insn) = some op) :
    ∃ mem : Memory, (Cpu.execStore insn).run cpu = .ok () { cpu with mem, pc := cpu.pc + 4#32 } ∧
      mem.bytes = Flat.overlay cpu.mem.bytes (cpu.readReg (rs1 insn) + immS insn)
        (LittleEndian.ofNat op.bytes (cpu.readReg (rs2 insn)).toNat) := by
  unfold storeOp at h
  split at h
  case h_1 hf =>
    cases h
    refine ⟨_, by simp [Cpu.execStore, funct3_eq, hf]; rfl, ?_⟩
    rw [Memory.bytes_writeU8, ← BitVec.ofNat_toNat]
    rfl
  case h_2 hf =>
    cases h
    refine ⟨_, by simp [Cpu.execStore, funct3_eq, hf]; rfl, ?_⟩
    rw [Memory.bytes_writeU16, BitVec.toNat_setWidth]
    exact congrArg _ (LittleEndian.ofNat_mod 2 _)
  case h_3 hf =>
    cases h
    refine ⟨_, by simp [Cpu.execStore, funct3_eq, hf]; rfl, ?_⟩
    rw [Memory.bytes_writeU32]
    rfl
  case h_4 => cases h

end Groups

/-! ### One instruction -/

section Step
variable {H : Type} (handler : CustomOpHandler H) (s : Sim H) {insn : Word}

/-- Executing `insn` continues, takes the architectural state where the instruction
set takes it, and leaves the step counter and the handler alone. -/
def Refines (insn : Word) (i : Instr) : Prop :=
  ∃ cpu', (Cpu.exec handler s.cpu.pc insn).run s = .ok .continue { s with cpu := cpu' } ∧
    archState cpu' = i.exec (archState s.cpu) ∧ cpu'.steps = s.cpu.steps

/-- A register write followed by a new pc. -/
theorem archState_retire (cpu : Cpu) (r : Reg) (v pc : Word) :
    archState { cpu.writeReg r v with pc } = { (archState cpu).write r v with pc } := by
  rw [← archState_writeReg]
  rfl

theorem next_write (a : ArchState) (r : Reg) (v : Word) :
    (a.write r v).next = { a.write r v with pc := a.pc + 4#32 } := by
  unfold ArchState.next ArchState.write
  split <;> rfl

/-- An instruction that writes one register and goes on to `pc`. -/
theorem refines_of_retire {i : Instr} {r : Reg} {v pc : Word}
    (hrun : (Cpu.exec handler s.cpu.pc insn).run s =
      .ok .continue { s with cpu := { s.cpu.writeReg r v with pc } })
    (hexec : i.exec (archState s.cpu) = { (archState s.cpu).write r v with pc }) :
    Refines handler s insn i :=
  ⟨_, hrun, by rw [archState_retire, hexec], s.cpu.steps_writeReg _ _⟩

/-- The opcode groups that only touch the CPU. -/
theorem run_group {m : CpuM Unit} {cpu' : Cpu}
    (hexec : Cpu.exec handler s.cpu.pc insn = do onCpu m; return .continue)
    (hm : m.run s.cpu = .ok () cpu') :
    (Cpu.exec handler s.cpu.pc insn).run s = .ok .continue { s with cpu := cpu' } := by
  rw [hexec, EStateM.run_bind, onCpu, run_focus, hm]
  rfl

theorem refines_lui (h : majorOpcode insn = 0b0110111#7) :
    Refines handler s insn (.lui (rdField insn) (uImm insn)) := by
  have hexec : Cpu.exec handler s.cpu.pc insn = do
      onCpu (modify fun cpu => { cpu.writeReg (rd insn) (immU insn) with pc := s.cpu.pc + 4#32 })
      return .continue := by
    unfold Cpu.exec
    rw [opcode_eq, h]
    rfl
  refine refines_of_retire handler s (run_group handler s hexec rfl) ?_
  rw [Instr.exec, next_write, rd_eq, immU_eq]
  rfl

theorem refines_auipc (h : majorOpcode insn = 0b0010111#7) :
    Refines handler s insn (.auipc (rdField insn) (uImm insn)) := by
  have hexec : Cpu.exec handler s.cpu.pc insn = do
      onCpu (modify fun cpu =>
        { cpu.writeReg (rd insn) (s.cpu.pc + immU insn) with pc := s.cpu.pc + 4#32 })
      return .continue := by
    unfold Cpu.exec
    rw [opcode_eq, h]
    rfl
  refine refines_of_retire handler s (run_group handler s hexec rfl) ?_
  rw [Instr.exec, next_write, rd_eq, immU_eq]
  rfl

theorem refines_jal (h : majorOpcode insn = 0b1101111#7) :
    Refines handler s insn (.jal (rdField insn) (jImm insn)) := by
  have hexec : Cpu.exec handler s.cpu.pc insn = do
      onCpu (modify fun cpu =>
        { cpu.writeReg (rd insn) (s.cpu.pc + 4#32) with pc := s.cpu.pc + immJ insn })
      return .continue := by
    unfold Cpu.exec
    rw [opcode_eq, h]
    rfl
  refine refines_of_retire handler s (run_group handler s hexec rfl) ?_
  rw [Instr.exec, rd_eq, immJ_eq]
  rfl

/-- JALR clears the low bit of its target. -/
theorem clear_low_bit (w : Word) : w &&& ~~~1#32 = w.extractLsb' 1 31 ++ 0#1 := by
  have hmask : ∀ i, i < 32 → (~~~1#32).getLsbD i = decide (1 ≤ i) := by decide
  apply BitVec.eq_of_getLsbD_eq
  intro i hi
  rw [BitVec.getLsbD_and, hmask i hi, BitVec.getLsbD_append]
  by_cases h : i < 1
  · simp [h, show ¬1 ≤ i by omega]
  · simp [h, show 1 ≤ i by omega, show i - 1 < 31 by omega, show 1 + (i - 1) = i by omega]

theorem refines_jalr (h : majorOpcode insn = 0b1100111#7) :
    Refines handler s insn (.jalr (rdField insn) (rs1Field insn) (iImm insn)) := by
  have hexec : Cpu.exec handler s.cpu.pc insn = do
      onCpu (modify fun cpu => { cpu.writeReg (rd insn) (s.cpu.pc + 4#32) with
        pc := (cpu.readReg (rs1 insn) + immI insn) &&& ~~~1#32 })
      return .continue := by
    unfold Cpu.exec
    rw [opcode_eq, h]
    rfl
  refine refines_of_retire handler s (run_group handler s hexec rfl) ?_
  rw [Instr.exec, rd_eq, clear_low_bit, immI_eq, readReg_eq, rs1_eq]
  rfl

theorem refines_branch {op : BranchOp} (h : majorOpcode insn = 0b1100011#7)
    (hop : branchOp (funct3Field insn) = some op) :
    Refines handler s insn (.branch op (rs1Field insn) (rs2Field insn) (bImm insn)) := by
  have hexec : Cpu.exec handler s.cpu.pc insn = do onCpu (Cpu.execBranch insn); return .continue := by
    unfold Cpu.exec
    rw [opcode_eq, h]
    rfl
  refine ⟨_, run_group handler s hexec (execBranch_run s.cpu hop), ?_, rfl⟩
  rw [Instr.exec, readReg_eq, readReg_eq, rs1_eq, rs2_eq, immB_eq]
  split <;> rfl

theorem refines_load {op : LoadOp} (h : majorOpcode insn = 0b0000011#7)
    (hop : loadOp (funct3Field insn) = some op) :
    Refines handler s insn (.load op (rdField insn) (rs1Field insn) (iImm insn)) := by
  have hexec : Cpu.exec handler s.cpu.pc insn = do onCpu (Cpu.execLoad insn); return .continue := by
    unfold Cpu.exec
    rw [opcode_eq, h]
    rfl
  refine refines_of_retire handler s (run_group handler s hexec (execLoad_run s.cpu hop)) ?_
  rw [Instr.exec, next_write, rd_eq, rs1_eq, immI_eq, readReg_eq]
  rfl

theorem refines_store {op : StoreOp} (h : majorOpcode insn = 0b0100011#7)
    (hop : storeOp (funct3Field insn) = some op) :
    Refines handler s insn (.store op (rs1Field insn) (rs2Field insn) (sImm insn)) := by
  have hexec : Cpu.exec handler s.cpu.pc insn = do onCpu (Cpu.execStore insn); return .continue := by
    unfold Cpu.exec
    rw [opcode_eq, h]
    rfl
  obtain ⟨mem, hrun, hmem⟩ := execStore_run s.cpu hop
  refine ⟨_, run_group handler s hexec hrun, ?_, rfl⟩
  have hn : op.bytes ≤ 4 := by cases op <;> decide
  rw [readReg_eq, readReg_eq, rs1_eq, rs2_eq, immS_eq] at hmem
  rw [Instr.exec, store_eq _ _ _ hn, ← hmem]
  rfl

theorem exec_opImm (h : majorOpcode insn = 0b0010011#7) : Cpu.exec handler s.cpu.pc insn = do
    onCpu (Cpu.execOpImm insn); return .continue := by
  unfold Cpu.exec
  rw [opcode_eq, h]
  rfl

theorem refines_opImm {op : ImmOp} (h : majorOpcode insn = 0b0010011#7)
    (hop : immOp (funct3Field insn) = some op) :
    Refines handler s insn (.opImm op (rdField insn) (rs1Field insn) (iImm insn)) := by
  have hrun := run_group handler s (exec_opImm handler s h) (execOpImm_run s.cpu hop)
  refine refines_of_retire handler s hrun ?_
  rw [Instr.exec, next_write, rd_eq, rs1_eq, immI_eq, readReg_eq]
  rfl

/-- An immediate shift whose result is written to `rd`. -/
theorem refines_shift_of_run {op : ShiftOp} (h : majorOpcode insn = 0b0010011#7)
    (hrun : (Cpu.execOpImm insn).run s.cpu = .ok () { s.cpu.writeReg (rd insn)
      (op.value (s.cpu.readReg (rs1 insn)) (rs2Field insn).toNat) with pc := s.cpu.pc + 4#32 }) :
    Refines handler s insn (.shift op (rdField insn) (rs1Field insn) (rs2Field insn)) := by
  refine refines_of_retire handler s (run_group handler s (exec_opImm handler s h) hrun) ?_
  rw [Instr.exec, next_write, rd_eq, rs1_eq, readReg_eq]
  rfl

theorem refines_shift {op : ShiftOp} (h : majorOpcode insn = 0b0010011#7)
    (hop : shiftOp (funct3Field insn) (funct7Field insn) = some op) :
    Refines handler s insn (.shift op (rdField insn) (rs1Field insn) (rs2Field insn)) :=
  refines_shift_of_run handler s h (execOpImm_run_shift s.cpu hop)

theorem refines_opReg {op : RegOp} (h : majorOpcode insn = 0b0110011#7)
    (hop : regOp (funct7Field insn) (funct3Field insn) = some op) :
    Refines handler s insn (.opReg op (rdField insn) (rs1Field insn) (rs2Field insn)) := by
  have hexec : Cpu.exec handler s.cpu.pc insn = do onCpu (Cpu.execOp insn); return .continue := by
    unfold Cpu.exec
    rw [opcode_eq, h]
    rfl
  refine refines_of_retire handler s (run_group handler s hexec (execOp_run s.cpu hop)) ?_
  rw [Instr.exec, next_write, rd_eq, rs1_eq, rs2_eq, readReg_eq, readReg_eq]
  rfl

theorem refines_fence (h : majorOpcode insn = 0b0001111#7) : Refines handler s insn .fence := by
  have hexec : Cpu.exec handler s.cpu.pc insn = do
      onCpu (modify fun cpu => { cpu with pc := s.cpu.pc + 4#32 })
      return .continue := by
    unfold Cpu.exec
    rw [opcode_eq, h]
    rfl
  exact ⟨_, run_group handler s hexec rfl, rfl, rfl⟩

/-- Every legal word that does not raise an exception executes as the instruction
set says. -/
theorem refines_of_decode {i : Instr} (h : decode insn = some i) (hcall : i ≠ .ecall)
    (hbreak : i ≠ .ebreak) : Refines handler s insn i := by
  unfold decode at h
  split at h
  case h_1 hop => cases h; exact refines_lui handler s hop
  case h_2 hop => cases h; exact refines_auipc handler s hop
  case h_3 hop => cases h; exact refines_jal handler s hop
  case h_4 hop =>
    split at h
    · cases h; exact refines_jalr handler s hop
    · cases h
  case h_5 hop =>
    obtain ⟨op, hsub, rfl⟩ := Option.map_eq_some_iff.mp h
    exact refines_branch handler s hop hsub
  case h_6 hop =>
    obtain ⟨op, hsub, rfl⟩ := Option.map_eq_some_iff.mp h
    exact refines_load handler s hop hsub
  case h_7 hop =>
    obtain ⟨op, hsub, rfl⟩ := Option.map_eq_some_iff.mp h
    exact refines_store handler s hop hsub
  case h_8 hop =>
    split at h
    · next op hsub => cases h; exact refines_opImm handler s hop hsub
    · obtain ⟨op, hsub, rfl⟩ := Option.map_eq_some_iff.mp h
      exact refines_shift handler s hop hsub
  case h_9 hop =>
    obtain ⟨op, hsub, rfl⟩ := Option.map_eq_some_iff.mp h
    exact refines_opReg handler s hop hsub
  case h_10 hop =>
    split at h
    · cases h; exact refines_fence handler s hop
    · cases h
  case h_11 hop =>
    split at h
    · cases h; exact absurd rfl hcall
    · split at h
      · cases h; exact absurd rfl hbreak
      · cases h
  case h_12 => cases h

/-- A step of the CPU is a step of the instruction set: if the word at the pc is a
legal RV32IM encoding other than ECALL and EBREAK, the step continues, and pc,
registers and memory are those of the instruction's definition. -/
theorem step_refines {i : Instr} (h : decode (archState s.cpu).fetch = some i)
    (hcall : i ≠ .ecall) (hbreak : i ≠ .ebreak) :
    ∃ s', (Cpu.step handler).run s = .ok .continue s' ∧
      archState s'.cpu = i.exec (archState s.cpu) ∧
      s'.cpu.steps = s.cpu.steps ∧ s'.handler = s.handler := by
  rw [fetch_eq] at h
  obtain ⟨cpu', hrun, harch, hsteps⟩ := refines_of_decode handler s h hcall hbreak
  exact ⟨_, hrun, harch, hsteps, rfl⟩

end Step

/-- A CPU about to run `addi x1, x0, 5`. -/
def addiCpu : Cpu where
  pc := 0#32
  x := Vector.replicate 32 0#32
  mem := Memory.new.writeU32 0#32 0x00500093#32
  steps := 0

theorem addiCpu_decode : decode (archState addiCpu).fetch = some (.opImm .addi 1#5 0#5 5#12) := by
  have hmem : (archState addiCpu).mem =
      Flat.overlay (fun _ => 0#8) 0#32 (LittleEndian.ofNat 4 0x00500093) :=
    Memory.bytes_writeU32 Memory.new 0#32 0x00500093#32
  have hload : (archState addiCpu).loadNat 0#32 4 = 0x00500093 := by
    simp only [ArchState.loadNat, hmem]
    decide
  rw [ArchState.fetch, show (archState addiCpu).pc = 0#32 from rfl, hload]
  decide

theorem step_refines_addi :
    ∃ s', (Cpu.step ⟨fun _ => pure .continue⟩).run (⟨addiCpu, ()⟩ : Sim Unit) = .ok .continue s' ∧
      archState s'.cpu = (Instr.opImm .addi 1#5 0#5 5#12).exec (archState addiCpu) ∧
      s'.cpu.steps = addiCpu.steps ∧ s'.handler = () :=
  step_refines _ _ addiCpu_decode (by decide) (by decide)

end OpenvmSim.Rv32im
