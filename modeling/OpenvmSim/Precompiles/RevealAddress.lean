import OpenvmSim.Precompiles.Output
import OpenvmSim.Precompiles.Outcomes
import OpenvmSim.Rv32im.Fields

/-! Where a REVEAL writes.

REVEAL adds its immediate to the register `rd` without its sign, where the loads and JALR
of the core add it with its sign. The two agree on the immediates that are not negative; on
the others REVEAL writes 4096 bytes further on. -/
namespace OpenvmSim.Precompiles
open Rv32im
open Isa (iImm)

/-- The address that the core forms from a base in `rd` and the I-type immediate. -/
def effectiveAddress (insn : Word) (cpu : Cpu) : Word := cpu.readReg (rd insn) + immI insn

/-- The same I/O state with another output. -/
def withOutput (s : Machine) (output : List Byte) : Machine :=
  s.setIo { s.handler.io with output := output }

/-- Whatever the output holds, the word writes its value at byte `off` of it and continues. -/
def RevealsAt (host : Host) (insn : Word) (s : Machine) (off : Word) : Prop :=
  ∀ output, (handle host insn).run (withOutput s output) =
    .ok .continue (advanced s.cpu.pc (withOutput s
      (Sparse.put 0#8 output off.toNat (LittleEndian.ofNat 4 (s.cpu.readReg (rs1 insn)).toNat))))

section Offset
variable {host : Host} {insn insn' : Word} {s s' : Machine} {off : Word}

theorem reveal_run (h : IsReveal insn) (s : Machine) (output : List Byte) :
    (handle host insn).run (withOutput s output) =
      .ok .continue (advanced s.cpu.pc (withOutput s
        (Sparse.put 0#8 output (s.cpu.readReg (rd insn) + imm12 insn).toNat
          (LittleEndian.ofNat 4 (s.cpu.readReg (rs1 insn)).toNat)))) :=
  handle_run_ok (calls_reveal h) rfl

theorem output_advanced (pc : Word) (s : Machine) (output : List Byte) :
    (advanced pc (withOutput s output)).handler.io.output = output := by
  rw [handler_advanced]
  rfl

/-- A REVEAL writes at the register plus the unsigned immediate, and nowhere else. -/
theorem revealsAt_iff (h : IsReveal insn) :
    RevealsAt host insn s off ↔ off = s.cpu.readReg (rd insn) + imm12 insn := by
  constructor
  · intro hat
    -- into an empty output, the end of what is written gives the offset away
    have hrun := (reveal_run h s []).symm.trans (hat [])
    injection hrun with _ hstate
    have hout := congrArg (fun t : Machine => t.handler.io.output.length) hstate
    simp only [output_advanced, Sparse.length_put, List.length_nil, LittleEndian.length_ofNat]
      at hout
    apply BitVec.eq_of_toNat_eq
    omega
  · intro hoff output
    rw [hoff]
    exact reveal_run h s output

/-! ### The immediate -/

/-- What the unsigned immediate has more than the signed one. -/
def excess (insn : Word) : Word := if 0 ≤ (iImm insn).toInt then 0#32 else 4096#32

theorem imm12_eq_setWidth (insn : Word) : imm12 insn = (iImm insn).setWidth 32 := by
  have hmask : ∀ i < 32, (0xfff#32).getLsbD i = decide (i < 12) := by decide
  rw [imm12, immI_eq]
  apply BitVec.eq_of_getLsbD_eq
  intro i hi
  rw [BitVec.getLsbD_and, hmask i hi, BitVec.getLsbD_signExtend, BitVec.getLsbD_setWidth,
    decide_eq_true hi, Bool.true_and, Bool.true_and]
  by_cases h : i < 12
  · rw [if_pos h, decide_eq_true h, Bool.and_true]
  · rw [decide_eq_false h, Bool.and_false, BitVec.getLsbD_of_ge _ _ (Nat.le_of_not_lt h)]

theorem imm12_eq (insn : Word) : imm12 insn = immI insn + excess insn := by
  have hcond := BitVec.toInt_eq_toNat_cond (iImm insn)
  have hlt := (iImm insn).isLt
  rw [imm12_eq_setWidth, ← BitVec.ofNat_toNat, ← BitVec.ofInt_natCast, immI_eq, BitVec.signExtend,
    excess]
  split
  · have hsame : ((iImm insn).toNat : ℤ) = (iImm insn).toInt := by omega
    rw [hsame, BitVec.add_zero]
  · have hmore : ((iImm insn).toNat : ℤ) = (iImm insn).toInt + 4096 := by omega
    rw [hmore, BitVec.ofInt_add]
    rfl

theorem excess_eq_iff :
    excess insn = excess insn' ↔ (0 ≤ (iImm insn).toInt ↔ 0 ≤ (iImm insn').toInt) := by
  unfold excess
  by_cases h : 0 ≤ (iImm insn).toInt <;> by_cases h' : 0 ≤ (iImm insn').toInt <;> simp [h, h']

theorem excess_eq_zero_iff : excess insn = 0#32 ↔ 0 ≤ (iImm insn).toInt := by
  unfold excess
  split <;> simp_all

/-- REVEAL forms the address of the core if and only if its immediate is not negative. -/
theorem revealsAt_effective_iff (h : IsReveal insn) :
    RevealsAt host insn s (effectiveAddress insn s.cpu) ↔ 0 ≤ (iImm insn).toInt := by
  rw [revealsAt_iff h, effectiveAddress, imm12_eq, ← BitVec.add_assoc,
    BitVec.self_eq_add_right, excess_eq_zero_iff]

/-- With a base that is `d` further on and an immediate that is `d` smaller, REVEAL hits the
same bytes if and only if both immediates have the same sign. -/
theorem revealsAt_displaced_iff {d : ℤ} (h : IsReveal insn) (h' : IsReveal insn')
    (hbase : s.cpu.readReg (rd insn) = s'.cpu.readReg (rd insn') + BitVec.ofInt 32 d)
    (himm : (iImm insn').toInt = (iImm insn).toInt + d) :
    (∃ off, RevealsAt host insn s off ∧ RevealsAt host insn' s' off) ↔
      (0 ≤ (iImm insn).toInt ↔ 0 ≤ (iImm insn').toInt) := by
  have hsum : s.cpu.readReg (rd insn) + immI insn = s'.cpu.readReg (rd insn') + immI insn' := by
    rw [hbase, immI_eq, immI_eq, BitVec.signExtend, BitVec.signExtend, himm, BitVec.ofInt_add,
      BitVec.add_assoc, BitVec.add_comm (BitVec.ofInt 32 d)]
  rw [← excess_eq_iff]
  constructor
  · intro hboth
    obtain ⟨off, hat, hat'⟩ := hboth
    rw [revealsAt_iff h, imm12_eq, ← BitVec.add_assoc, hsum] at hat
    rw [revealsAt_iff h', imm12_eq, ← BitVec.add_assoc, hat] at hat'
    exact BitVec.add_right_inj _ |>.mp hat'
  · intro heq
    refine ⟨_, (revealsAt_iff h).mpr rfl, (revealsAt_iff h').mpr ?_⟩
    rw [imm12_eq, imm12_eq, ← BitVec.add_assoc, ← BitVec.add_assoc, hsum, heq]

end Offset

/-- **A REVEAL writes at the address that the core's loads and JALR form if and only if its
immediate is not negative. Of two REVEAL words whose bases differ by what their immediates
differ by, both hit the same bytes if and only if the immediates have the same sign.** -/
theorem reveal_address_iff (host : Host) :
    (∀ insn s, IsReveal insn →
      (RevealsAt host insn s (effectiveAddress insn s.cpu) ↔ 0 ≤ (iImm insn).toInt)) ∧
    ∀ insn insn' s s' (d : ℤ), IsReveal insn → IsReveal insn' →
      s.cpu.readReg (rd insn) = s'.cpu.readReg (rd insn') + BitVec.ofInt 32 d →
      (iImm insn').toInt = (iImm insn).toInt + d →
      ((∃ off, RevealsAt host insn s off ∧ RevealsAt host insn' s' off) ↔
        (0 ≤ (iImm insn).toInt ↔ 0 ≤ (iImm insn').toInt)) :=
  ⟨fun _ _ h => revealsAt_effective_iff h, fun _ _ _ _ _ h h' => revealsAt_displaced_iff h h'⟩

/-- A machine with the base of a REVEAL in `x6`. -/
def based (base : Word) : Machine := Sim.blank.setReg 6#5 base

theorem reveal_address_iff_forward :
    RevealsAt Host.constant (revealWord 4#12) (based 8#32) 12#32 ∧
      ∃ off, RevealsAt Host.constant (revealWord 4#12) (based 8#32) off ∧
        RevealsAt Host.constant (revealWord 8#12) (based 4#32) off := by
  obtain ⟨haddress, hdisplaced⟩ := reveal_address_iff Host.constant
  constructor
  · exact (haddress (revealWord 4#12) (based 8#32) (by decide)).mpr (by decide)
  · exact (hdisplaced (revealWord 4#12) (revealWord 8#12) (based 8#32) (based 4#32) 4 (by decide)
      (by decide) (by decide) (by decide)).mpr (by decide)

/-- A REVEAL four bytes below the base 8 writes at 4100 and not at 4. -/
theorem reveal_backward :
    IsReveal (revealWord (-4#12)) ∧ effectiveAddress (revealWord (-4#12)) (based 8#32).cpu = 4#32 ∧
      RevealsAt Host.constant (revealWord (-4#12)) (based 8#32) 4100#32 ∧
      ¬RevealsAt Host.constant (revealWord (-4#12)) (based 8#32) 4#32 := by
  have hreveal : IsReveal (revealWord (-4#12)) := by decide
  refine ⟨hreveal, by decide, ?_, ?_⟩
  · rw [revealsAt_iff hreveal]
    decide
  · rw [revealsAt_iff hreveal]
    decide

end OpenvmSim.Precompiles
