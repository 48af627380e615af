import OpenvmSim.Rv32im.Refinement
import OpenvmSim.Rv32im.Atomicity

/-! Which words the interpreter accepts.

The decoder is spread over the opcode groups, and three of them look at fewer fields than
the encoding has: SLLI ignores its funct7, JALR its funct3, and MISC-MEM executes as a fence
whatever its funct3 is. These words are `Lenient`. Apart from the custom opcodes a step
executes the words that are `Legal` or `Lenient`, and refuses every other one. -/
namespace OpenvmSim.Rv32im
open Isa

/-- FENCE.I, of the Zifencei extension. -/
def IsFenceI (insn : Word) : Prop := majorOpcode insn = 0b0001111#7 ∧ funct3Field insn = 1#3

/-- An RV32IM encoding that raises no exception, or FENCE.I. -/
def Legal (insn : Word) : Prop :=
  (∃ i, decode insn = some i ∧ i ≠ .ecall ∧ i ≠ .ebreak) ∨ IsFenceI insn

/-- An SLLI with a foreign funct7, a JALR with a foreign funct3, or a MISC-MEM word that is
neither FENCE nor FENCE.I. -/
def Lenient (insn : Word) : Prop :=
  (majorOpcode insn = 0b0010011#7 ∧ funct3Field insn = 1#3 ∧ funct7Field insn ≠ 0#7) ∨
    (majorOpcode insn = 0b1100111#7 ∧ funct3Field insn ≠ 0#3) ∨
    (majorOpcode insn = 0b0001111#7 ∧ funct3Field insn ≠ 0#3 ∧ funct3Field insn ≠ 1#3)

section Words
variable {insn : Word}

/-- A shift by an immediate whatever its funct7 says. -/
theorem decode_slli (hop : majorOpcode insn = 0b0010011#7) (h3 : funct3Field insn = 1#3)
    (h7 : funct7Field insn ≠ 0#7) : decode insn = none := by
  have hshift : shiftOp 1#3 (funct7Field insn) = none := by
    unfold shiftOp
    split
    · contradiction
    · contradiction
    · contradiction
    · rfl
  simp [decode, hop, h3, immOp, hshift]

theorem decode_jalr (hop : majorOpcode insn = 0b1100111#7) (h3 : funct3Field insn ≠ 0#3) :
    decode insn = none := by
  simp [decode, hop, h3]

theorem decode_miscMem (hop : majorOpcode insn = 0b0001111#7) (h3 : funct3Field insn ≠ 0#3) :
    decode insn = none := by
  simp [decode, hop, h3]

/-- The instruction set defines none of the lenient words. -/
theorem Lenient.not_legal (h : Lenient insn) : ¬Legal insn := by
  have hnone : decode insn = none := by
    obtain ⟨hop, h3, h7⟩ | ⟨hop, h3⟩ | ⟨hop, h3, -⟩ := h
    · exact decode_slli hop h3 h7
    · exact decode_jalr hop h3
    · exact decode_miscMem hop h3
  rintro (⟨i, hi, -⟩ | ⟨hop', h3'⟩)
  · rw [hnone] at hi
    cases hi
  · obtain ⟨hop, -⟩ | ⟨hop, -⟩ | ⟨-, -, h1⟩ := h
    · exact absurd (hop.symm.trans hop') (by decide)
    · exact absurd (hop.symm.trans hop') (by decide)
    · exact h1 h3'

/-- ECALL and EBREAK are SYSTEM words. -/
theorem system_of_decode {i : Instr} (h : decode insn = some i) (hi : i = .ecall ∨ i = .ebreak) :
    majorOpcode insn = 0b1110011#7 := by
  have hmap : ∀ {α : Type} {f : α → Instr} {o : Option α}, (∀ a, f a ≠ .ecall ∧ f a ≠ .ebreak) →
      o.map f ≠ some i := by
    intro α f o hf ho
    obtain ⟨a, -, rfl⟩ := Option.map_eq_some_iff.mp ho
    exact hi.elim (hf a).1 (hf a).2
  have hsome : ∀ {j : Instr}, j ≠ .ecall ∧ j ≠ .ebreak → some j ≠ some i := by
    rintro j hj ⟨⟩
    exact hi.elim hj.1 hj.2
  unfold decode at h
  split at h
  case h_1 => exact absurd h (hsome ⟨nofun, nofun⟩)
  case h_2 => exact absurd h (hsome ⟨nofun, nofun⟩)
  case h_3 => exact absurd h (hsome ⟨nofun, nofun⟩)
  case h_4 =>
    split at h
    · exact absurd h (hsome ⟨nofun, nofun⟩)
    · cases h
  case h_5 => exact absurd h (hmap fun _ => ⟨nofun, nofun⟩)
  case h_6 => exact absurd h (hmap fun _ => ⟨nofun, nofun⟩)
  case h_7 => exact absurd h (hmap fun _ => ⟨nofun, nofun⟩)
  case h_8 =>
    split at h
    · exact absurd h (hsome ⟨nofun, nofun⟩)
    · exact absurd h (hmap fun _ => ⟨nofun, nofun⟩)
  case h_9 => exact absurd h (hmap fun _ => ⟨nofun, nofun⟩)
  case h_10 =>
    split at h
    · exact absurd h (hsome ⟨nofun, nofun⟩)
    · cases h
  case h_11 hop => exact hop
  case h_12 => cases h

end Words

/-! ### What is refused -/

section Refused
variable {insn : Word}

/-- Fields that differ are read as different words. -/
theorem setWidth_ne {n : ℕ} (hn : n ≤ 32) {u v : BitVec n} (h : u ≠ v) :
    u.setWidth 32 ≠ v.setWidth 32 := by
  intro heq
  have hmod := congrArg (BitVec.setWidth n) heq
  rw [BitVec.setWidth_setWidth_of_le _ hn, BitVec.setWidth_setWidth_of_le _ hn] at hmod
  simp only [BitVec.setWidth_eq] at hmod
  exact h hmod

theorem opcode_ne (v : BitVec 7) (h : majorOpcode insn ≠ v) : opcode insn ≠ v.setWidth 32 := by
  rw [opcode_eq]
  exact setWidth_ne (by decide) h

theorem funct3_ne (v : BitVec 3) (h : funct3Field insn ≠ v) : funct3 insn ≠ v.setWidth 32 := by
  rw [funct3_eq]
  exact setWidth_ne (by decide) h

theorem funct7_ne (v : BitVec 7) (h : funct7Field insn ≠ v) : funct7 insn ≠ v.setWidth 32 := by
  rw [funct7_eq]
  exact setWidth_ne (by decide) h

/-- A field on which `f` has no value is none of those on which it has one. -/
theorem ne_of_none {α β : Type} {f : α → Option β} {a : α} (h : f a = none) {b : α}
    (hb : (f b).isSome = true) : a ≠ b := by
  rintro rfl
  rw [h] at hb
  cases hb

section Runs
variable {σ α : Type} {s : σ} {c : Prop} [Decidable c]
  {r : EStateM.Result (Stop CpuError) σ α}

theorem run_get {k : σ → EStateM (Stop CpuError) σ α} (h : (k s).run s = r) :
    (get >>= k).run s = r := h

theorem run_pos {x y : EStateM (Stop CpuError) σ α} (hc : c) (h : x.run s = r) :
    (if c then x else y).run s = r := by
  rwa [if_pos hc]

theorem run_neg {x y : EStateM (Stop CpuError) σ α} (hc : ¬c) (h : y.run s = r) :
    (if c then x else y).run s = r := by
  rwa [if_neg hc]

end Runs

variable (cpu : Cpu)

theorem execBranch_illegal (h : branchOp (funct3Field insn) = none) :
    (Cpu.execBranch insn).run cpu = .error (.err (.illegalInstruction cpu.pc insn)) cpu := by
  have hne : ∀ v, (branchOp v).isSome = true → funct3 insn ≠ v.setWidth 32 :=
    fun v hv => funct3_ne v (ne_of_none h hv)
  refine run_get (run_neg (hne 0#3 rfl) (run_neg (hne 1#3 rfl) (run_neg (hne 4#3 rfl) ?_)))
  exact run_neg (hne 5#3 rfl) (run_neg (hne 6#3 rfl) (run_neg (hne 7#3 rfl) rfl))

theorem execLoad_illegal (h : loadOp (funct3Field insn) = none) :
    (Cpu.execLoad insn).run cpu = .error (.err (.illegalInstruction cpu.pc insn)) cpu := by
  have hne : ∀ v, (loadOp v).isSome = true → funct3 insn ≠ v.setWidth 32 :=
    fun v hv => funct3_ne v (ne_of_none h hv)
  refine run_get (run_neg (hne 0#3 rfl) (run_neg (hne 1#3 rfl) (run_neg (hne 2#3 rfl) ?_)))
  exact run_neg (hne 4#3 rfl) (run_neg (hne 5#3 rfl) rfl)

theorem execStore_illegal (h : storeOp (funct3Field insn) = none) :
    (Cpu.execStore insn).run cpu = .error (.err (.illegalInstruction cpu.pc insn)) cpu := by
  have hne : ∀ v, (storeOp v).isSome = true → funct3 insn ≠ v.setWidth 32 :=
    fun v hv => funct3_ne v (ne_of_none h hv)
  exact run_get (run_neg (hne 0#3 rfl) (run_neg (hne 1#3 rfl) (run_neg (hne 2#3 rfl) rfl)))

theorem execOp_illegal (h : regOp (funct7Field insn) (funct3Field insn) = none) :
    (Cpu.execOp insn).run cpu = .error (.err (.illegalInstruction cpu.pc insn)) cpu := by
  have hne : ∀ v7 v3, (regOp v7 v3).isSome = true →
      ¬(funct7 insn = v7.setWidth 32 ∧ funct3 insn = v3.setWidth 32) := by
    rintro v7 v3 hv ⟨h7, h3⟩
    have h7' : funct7Field insn = v7 := by_contra fun hn => funct7_ne v7 hn h7
    have h3' : funct3Field insn = v3 := by_contra fun hn => funct3_ne v3 hn h3
    rw [h7', h3'] at h
    rw [h] at hv
    cases hv
  refine run_get ?_
  refine run_neg (hne 0x00#7 0#3 rfl) (run_neg (hne 0x20#7 0#3 rfl) (run_neg (hne 0x00#7 1#3 rfl) ?_))
  refine run_neg (hne 0x00#7 2#3 rfl) (run_neg (hne 0x00#7 3#3 rfl) (run_neg (hne 0x00#7 4#3 rfl) ?_))
  refine run_neg (hne 0x00#7 5#3 rfl) (run_neg (hne 0x20#7 5#3 rfl) (run_neg (hne 0x00#7 6#3 rfl) ?_))
  refine run_neg (hne 0x00#7 7#3 rfl) (run_neg (hne 0x01#7 0#3 rfl) (run_neg (hne 0x01#7 1#3 rfl) ?_))
  refine run_neg (hne 0x01#7 2#3 rfl) (run_neg (hne 0x01#7 3#3 rfl) (run_neg (hne 0x01#7 4#3 rfl) ?_))
  refine run_neg (hne 0x01#7 5#3 rfl) (run_neg (hne 0x01#7 6#3 rfl) (run_neg (hne 0x01#7 7#3 rfl) ?_))
  rfl

/-- An immediate shift with an undefined funct7, SLLI apart. -/
theorem execOpImm_illegal (h : immOp (funct3Field insn) = none)
    (hs : shiftOp (funct3Field insn) (funct7Field insn) = none) (h1 : funct3Field insn ≠ 1#3) :
    (Cpu.execOpImm insn).run cpu = .error (.err (.illegalInstruction cpu.pc insn)) cpu := by
  have hne : ∀ v, (immOp v).isSome = true → funct3 insn ≠ v.setWidth 32 :=
    fun v hv => funct3_ne v (ne_of_none h hv)
  have h5 : funct3Field insn = 5#3 := by
    have hfield : ∀ v : BitVec 3, immOp v = none → v ≠ 1#3 → v = 5#3 := by decide
    exact hfield _ h h1
  have h7 : ∀ v7, (shiftOp 5#3 v7).isSome = true → funct7 insn ≠ v7.setWidth 32 :=
    fun v7 hv => funct7_ne v7 (ne_of_none (by rwa [h5] at hs) hv)
  refine run_get ?_
  refine run_neg (hne 0#3 rfl) (run_neg (hne 2#3 rfl) (run_neg (hne 3#3 rfl) ?_))
  refine run_neg (hne 4#3 rfl) (run_neg (hne 6#3 rfl) (run_neg (hne 7#3 rfl) ?_))
  refine run_neg (funct3_ne 1#3 h1) (run_pos (by rw [funct3_eq, h5]; rfl) ?_)
  exact run_neg (h7 0x00#7 rfl) (run_neg (h7 0x20#7 rfl) rfl)

end Refused

/-! ### One step -/

section Step
variable {H : Type} (handler : CustomOpHandler H) (s : Sim H) {insn : Word}

/-- The word is refused, and nothing changes. -/
def Refuses (insn : Word) : Prop :=
  ∃ e, (Cpu.exec handler s.cpu.pc insn).run s = .error (.err e) s

theorem refuses_group {m : CpuM Unit} {e : CpuError}
    (hexec : Cpu.exec handler s.cpu.pc insn = do onCpu m; return .continue)
    (hm : m.run s.cpu = .error (.err e) s.cpu) : Refuses handler s insn := by
  refine ⟨e, ?_⟩
  rw [hexec, EStateM.run_bind, onCpu, run_focus, hm]

theorem refuses_branch (h : majorOpcode insn = 0b1100011#7)
    (hop : branchOp (funct3Field insn) = none) : Refuses handler s insn := by
  refine refuses_group handler s ?_ (execBranch_illegal s.cpu hop)
  unfold Cpu.exec
  rw [opcode_eq, h]
  rfl

theorem refuses_load (h : majorOpcode insn = 0b0000011#7)
    (hop : loadOp (funct3Field insn) = none) : Refuses handler s insn := by
  refine refuses_group handler s ?_ (execLoad_illegal s.cpu hop)
  unfold Cpu.exec
  rw [opcode_eq, h]
  rfl

theorem refuses_store (h : majorOpcode insn = 0b0100011#7)
    (hop : storeOp (funct3Field insn) = none) : Refuses handler s insn := by
  refine refuses_group handler s ?_ (execStore_illegal s.cpu hop)
  unfold Cpu.exec
  rw [opcode_eq, h]
  rfl

theorem refuses_shift (h : majorOpcode insn = 0b0010011#7)
    (hop : immOp (funct3Field insn) = none)
    (hs : shiftOp (funct3Field insn) (funct7Field insn) = none) (h1 : funct3Field insn ≠ 1#3) :
    Refuses handler s insn := by
  refine refuses_group handler s ?_ (execOpImm_illegal s.cpu hop hs h1)
  unfold Cpu.exec
  rw [opcode_eq, h]
  rfl

theorem refuses_opReg (h : majorOpcode insn = 0b0110011#7)
    (hop : regOp (funct7Field insn) (funct3Field insn) = none) : Refuses handler s insn := by
  refine refuses_group handler s ?_ (execOp_illegal s.cpu hop)
  unfold Cpu.exec
  rw [opcode_eq, h]
  rfl

/-- No SYSTEM word is executed, whatever its fields are. -/
theorem refuses_system (h : majorOpcode insn = 0b1110011#7) : Refuses handler s insn := by
  have hexec : Cpu.exec handler s.cpu.pc insn =
      if funct3 insn = 0#32 ∧ immI insn &&& 0xfff#32 = 0#32 then throw (.err (.eCall s.cpu.pc))
      else if funct3 insn = 0#32 ∧ immI insn &&& 0xfff#32 = 1#32 then
        throw (.err (.eBreak s.cpu.pc))
      else throw (.err (.illegalInstruction s.cpu.pc insn)) := by
    unfold Cpu.exec
    rw [opcode_eq, h]
    rfl
  rw [Refuses, hexec]
  split
  · exact ⟨_, rfl⟩
  · split
    · exact ⟨_, rfl⟩
    · exact ⟨_, rfl⟩

/-- A major opcode that is none of the interpreter's. -/
theorem refuses_opcode (hc : ¬IsCustom insn)
    (hne : ∀ v ∈ [0b0110111#7, 0b0010111#7, 0b1101111#7, 0b1100111#7, 0b1100011#7, 0b0000011#7,
      0b0100011#7, 0b0010011#7, 0b0110011#7, 0b0001111#7, 0b1110011#7], majorOpcode insn ≠ v) :
    Refuses handler s insn := by
  have hop : ∀ v ∈ [0b0110111#7, 0b0010111#7, 0b1101111#7, 0b1100111#7, 0b1100011#7, 0b0000011#7,
      0b0100011#7, 0b0010011#7, 0b0110011#7, 0b0001111#7, 0b1110011#7],
      opcode insn ≠ v.setWidth 32 := fun v hv => opcode_ne v (hne v hv)
  refine ⟨.illegalInstruction s.cpu.pc insn, ?_⟩
  refine run_neg (hop 0b0110111#7 (by decide)) (run_neg (hop 0b0010111#7 (by decide)) ?_)
  refine run_neg (hop 0b1101111#7 (by decide)) (run_neg (hop 0b1100111#7 (by decide)) ?_)
  refine run_neg (hop 0b1100011#7 (by decide)) (run_neg (hop 0b0000011#7 (by decide)) ?_)
  refine run_neg (hop 0b0100011#7 (by decide)) (run_neg (hop 0b0010011#7 (by decide)) ?_)
  refine run_neg (hop 0b0110011#7 (by decide)) (run_neg (hop 0b0001111#7 (by decide)) ?_)
  exact run_neg (hop 0b1110011#7 (by decide)) (run_neg hc rfl)

/-- An immediate shift to the left ignores its funct7. -/
theorem refines_slli (h : majorOpcode insn = 0b0010011#7) (h3 : funct3Field insn = 1#3) :
    Refines handler s insn (.shift .slli (rdField insn) (rs1Field insn) (rs2Field insn)) := by
  have hrun : (Cpu.execOpImm insn).run s.cpu = .ok () { s.cpu.writeReg (rd insn)
      (ShiftOp.slli.value (s.cpu.readReg (rs1 insn)) (rs2Field insn).toNat) with
      pc := s.cpu.pc + 4#32 } := by
    simp [Cpu.execOpImm, funct3_eq, h3, ShiftOp.value, shamt_toNat, ← shiftLeft_value]
  exact refines_shift_of_run handler s h hrun

/-- A lenient word executes as the instruction that differs from it in the ignored field. -/
theorem refines_lenient (h : Lenient insn) : ∃ i, Refines handler s insn i := by
  obtain ⟨hop, h3, -⟩ | ⟨hop, -⟩ | ⟨hop, -⟩ := h
  · exact ⟨_, refines_slli handler s hop h3⟩
  · exact ⟨_, refines_jalr handler s hop⟩
  · exact ⟨_, refines_fence handler s hop⟩

theorem refines_legal (h : Legal insn) : ∃ i, Refines handler s insn i := by
  obtain ⟨i, hi, hcall, hbreak⟩ | ⟨hop, -⟩ := h
  · exact ⟨i, refines_of_decode handler s hi hcall hbreak⟩
  · exact ⟨_, refines_fence handler s hop⟩

/-- A word without a decoding is refused, unless it is a FENCE.I or lenient. -/
theorem refuses_of_decode (h : decode insn = none) (hf : ¬IsFenceI insn) (hl : ¬Lenient insn)
    (hc : ¬IsCustom insn) : Refuses handler s insn := by
  unfold decode at h
  split at h
  case h_1 => cases h
  case h_2 => cases h
  case h_3 => cases h
  case h_4 hop =>
    split at h
    · cases h
    · next h3 => exact absurd (.inr (.inl ⟨hop, h3⟩)) hl
  case h_5 hop => exact refuses_branch handler s hop (Option.map_eq_none_iff.mp h)
  case h_6 hop => exact refuses_load handler s hop (Option.map_eq_none_iff.mp h)
  case h_7 hop => exact refuses_store handler s hop (Option.map_eq_none_iff.mp h)
  case h_8 hop =>
    split at h
    · cases h
    · next himm =>
      have hs := Option.map_eq_none_iff.mp h
      refine refuses_shift handler s hop himm hs fun h1 => hl (.inl ⟨hop, h1, fun h7 => ?_⟩)
      rw [h1, h7] at hs
      cases hs
  case h_9 hop => exact refuses_opReg handler s hop (Option.map_eq_none_iff.mp h)
  case h_10 hop =>
    split at h
    · cases h
    · next h0 => exact absurd (.inr (.inr ⟨hop, h0, fun h1 => hf ⟨hop, h1⟩⟩)) hl
  case h_11 hop => exact refuses_system handler s hop
  case h_12 =>
    refine refuses_opcode handler s hc fun v hv heq => ?_
    subst heq
    simp only [List.mem_cons, List.not_mem_nil, or_false] at hv
    obtain hv | hv | hv | hv | hv | hv | hv | hv | hv | hv | hv := hv <;> contradiction

theorem refuses_illegal (h : ¬Legal insn) (hl : ¬Lenient insn) (hc : ¬IsCustom insn) :
    Refuses handler s insn := by
  have hf : ¬IsFenceI insn := fun hf => h (.inr hf)
  cases hd : decode insn with
  | none => exact refuses_of_decode handler s hd hf hl hc
  | some i =>
    have hcall : i = .ecall ∨ i = .ebreak := by
      by_contra hn
      exact h (.inl ⟨i, hd, fun he => hn (.inl he), fun he => hn (.inr he)⟩)
    exact refuses_system handler s (system_of_decode hd hcall)

end Step

theorem step_run {H : Type} (handler : CustomOpHandler H) (s : Sim H) :
    (Cpu.step handler).run s = (Cpu.exec handler s.cpu.pc s.cpu.fetch).run s := rfl

/-- **What the interpreter accepts.** Away from the custom opcodes a step continues exactly on
the legal words and refuses every other one with an error that changes nothing, unless the
word is lenient. -/
theorem step_accepts_iff {H : Type} (handler : CustomOpHandler H) (s : Sim H)
    (hc : ¬IsCustom s.cpu.fetch) :
    (((∃ o s', (Cpu.step handler).run s = .ok o s') ↔ Legal s.cpu.fetch) ∧
      (¬Legal s.cpu.fetch → ∃ e, (Cpu.step handler).run s = .error (.err e) s)) ↔
    ¬Lenient s.cpu.fetch := by
  rw [step_run]
  constructor
  · rintro ⟨hok, -⟩ hl
    obtain ⟨i, cpu', hrun, -⟩ := refines_lenient handler s hl
    exact hl.not_legal (hok.mp ⟨_, _, hrun⟩)
  · intro hl
    have hrefuse := fun h => refuses_illegal handler s h hl hc
    refine ⟨⟨fun ⟨o, s', hrun⟩ => ?_, fun h => ?_⟩, hrefuse⟩
    · by_contra hlegal
      obtain ⟨e, he⟩ := hrefuse hlegal
      cases he.symm.trans hrun
    · obtain ⟨i, cpu', hrun, -⟩ := refines_legal handler s h
      exact ⟨_, _, hrun⟩

/-- A handler that does nothing. -/
def idleOps : CustomOpHandler Unit := ⟨fun _ => pure .continue⟩

/-- A machine about to run an SLLI whose funct7 is 64. -/
def reservedShift : Sim Unit where
  cpu := { pc := 0#32, x := Vector.replicate 32 0#32, mem := Memory.new.writeU32 0#32 0x80009093#32,
           steps := 0 }
  handler := ()

theorem reservedShift_fetch : reservedShift.cpu.fetch = 0x80009093#32 := by decide +kernel

theorem reservedShift_not_custom : ¬IsCustom reservedShift.cpu.fetch := by
  rw [reservedShift_fetch]
  rintro (h | h) <;> revert h <;> decide

theorem reservedShift_lenient : Lenient reservedShift.cpu.fetch := by
  rw [reservedShift_fetch]
  exact .inl ⟨by decide, by decide, by decide⟩

theorem step_accepts_iff_shift :
    ¬(((∃ o s', (Cpu.step idleOps).run reservedShift = .ok o s') ↔ Legal reservedShift.cpu.fetch) ∧
      (¬Legal reservedShift.cpu.fetch →
        ∃ e, (Cpu.step idleOps).run reservedShift = .error (.err e) reservedShift)) :=
  fun h => (step_accepts_iff _ _ reservedShift_not_custom).mp h reservedShift_lenient

/-- A word that is no instruction, and a step that executes it. -/
theorem reservedShift_executes : ∃ s : Sim Unit, ¬IsCustom s.cpu.fetch ∧ ¬Legal s.cpu.fetch ∧
    ∃ s', (Cpu.step idleOps).run s = .ok .continue s' := by
  refine ⟨_, reservedShift_not_custom, reservedShift_lenient.not_legal, ?_⟩
  obtain ⟨i, cpu', hrun, -⟩ := refines_lenient idleOps _ reservedShift_lenient
  rw [step_run]
  exact ⟨_, hrun⟩

end OpenvmSim.Rv32im
