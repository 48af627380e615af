import OpenvmSim.Precompiles.Effects

/-! What the memory precompiles write, and what they leave alone.

A word with a memory operation has one effect: the output of that operation, which
is calculated from the operand bytes before anything is written, is stored at
`[rd]`. Nothing is assumed about where operands and output lie. -/
namespace OpenvmSim.Precompiles
open Rv32im

/-! ### The length of an output -/

theorem length_flatMap_ofNat {w n : ℕ} (k : ℕ) (v : Vector (BitVec w) n) :
    (v.toList.flatMap fun x => LittleEndian.ofNat k x.toNat).length = n * k := by
  rw [List.length_flatMap]
  simp

theorem length_laneBytes (v : Lanes) : (laneBytes v).length = 200 := length_flatMap_ofNat 8 v

theorem length_stateBytes (v : Vector Word 8) : (stateBytes v).length = 32 := length_flatMap_ofNat 4 v

theorem MemOp.length_output {host : Host} {op : MemOp} {x y bs : List Byte}
    (h : op.output host x y = .ok (some bs)) : bs.length = op.width := by
  cases op with
  | keccakf =>
    have hb : laneBytes (keccakf1600 (lanesOf x)) = bs := Option.some.inj (Except.ok.inj h)
    rw [← hb]
    exact length_laneBytes _
  | sha256 =>
    have hb : stateBytes (host.compress256 (stateOf x) (blockOf y)) = bs :=
      Option.some.inj (Except.ok.inj h)
    rw [← hb]
    exact length_stateBytes _
  | int256 op =>
    obtain ⟨r, -, rfl⟩ := calc_option_ok h
    exact Vector.length_toList
  | modular entry op =>
    obtain ⟨r, -, rfl⟩ := calc_option_ok h
    exact BigUint.length_bytesLe _ _
  | complex entry op =>
    obtain ⟨r, -, rfl⟩ := calc_option_ok h
    exact length_pairBytes _ _
  | swAddNe curve =>
    obtain ⟨r, -, rfl⟩ := calc_some_ok h
    exact length_pairBytes _ _
  | swDouble curve =>
    obtain ⟨r, -, rfl⟩ := calc_some_ok h
    exact length_pairBytes _ _
  | swDecompress curve =>
    obtain ⟨r, -, rfl⟩ := calc_option_ok h
    exact BigUint.length_bytesLe _ _
  | swNonQr curve =>
    obtain ⟨r, -, rfl⟩ := calc_some_ok h
    exact BigUint.length_bytesLe _ _

/-- The bytes an operation stores, from the operand bytes. -/
def MemOp.result (host : Host) (op : MemOp) (x y : List Byte) : List Byte :=
  match op.output host x y with
  | .ok (some bs) => bs
  | _ => []

theorem MemOp.result_eq {host : Host} {op : MemOp} {x y bs : List Byte}
    (h : op.output host x y = .ok (some bs)) : op.result host x y = bs := by
  rw [result, h]

/-! ### The effect of a memory operation -/

section Effect
variable {host : Host} {insn : Word} {s s' : Machine}

/-- A word with a memory operation stores its output, and has no other effect. -/
theorem store_of_effect {op : MemOp} (h : WordEffect host insn s s')
    (hop : kindOf s.handler insn = .store op) :
    ∃ bs, op.output host (op.operands insn s.cpu).1 (op.operands insn s.cpu).2 = .ok (some bs) ∧
      s' = s.store (s.cpu.readReg (rd insn)) bs := by
  rw [WordEffect, hop] at h
  obtain _ | hout := h
  exact ⟨_, hout, rfl⟩

/-- An equality test writes the register `rd`, and has no other effect. -/
theorem setReg_of_effect (h : WordEffect host insn s s') (hi : IsIsEq insn) :
    ∃ eq, s' = s.setReg (rd insn) (flag eq) := by
  rw [WordEffect, kindOf_isEq _ hi] at h
  obtain _ | _ | eq := h
  exact ⟨eq, rfl⟩

end Effect

/-! ### Snapshot and frame -/

/-- Everything but the program counter and the memory is as before. -/
structure Framed (s s' : Machine) : Prop where
  regs : s'.cpu.x = s.cpu.x
  steps : s'.cpu.steps = s.cpu.steps
  handler : s'.handler = s.handler

/-- Each memory operation has a function of the operand bytes such that every
successful call, from any state and with any registers, stores that function's value
for the old operand bytes at `[rd]` and changes nothing else. An equality test
changes nothing but the register `rd`. -/
theorem handle_snapshot (host : Host) :
    (∀ op : MemOp, ∃ F : List Byte → List Byte → List Byte, ∀ insn s s',
      kindOf s.handler insn = .store op → (handle host insn).run s = .ok .continue s' →
        let bs := F (op.operands insn s.cpu).1 (op.operands insn s.cpu).2
        bs.length = op.width ∧
          s'.cpu.mem.bytes = Flat.overlay s.cpu.mem.bytes (s.cpu.readReg (rd insn)) bs ∧
          Framed s s') ∧
    ∀ insn s s', IsIsEq insn → (handle host insn).run s = .ok .continue s' →
      s'.cpu.mem = s.cpu.mem ∧ s'.cpu.steps = s.cpu.steps ∧ s'.handler = s.handler ∧
        ∀ r, r ≠ rd insn → s'.cpu.readReg r = s.cpu.readReg r := by
  constructor
  · refine fun op => ⟨op.result host, fun insn s s' hop h => ?_⟩
    obtain _ | ⟨-, he⟩ := (handle_atomic host s insn).of_ok h
    obtain ⟨bs, hout, rfl⟩ := store_of_effect he hop
    rw [MemOp.result_eq hout]
    refine ⟨MemOp.length_output hout, ?_, by simp, by simp, by simp⟩
    rw [mem_advanced, Sim.mem_store, Memory.bytes_writeSlice]
  · intro insn s s' hi h
    obtain _ | ⟨-, he⟩ := (handle_atomic host s insn).of_ok h
    obtain ⟨eq, rfl⟩ := setReg_of_effect he hi
    refine ⟨by simp, by simp, by simp, fun r hr => ?_⟩
    rw [Cpu.readReg_of_x r (x_advanced _ _), Sim.cpu_setReg, Cpu.readReg_writeReg_ne _ _ _ hr]

/-- INT256 XOR of the 32 bytes at address zero with themselves, in place. -/
def xor256Word : Word := INT256_XOR <<< 25 ||| F3_INT256 <<< 12 ||| OPCODE_CUSTOM_0

theorem handle_snapshot_xor :
    ∃ bs s', (handle Host.constant xor256Word).run Sim.blank = .ok .continue s' ∧ bs.length = 32 ∧
      s'.cpu.mem.bytes = Flat.overlay Sim.blank.cpu.mem.bytes 0#32 bs ∧ Framed Sim.blank s' := by
  obtain ⟨F, hF⟩ := (handle_snapshot Host.constant).1 (.int256 INT256_XOR)
  have hkind : kindOf Sim.blank.handler xor256Word = .store (.int256 INT256_XOR) := by decide
  exact ⟨_, _, rfl, hF xor256Word Sim.blank _ hkind rfl⟩

end OpenvmSim.Precompiles
