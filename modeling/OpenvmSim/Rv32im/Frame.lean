import OpenvmSim.Rv32im.Atomicity
import OpenvmSim.Rv32im.FlatMemory

/-! What an instruction may write.

The footprint of a word is known before it is executed: the bytes of a store, or one
register. Whatever the instruction does, everything outside its footprint is as before. -/
namespace OpenvmSim.Rv32im

/-- `len` bytes from `start` on, round the end of the address space. -/
structure Region where
  start : Word
  len : ℕ
  deriving DecidableEq

namespace Region

def Contains (r : Region) (a : Word) : Prop := (a - r.start).toNat < r.len

instance decidableContains (r : Region) (a : Word) : Decidable (r.Contains a) :=
  inferInstanceAs (Decidable (_ < _))

/-- Bytes stored in a region leave the others alone. -/
theorem overlay_outside {r : Region} {cells : List Byte} {a : Word} (h : ¬r.Contains a)
    (hlen : cells.length ≤ r.len) (m : Word → Byte) : Flat.overlay m r.start cells a = m a := by
  have hout : cells.length ≤ (a - r.start).toNat := hlen.trans (Nat.le_of_not_lt h)
  rw [Flat.overlay_apply _ _ _ (hout.trans (Nat.le_of_lt (a - r.start).isLt)),
    List.getElem?_eq_none hout, Option.getD_none]

end Region

/-- A region and perhaps a register. -/
structure Footprint where
  region : Region
  reg : Option Reg
  deriving DecidableEq

namespace Footprint

def nothing : Footprint := ⟨⟨0#32, 0⟩, none⟩
def register (r : Reg) : Footprint := ⟨⟨0#32, 0⟩, some r⟩
def memory (start : Word) (len : ℕ) : Footprint := ⟨⟨start, len⟩, none⟩

end Footprint

/-- Everything outside the footprint is as before. -/
structure Frame (f : Footprint) (c d : Cpu) : Prop where
  bytes : ∀ a, ¬f.region.Contains a → d.mem.bytes a = c.mem.bytes a
  regs : ∀ r, f.reg ≠ some r → d.readReg r = c.readReg r

namespace Frame
variable (c : Cpu)

theorem refl (f : Footprint) : Frame f c c := ⟨fun _ _ => rfl, fun _ _ => rfl⟩

/-- The pc is in no footprint. -/
theorem withPc {f : Footprint} {d : Cpu} (h : Frame f c d) (pc : Word) : Frame f c { d with pc } :=
  ⟨h.bytes, h.regs⟩

theorem writeReg (r : Reg) (v : Word) : Frame (.register r) c (c.writeReg r v) where
  bytes a _ := by rw [Cpu.mem_writeReg]
  regs r' hne := Cpu.readReg_writeReg_ne _ _ _ fun he => hne (congrArg some he.symm)

/-- A memory that differs by an overlay. -/
theorem withMem {m : Memory} {start : Word} {cells : List Byte} {len : ℕ}
    (h : m.bytes = Flat.overlay c.mem.bytes start cells) (hlen : cells.length ≤ len) :
    Frame (.memory start len) c { c with mem := m } where
  bytes a ha := by
    show m.bytes a = _
    rw [h]
    exact Region.overlay_outside (r := ⟨start, len⟩) ha hlen _
  regs _ _ := rfl

end Frame

/-! ### The interpreter's own instructions -/

/-- The number of bytes of a store, by its funct3. -/
def storeWidth (f3 : Word) : ℕ := if f3 = 0#32 then 1 else if f3 = 1#32 then 2 else 4

/-- What the word may write if it is not custom. -/
def plainFootprint (insn : Word) (cpu : Cpu) : Footprint :=
  let op := opcode insn
  if op = OPCODE_STORE then
    .memory (cpu.readReg (rs1 insn) + immS insn) (storeWidth (funct3 insn))
  else if op = OPCODE_BRANCH ∨ op = OPCODE_MISC_MEM then .nothing
  else .register (rd insn)

section Groups
variable (insn : Word) (cpu : Cpu)

/-- The CPU differs from `cpu` in the footprint only. -/
def Within (f : Footprint) (_ : Unit) (cpu' : Cpu) : Prop := Frame f cpu cpu'

theorem execBranch_frame (f : Footprint) : Atomic (Cpu.execBranch insn) cpu (Within cpu f) := by
  refine atomic_get ?_
  iterate 6 refine atomic_ite (fun _ => atomic_set ((Frame.refl cpu f).withPc cpu _)) fun _ => ?_
  exact atomic_throw _

theorem execLoad_frame :
    Atomic (Cpu.execLoad insn) cpu (Within cpu (.register (rd insn))) := by
  have hset : ∀ v, Within cpu (.register (rd insn)) ()
      { cpu.writeReg (rd insn) v with pc := cpu.pc + 4#32 } := fun v =>
    (Frame.writeReg cpu (rd insn) v).withPc cpu _
  refine atomic_get ?_
  iterate 5 refine atomic_ite (fun _ => atomic_set (hset _)) fun _ => ?_
  exact atomic_throw _

theorem execStore_frame : Atomic (Cpu.execStore insn) cpu
    (Within cpu (.memory (cpu.readReg (rs1 insn) + immS insn) (storeWidth (funct3 insn)))) := by
  have hset : ∀ {m : Memory} {cells : List Byte},
      m.bytes = Flat.overlay cpu.mem.bytes (cpu.readReg (rs1 insn) + immS insn) cells →
      cells.length ≤ storeWidth (funct3 insn) →
      Within cpu (.memory (cpu.readReg (rs1 insn) + immS insn) (storeWidth (funct3 insn))) ()
        { cpu with mem := m, pc := cpu.pc + 4#32 } := fun hm hlen =>
    (Frame.withMem cpu hm hlen).withPc cpu _
  have hbyte : ∀ a v, (cpu.mem.writeU8 a v).bytes = Flat.overlay cpu.mem.bytes a [v] := fun a v =>
    Memory.bytes_writeU8 cpu.mem a v
  refine atomic_get (atomic_ite (fun h => atomic_set (hset (hbyte _ _) ?_)) fun h0 =>
    atomic_ite (fun h => atomic_set (hset (Memory.bytes_writeU16 ..) ?_)) fun h1 =>
    atomic_ite (fun h => atomic_set (hset (Memory.bytes_writeU32 ..) ?_)) fun _ => atomic_throw _)
  · rw [h, List.length_singleton]
    decide
  · rw [h, LittleEndian.length_ofNat]
    decide
  · rw [h, LittleEndian.length_ofNat]
    decide

theorem execOpImm_frame :
    Atomic (Cpu.execOpImm insn) cpu (Within cpu (.register (rd insn))) := by
  have hset : ∀ v, Within cpu (.register (rd insn)) ()
      { cpu.writeReg (rd insn) v with pc := cpu.pc + 4#32 } := fun v =>
    (Frame.writeReg cpu (rd insn) v).withPc cpu _
  refine atomic_get ?_
  iterate 7 refine atomic_ite (fun _ => atomic_set (hset _)) fun _ => ?_
  refine atomic_ite (fun _ => ?_) fun _ => atomic_throw _
  exact atomic_ite (fun _ => atomic_set (hset _)) fun _ =>
    atomic_ite (fun _ => atomic_set (hset _)) fun _ => atomic_throw _

theorem execOp_frame : Atomic (Cpu.execOp insn) cpu (Within cpu (.register (rd insn))) := by
  have hset : ∀ v, Within cpu (.register (rd insn)) ()
      { cpu.writeReg (rd insn) v with pc := cpu.pc + 4#32 } := fun v =>
    (Frame.writeReg cpu (rd insn) v).withPc cpu _
  refine atomic_get ?_
  iterate 14 refine atomic_ite (fun _ => atomic_set (hset _)) fun _ => ?_
  refine atomic_ite (fun _ => ?_) fun _ => atomic_ite (fun _ => ?_) fun _ =>
    atomic_ite (fun _ => ?_) fun _ => atomic_ite (fun _ => ?_) fun _ => atomic_throw _
  · exact atomic_ite (fun _ => atomic_set (hset _)) fun _ =>
      atomic_ite (fun _ => atomic_set (hset _)) fun _ => atomic_set (hset _)
  · exact atomic_ite (fun _ => atomic_set (hset _)) fun _ => atomic_set (hset _)
  · exact atomic_ite (fun _ => atomic_set (hset _)) fun _ =>
      atomic_ite (fun _ => atomic_set (hset _)) fun _ => atomic_set (hset _)
  · exact atomic_ite (fun _ => atomic_set (hset _)) fun _ => atomic_set (hset _)

end Groups

section Step
variable {H : Type} {handler : CustomOpHandler H} {s : Sim H} {insn : Word}

instance decidableIsCustom (insn : Word) : Decidable (IsCustom insn) :=
  inferInstanceAs (Decidable (_ ∨ _))

/-- The CPU after a step differs from the one before in the footprint only. -/
def StepsWithin (s : Sim H) (f : Footprint) (_ : StepOutcome) (s' : Sim H) : Prop :=
  Frame f s.cpu s'.cpu

theorem onCpu_frame {m : CpuM Unit} {f : Footprint} (h : Atomic m s.cpu (Within s.cpu f)) :
    Atomic (do onCpu m; return StepOutcome.continue) s (StepsWithin s f) := by
  refine atomic_bind (P := fun _ s' => Frame f s.cpu s'.cpu) ?_ fun _ s' hs => ⟨_, s', rfl, hs⟩
  exact atomic_focus rfl h fun _ cpu' hc => hc

theorem plainFootprint_register (h : opcode insn ≠ OPCODE_STORE) (h' : opcode insn ≠ OPCODE_BRANCH)
    (h'' : opcode insn ≠ OPCODE_MISC_MEM) (cpu : Cpu) :
    plainFootprint insn cpu = .register (rd insn) := by
  rw [plainFootprint, if_neg h, if_neg (not_or.mpr ⟨h', h''⟩)]

/-- A word that is not custom stays within its footprint. -/
theorem exec_frame (hc : ¬IsCustom insn) (pc : Word) :
    Atomic (Cpu.exec handler pc insn) s (StepsWithin s (plainFootprint insn s.cpu)) := by
  have hreg : ∀ {op : Word}, opcode insn = op → op ≠ OPCODE_STORE → op ≠ OPCODE_BRANCH →
      op ≠ OPCODE_MISC_MEM → plainFootprint insn s.cpu = .register (rd insn) := by
    rintro op rfl h h' h''
    exact plainFootprint_register h h' h'' s.cpu
  have hwrite : ∀ v pc, Within s.cpu (.register (rd insn)) ()
      { s.cpu.writeReg (rd insn) v with pc } := fun v pc =>
    (Frame.writeReg s.cpu (rd insn) v).withPc s.cpu _
  refine atomic_ite (fun h => ?_) fun _ => atomic_ite (fun h => ?_) fun _ =>
    atomic_ite (fun h => ?_) fun _ => atomic_ite (fun h => ?_) fun _ =>
    atomic_ite (fun h => ?_) fun _ => atomic_ite (fun h => ?_) fun _ =>
    atomic_ite (fun h => ?_) fun _ => atomic_ite (fun h => ?_) fun _ =>
    atomic_ite (fun h => ?_) fun _ => atomic_ite (fun h => ?_) fun _ =>
    atomic_ite (fun _ => ?_) fun _ => atomic_ite (fun h => absurd h hc) fun _ => atomic_throw _
  · rw [hreg h (by decide) (by decide) (by decide)]
    exact onCpu_frame (hwrite _ _)
  · rw [hreg h (by decide) (by decide) (by decide)]
    exact onCpu_frame (hwrite _ _)
  · rw [hreg h (by decide) (by decide) (by decide)]
    exact onCpu_frame (hwrite _ _)
  · rw [hreg h (by decide) (by decide) (by decide)]
    exact onCpu_frame (hwrite _ _)
  · exact onCpu_frame (execBranch_frame insn s.cpu _)
  · rw [hreg h (by decide) (by decide) (by decide)]
    exact onCpu_frame (execLoad_frame insn s.cpu)
  · rw [plainFootprint, if_pos h]
    exact onCpu_frame (execStore_frame insn s.cpu)
  · rw [hreg h (by decide) (by decide) (by decide)]
    exact onCpu_frame (execOpImm_frame insn s.cpu)
  · rw [hreg h (by decide) (by decide) (by decide)]
    exact onCpu_frame (execOp_frame insn s.cpu)
  · exact onCpu_frame ((Frame.refl s.cpu _).withPc s.cpu _)
  · exact atomic_ite (fun _ => atomic_throw _) fun _ =>
      atomic_ite (fun _ => atomic_throw _) fun _ => atomic_throw _

theorem step_frame (hc : ¬IsCustom s.cpu.fetch) :
    Atomic (Cpu.step handler) s (StepsWithin s (plainFootprint s.cpu.fetch s.cpu)) :=
  atomic_get (exec_frame hc _)

end Step

end OpenvmSim.Rv32im
