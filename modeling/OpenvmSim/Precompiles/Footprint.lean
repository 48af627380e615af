import OpenvmSim.Precompiles.FetchAlignment
import OpenvmSim.Precompiles.Halting
import OpenvmSim.Precompiles.HintReads
import OpenvmSim.Precompiles.Snapshot
import OpenvmSim.Precompiles.Xorin
import OpenvmSim.Rv32im.Frame
import OpenvmSim.Rv32im.InitialMemory

/-! What a run may write, and the text of a program.

The footprint of a custom word is known from the word, the registers and the tables as well.
A run leaves everything alone that is in none of the footprints of its steps (`run_frame`).
So a program that never writes into one of its segments executes that segment as it is in the
file (`run_text`). -/
namespace OpenvmSim.Precompiles
open Rv32im
open Elf (Segment LoadedProgram)

/-- What a custom word of the given kind may write. -/
def kindFootprint (insn : Word) (cpu : Cpu) : Kind → Footprint
  | .store op => .memory (cpu.readReg (rd insn)) op.width
  | .xorin => .memory (cpu.readReg (rd insn)) (cpu.readReg (rs2 insn)).toNat
  | .deliver => .memory (cpu.readReg (rd insn)) (hintLength insn cpu)
  | .isEq => .register (rd insn)
  | _ => .nothing

/-- What the next step may write. -/
def footprint (s : Machine) : Footprint :=
  if IsCustom s.cpu.fetch then kindFootprint s.cpu.fetch s.cpu (kindOf s.handler s.cpu.fetch)
  else plainFootprint s.cpu.fetch s.cpu

section Step
variable {host : Host} {s s' : Machine} {trace : List Machine}

theorem frame_store (s : Machine) (ptr : Word) {bs : List Byte} {len : ℕ} (h : bs.length ≤ len) :
    Frame (.memory ptr len) s.cpu (s.store ptr bs).cpu :=
  Frame.withMem s.cpu (Memory.bytes_writeSlice _ _ _) h

/-- A custom word writes within its footprint. -/
theorem effect_frame {insn : Word} {s₁ : Machine} {k : Kind} (h : Effect host insn s k s₁) :
    Frame (kindFootprint insn s.cpu k) s.cpu s₁.cpu := by
  cases h with
  | silent => exact .refl _ _
  | store hout => exact frame_store s _ (MemOp.length_output hout).le
  | isEq eq => exact Frame.writeReg s.cpu (rd insn) _
  | xorin h =>
    refine ⟨fun a ha => ?_, fun _ _ => rfl⟩
    rw [Sim.mem_setMem, bytes_xorBytes, Flat.combine_apply _ _ _ _ (BitVec.isLt _).le]
    exact if_neg ha
  | beq256 h => exact (Frame.refl s.cpu _).withPc s.cpu _
  | deliver h =>
    exact frame_store (s.setHint _) _ (IoState.length_readHintBytes _ _).le
  | reveal h => exact .refl _ _
  | hintInput h hio hp => exact .refl _ _
  | replace h hp => exact .refl _ _
  | push h hp => exact .refl _ _

theorem frame_advanced {f : Footprint} {c : Cpu} {s₁ : Machine} (h : Frame f c s₁.cpu) (pc : Word) :
    Frame f c (advanced pc s₁).countStep.cpu where
  bytes a ha := by
    show (advanced pc s₁).cpu.mem.bytes a = _
    rw [mem_advanced, h.bytes a ha]
  regs r hr := by
    rw [← h.regs r hr]
    exact Cpu.readReg_of_x _ (x_advanced pc s₁)

/-- One iteration writes within its footprint. -/
theorem iteration_frame (h : Iteration (customOps host) s s') : Frame (footprint s) s.cpu s'.cpu := by
  obtain ⟨hc, -⟩ | ⟨hc, s₁, he, rfl⟩ := iteration_effect h
  · rw [footprint, if_neg hc]
    obtain ⟨t, ht, rfl⟩ := iteration_iff.mp h
    have hf : Frame (plainFootprint s.cpu.fetch s.cpu) s.cpu t.cpu := (step_frame hc).of_ok ht
    exact ⟨hf.bytes, hf.regs⟩
  · rw [footprint, if_pos hc]
    exact frame_advanced (effect_frame he) _

/-! ### Runs -/

/-- An address that no step of a run writes keeps its byte. -/
theorem run_bytes (h : Run (customOps host) s trace s') {a : Word}
    (ha : ∀ u ∈ trace, ¬(footprint u).region.Contains a) : s'.cpu.mem.bytes a = s.cpu.mem.bytes a := by
  induction h with
  | done s => rfl
  | next hit _ ih =>
    rw [ih fun u hu => ha u (List.mem_cons_of_mem _ hu)]
    exact (iteration_frame hit).bytes a (ha _ List.mem_cons_self)

/-- A register that no step of a run writes keeps its value. -/
theorem run_regs (h : Run (customOps host) s trace s') {r : Reg}
    (hr : ∀ u ∈ trace, (footprint u).reg ≠ some r) : s'.cpu.readReg r = s.cpu.readReg r := by
  induction h with
  | done s => rfl
  | next hit _ ih =>
    rw [ih fun u hu => hr u (List.mem_cons_of_mem _ hu)]
    exact (iteration_frame hit).regs r (hr _ List.mem_cons_self)

end Step

/-- **A run writes nothing but the footprints of its steps.** The footprint of a step is known
before it: the bytes of its store or of its precompile's result, or the register it writes. However
a run of `Cpu.run` ends, an address in none of the footprints has the byte it had, and a
register in none of them has its value. -/
theorem run_frame (host : Host) (s : Machine) (n : ℕ) :
    ∃ trace, Run (customOps host) s trace (stateAfter ((Cpu.run (customOps host) n).run s)) ∧
      (∀ a, (∀ u ∈ trace, ¬(footprint u).region.Contains a) →
        (stateAfter ((Cpu.run (customOps host) n).run s)).cpu.mem.readU8 a = s.cpu.mem.readU8 a) ∧
      ∀ r, (∀ u ∈ trace, (footprint u).reg ≠ some r) →
        (stateAfter ((Cpu.run (customOps host) n).run s)).cpu.readReg r = s.cpu.readReg r := by
  obtain ⟨trace, hrun, -, -⟩ := run_state host s n
  exact ⟨trace, hrun, fun a ha => run_bytes hrun ha, fun r hr => run_regs hrun hr⟩

/-! ### The text of a program -/

section Text
variable {seg : Segment} {a : Word}

/-- The little-endian word at `a`, by the file data of a segment. -/
def fileWord (seg : Segment) (a : Word) : Word :=
  BitVec.ofNat 32 (LittleEndian.toNat ((seg.data.drop (a - seg.vaddr).toNat).take 4))

/-- All four bytes of the word at `a` are file data of the segment. -/
def CoversWord (seg : Segment) (a : Word) : Prop := (a - seg.vaddr).toNat + 4 ≤ seg.data.length

instance decidableCoversWord (seg : Segment) (a : Word) : Decidable (CoversWord seg a) :=
  inferInstanceAs (Decidable (_ ≤ _))

/-- The bytes of a covered word are next to each other in the file. -/
theorem covers_next (hlen : seg.data.length ≤ 2 ^ 32) (h : CoversWord seg a) {i : ℕ} (hi : i < 4) :
    seg.Covers (a + BitVec.ofNat 32 i) ∧
      (a + BitVec.ofNat 32 i - seg.vaddr).toNat = (a - seg.vaddr).toNat + i := by
  unfold CoversWord at h
  have hsum : a + BitVec.ofNat 32 i - seg.vaddr = (a - seg.vaddr) + BitVec.ofNat 32 i := by grind
  have hpos : (a + BitVec.ofNat 32 i - seg.vaddr).toNat = (a - seg.vaddr).toNat + i := by
    rw [hsum, BitVec.toNat_add, BitVec.toNat_ofNat, Nat.mod_eq_of_lt (a := i) (by omega)]
    exact Nat.mod_eq_of_lt (by omega)
  refine ⟨?_, hpos⟩
  rw [Segment.Covers, hpos]
  omega

/-- A memory that has the file data of a segment has its words. -/
theorem readU32_file {m : Memory} (hlen : seg.data.length ≤ 2 ^ 32) (h : CoversWord seg a)
    (hfile : ∀ a, seg.Covers a → seg.data[(a - seg.vaddr).toNat]? = some (m.bytes a)) :
    m.readU32 a = fileWord seg a := by
  have hvec : m.readVec a 4 = (seg.data.drop (a - seg.vaddr).toNat).take 4 := by
    refine List.ext_getElem? fun i => ?_
    by_cases hi : i < 4
    · obtain ⟨hcov, hpos⟩ := covers_next hlen h hi
      have hbyte := hfile _ hcov
      rw [hpos] at hbyte
      rw [List.getElem?_take_of_lt hi, List.getElem?_drop, hbyte]
      simp [Memory.readVec, hi, Memory.bytes_apply]
    · rw [List.getElem?_eq_none (by simpa using hi), List.getElem?_eq_none]
      rw [List.length_take]
      omega
  rw [Memory.readU32_eq, fileWord, ← hvec]
  have hzero : a + BitVec.ofNat 32 0 = a := BitVec.add_zero a
  show BitVec.ofNat 32 (LittleEndian.toNat [m.readU8 a, _, _, _]) =
    BitVec.ofNat 32 (LittleEndian.toNat [m.readU8 (a + BitVec.ofNat 32 0), _, _, _])
  rw [hzero]
  rfl

/-- **A program that does not write into a segment executes it as it is in the file.** Of a program
whose segments fit and are apart, take a segment and a run from its entry whose steps have
nothing of the segment's file data in their footprints. If the pc comes to a word of the
segment, the word fetched is the one at that place of the file. -/
theorem run_text (host : Host) (prog : LoadedProgram) (handler : PrecompileHandler)
    (hfits : ∀ seg ∈ prog.segments, seg.Fits) (hapart : prog.segments.Pairwise Segment.Apart)
    (hseg : seg ∈ prog.segments) {trace : List Machine} {t : Machine}
    (hrun : Run (customOps host) ⟨Cpu.new prog, handler⟩ trace t)
    (hkeep : ∀ u ∈ trace, ∀ a, seg.Covers a → ¬(footprint u).region.Contains a)
    (hpc : CoversWord seg t.cpu.pc) : t.cpu.fetch = fileWord seg t.cpu.pc := by
  have hlen : ∀ seg ∈ prog.segments, seg.data.length ≤ 2 ^ 32 := fun seg hseg =>
    (hfits seg hseg).trans (Nat.le_of_lt seg.memSize.isLt)
  have himage := (new_lastSegmentWins hlen).loadedAsIs hfits hapart
  refine readU32_file (hlen seg hseg) hpc fun a ha => ?_
  rw [run_bytes hrun fun u hu => hkeep u hu a ha]
  exact himage.file seg hseg a ha

end Text

/-- The word behind a jump is the one in the file. -/
theorem run_text_crooked : jumped.cpu.fetch = 0x00000013#32 := by
  have hnext : Run (customOps Host.constant) crookedStart [crookedStart] jumped :=
    .next (Option.some_get crookedStart_next).symm (.done jumped)
  have hmem : crooked.segments.get ⟨0, by decide⟩ ∈ crooked.segments := List.mem_cons_self
  have hfetch := run_text Host.constant crooked _ (by decide) (List.pairwise_singleton _ _) hmem
    hnext ?_ (by decide +kernel)
  · exact hfetch.trans (by decide +kernel)
  · have hjump : footprint crookedStart = .register 0#5 := by decide +kernel
    intro u hu a _
    rw [List.mem_singleton.mp hu, hjump]
    exact Nat.not_lt_zero _

end OpenvmSim.Precompiles
