import OpenvmSim.Rv32im.Assemble
import OpenvmSim.Rv32im.InitialMemory
import OpenvmSim.Rv32im.IsaRun

/-! Programs as lists of words.

A listing is executed without a memory for the instructions: the word at the pc is looked up in
the list. A memory that holds the words gives the same execution, as long as no instruction
writes into them (`Listing.steps_refine`). So a program that is assembled into a segment runs
as it is written (`run_prog`). -/
namespace OpenvmSim.Isa
open Rv32im (Byte Word Reg)

/-- Words one after the other from `base` on, at most once round the address space. -/
structure Listing where
  base : Word
  words : List Word
  fits : 4 * words.length ≤ 2 ^ 32

/-- The bytes an instruction writes. -/
def Instr.Writes (s : ArchState) : Instr → Word → Prop
  | .store op rs1 _ imm, a => (a - (s.read rs1 + imm.signExtend 32)).toNat < op.bytes
  | _, _ => False

/-- Everything else is left alone. -/
theorem exec_outside {s : ArchState} {i : Instr} {a : Word} (h : ¬i.Writes s a) :
    (i.exec s).mem a = s.mem a := by
  have hwrite : ∀ r v, (s.write r v).mem a = s.mem a := by
    intro r v
    unfold ArchState.write
    split <;> rfl
  cases i with
  | store op rs1 rs2 imm => exact if_neg h
  | branch op rs1 rs2 imm =>
    rw [Instr.exec]
    split <;> rfl
  | fence | ecall | ebreak => rfl
  | _ => exact hwrite _ _

namespace Listing
variable (l : Listing)

/-- The listing has the word `w` at `a`. -/
def Has (a w : Word) : Prop := ∃ k, l.words[k]? = some w ∧ a = l.base + BitVec.ofNat 32 (4 * k)

/-- The address is one of the listing's bytes. -/
def Contains (a : Word) : Prop := (a - l.base).toNat < 4 * l.words.length

/-- The memory has the words of the listing in their places. -/
def Holds (mem : Word → Byte) : Prop :=
  ∀ k w, l.words[k]? = some w → ∀ j, j < 4 →
    mem (l.base + BitVec.ofNat 32 (4 * k + j)) = w.extractLsb' (8 * j) 8

/-- The instruction at the pc is executed. It may not write into the listing. -/
def Step (a b : ArchState) : Prop :=
  ∃ i, l.Has a.pc (encode i) ∧ i.EvenOffset ∧ i ≠ .ecall ∧ i ≠ .ebreak ∧
    (∀ x, i.Writes a x → ¬l.Contains x) ∧ i.exec a = b

/-- Instructions of the listing, each the one at the pc. -/
inductive Steps : ℕ → ArchState → ArchState → Prop where
  | refl (a : ArchState) : Steps 0 a a
  | head {k : ℕ} {a b c : ArchState} (h : l.Step a b) (hs : Steps k b c) : Steps (k + 1) a c

variable {l}

/-- The four bytes of a word. -/
theorem bytes_word (w : Word) : LittleEndian.ofNat 4 w.toNat =
    [w.extractLsb' 0 8, w.extractLsb' 8 8, w.extractLsb' 16 8, w.extractLsb' 24 8] := by
  refine List.ext_getElem? fun j => ?_
  by_cases hj : j < 4
  · rw [LittleEndian.getElem?_ofNat_word hj]
    interval_cases j <;> rfl
  · rw [List.getElem?_eq_none, List.getElem?_eq_none] <;> simpa using hj

/-- A word in memory is the one fetched. -/
theorem Holds.fetch {s : ArchState} (h : l.Holds s.mem) {w : Word} (hat : l.Has s.pc w) :
    s.fetch = w := by
  obtain ⟨k, hk, hpc⟩ := hat
  have hbyte : ∀ j, j < 4 → s.mem (s.pc + BitVec.ofNat 32 j) = w.extractLsb' (8 * j) 8 := by
    intro j hj
    rw [hpc, BitVec.add_assoc, ← BitVec.ofNat_add]
    exact h k w hk j hj
  have h0 : s.mem s.pc = w.extractLsb' 0 8 := by simpa using hbyte 0 (by decide)
  have h1 : s.mem (s.pc + 1#32) = w.extractLsb' 8 8 := hbyte 1 (by decide)
  have h2 : s.mem (s.pc + 1#32 + 1#32) = w.extractLsb' 16 8 := by
    rw [BitVec.add_assoc]
    exact hbyte 2 (by decide)
  have h3 : s.mem (s.pc + 1#32 + 1#32 + 1#32) = w.extractLsb' 24 8 := by
    rw [BitVec.add_assoc, BitVec.add_assoc]
    exact hbyte 3 (by decide)
  have hload : s.loadNat s.pc 4 = LittleEndian.toNat (LittleEndian.ofNat 4 w.toNat) := by
    rw [bytes_word]
    simp only [ArchState.loadNat, h0, h1, h2, h3, LittleEndian.toNat_cons, LittleEndian.toNat_nil]
  have hword : w.toNat % 256 ^ 4 = w.toNat := Nat.mod_eq_of_lt w.isLt
  rw [ArchState.fetch, hload, LittleEndian.toNat_ofNat, hword]
  exact BitVec.ofNat_toNat ..

/-- The addresses of the listing's bytes. -/
theorem contains_byte {k j : ℕ} (hk : k < l.words.length) (hj : j < 4) :
    l.Contains (l.base + BitVec.ofNat 32 (4 * k + j)) := by
  have hfits := l.fits
  have hdiff : l.base + BitVec.ofNat 32 (4 * k + j) - l.base = BitVec.ofNat 32 (4 * k + j) := by grind
  rw [Contains, hdiff, BitVec.toNat_ofNat]
  exact (Nat.mod_le _ _).trans_lt (by omega)

/-- A memory that agrees on the listing's bytes holds it as well. -/
theorem Holds.congr {m m' : Word → Byte} (h : l.Holds m) (hm : ∀ x, l.Contains x → m' x = m x) :
    l.Holds m' := by
  intro k w hk j hj
  rw [hm _ (contains_byte (List.getElem?_eq_some_iff.mp hk).1 hj)]
  exact h k w hk j hj

/-- Executing from a memory that holds the listing is executing the listing. -/
theorem Step.refine {a b : ArchState} (h : l.Step a b) (hm : l.Holds a.mem) :
    Isa.Step a b ∧ l.Holds b.mem := by
  obtain ⟨i, hat, heven, hcall, hbreak, hkeep, rfl⟩ := h
  refine ⟨⟨i, ?_, hcall, hbreak, rfl⟩, hm.congr fun x hx => exec_outside fun hw => hkeep x hw hx⟩
  rw [hm.fetch hat]
  exact decode_encode heven

theorem Steps.refine {k : ℕ} {a b : ArchState} (h : l.Steps k a b) (hm : l.Holds a.mem) :
    Isa.Steps k a b ∧ l.Holds b.mem := by
  induction h with
  | refl a => exact ⟨.refl a, hm⟩
  | head hstep _ ih =>
    obtain ⟨hone, hm'⟩ := hstep.refine hm
    obtain ⟨hrest, hlast⟩ := ih hm'
    exact ⟨.head hone hrest, hlast⟩

end Listing
end OpenvmSim.Isa

namespace OpenvmSim.Rv32im
open Isa
open Elf (LoadedProgram)

/-- The words, loaded at 0x1000. -/
def prog (insns : List Word) : LoadedProgram :=
  let data := insns.flatMap fun i => LittleEndian.ofNat 4 i.toNat
  { entry := 0x1000#32
    segments :=
      [{ vaddr := 0x1000#32
         memSize := BitVec.ofNat 32 data.length
         writable := false
         executable := true
         data }] }

/-- Custom words end the run. -/
def nopHandler : CustomOpHandler Unit := ⟨fun _ => return .terminated 0#32⟩

theorem length_words (insns : List Word) :
    (insns.flatMap fun i => LittleEndian.ofNat 4 i.toNat).length = 4 * insns.length := by
  simp [List.length_flatMap, Nat.mul_comm]

/-- The loaded program is in memory as it is listed. -/
theorem holds_prog {insns : List Word} (hfits : 4 * insns.length ≤ 2 ^ 32) :
    (⟨0x1000#32, insns, hfits⟩ : Listing).Holds (Cpu.new (prog insns)).mem.bytes := by
  intro k w hk j hj
  have hlen := length_words insns
  have hk' : k < insns.length := (List.getElem?_eq_some_iff.mp hk).1
  have hdiff : 0x1000#32 + BitVec.ofNat 32 (4 * k + j) - 0x1000#32 = BitVec.ofNat 32 (4 * k + j) := by
    grind
  have hpos : (0x1000#32 + BitVec.ofNat 32 (4 * k + j) - 0x1000#32).toNat = k * 4 + j := by
    rw [hdiff, BitVec.toNat_ofNat, Nat.mod_eq_of_lt (by omega), Nat.mul_comm]
  have hdata : ∀ seg ∈ (prog insns).segments, seg.data.length ≤ 2 ^ 32 := by
    intro seg hseg
    rw [List.mem_singleton.mp hseg]
    exact hlen.trans_le hfits
  have hfile := (new_lastSegmentWins hdata).file [] _ [] (0x1000#32 + BitVec.ofNat 32 (4 * k + j)) rfl
    (by rw [Elf.Segment.Covers, hpos, hlen]; omega) nofun
  rw [hpos, LittleEndian.getElem?_flatMap_ofNat hj, hk, Option.bind_some,
    LittleEndian.getElem?_ofNat_word hj] at hfile
  exact (Option.some.inj hfile).symm

/-- **A program runs as it is listed.** Take any list of words, loaded at 0x1000, and execute it
from the first word on without fetching from memory: `k` times the instruction that is assembled
in the list at the pc, none of them an ECALL or EBREAK or a store into the list. Under any
handler `Cpu::run` comes to a CPU with the pc, the registers and the memory this leads to after `k`
steps, has not called the handler until then, and goes on from there with the word listed at
that pc. -/
theorem run_prog {H : Type} (handler : CustomOpHandler H) (start : H)
    {insns : List Word} (hfits : 4 * insns.length ≤ 2 ^ 32) {k : ℕ} {b : ArchState}
    (h : (⟨0x1000#32, insns, hfits⟩ : Listing).Steps k (archState (Cpu.new (prog insns))) b) :
    ∃ t : Sim H, archState t.cpu = b ∧ t.cpu.steps = k ∧ t.handler = start ∧
      (∀ n, k ≤ n → (Cpu.run handler n).run ⟨Cpu.new (prog insns), start⟩ =
        (Cpu.run handler n).run t) ∧
      ∀ w, (⟨0x1000#32, insns, hfits⟩ : Listing).Has b.pc w → t.cpu.fetch = w := by
  obtain ⟨hsteps, hholds⟩ := h.refine (holds_prog hfits)
  obtain ⟨t, rfl, hsame, hcount, hcut⟩ := run_to_steps handler ⟨_, start⟩ hsteps
  replace hcount : t.cpu.steps = k := hcount.trans (Nat.zero_add k)
  refine ⟨t, rfl, hcount, hsame, fun n hn => hcut n (hcount.trans_le hn), fun w hat => ?_⟩
  rw [← fetch_eq]
  exact hholds.fetch hat

/-- `addi x1, x0, 5; addi x2, x1, 7; addi x3, x2, -3` and a custom word. -/
def addiChain : List Word :=
  [encode (.opImm .addi 1#5 0#5 5#12), encode (.opImm .addi 2#5 1#5 7#12),
    encode (.opImm .addi 3#5 2#5 0xffd#12), 0x0000000b#32]

/-- The chain returns with 9 in x3. -/
theorem run_prog_addiChain : ∃ t : Sim Unit, t.cpu.readReg 3#5 = 9#32 ∧
    (Cpu.run nopHandler 100).run ⟨Cpu.new (prog addiChain), ()⟩ = .ok 0#32 t := by
  have hcareful : nopHandler.Careful := fun _ _ => rfl
  have hfits : 4 * addiChain.length ≤ 2 ^ 32 := by decide
  have h1 : ∀ s : ArchState, s.pc = 0x1000#32 →
      (⟨0x1000#32, addiChain, hfits⟩ : Listing).Step s ((Instr.opImm .addi 1#5 0#5 5#12).exec s) :=
    fun s hpc => ⟨_, ⟨0, rfl, hpc⟩, trivial, nofun, nofun, fun _ h => h.elim, rfl⟩
  have h2 : ∀ s : ArchState, s.pc = 0x1004#32 →
      (⟨0x1000#32, addiChain, hfits⟩ : Listing).Step s ((Instr.opImm .addi 2#5 1#5 7#12).exec s) :=
    fun s hpc => ⟨_, ⟨1, rfl, hpc⟩, trivial, nofun, nofun, fun _ h => h.elim, rfl⟩
  have h3 : ∀ s : ArchState, s.pc = 0x1008#32 →
      (⟨0x1000#32, addiChain, hfits⟩ : Listing).Step s ((Instr.opImm .addi 3#5 2#5 0xffd#12).exec s) :=
    fun s hpc => ⟨_, ⟨2, rfl, hpc⟩, trivial, nofun, nofun, fun _ h => h.elim, rfl⟩
  obtain ⟨t, harch, hsteps, -, hrun, hfetch⟩ := run_prog nopHandler () hfits
    (.head (h1 _ rfl) (.head (h2 _ rfl) (.head (h3 _ rfl) (.refl _))))
  have hcustom : t.cpu.fetch = 0x0000000b#32 := hfetch _ ⟨3, rfl, rfl⟩
  refine ⟨t, ?_, ?_⟩
  · rw [readReg_eq, harch]
    rfl
  · rw [hrun 100 (by decide), run_unfold hcareful, if_neg (by omega), step_run, hcustom]
    rfl

end OpenvmSim.Rv32im
