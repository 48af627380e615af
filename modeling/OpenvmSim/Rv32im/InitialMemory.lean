import Mathlib.Data.List.Pairwise
import OpenvmSim.Base.Loop
import OpenvmSim.Elf.LoaderTotal
import OpenvmSim.Rv32im.Cpu
import OpenvmSim.Rv32im.FlatMemory

/-! The memory a program starts with.

`Cpu.new` copies the data of the segments in order, so that the last segment with data
for an address decides its byte, and bytes without data are zero. Segments whose data fit
their sizes and whose ranges are apart are then in memory as they are in the file, with
zeros behind the data. The instruction fetch sees the same bytes. -/
namespace OpenvmSim.Rv32im
open Elf (Segment LoadedProgram)

/-- A byte is that of the last segment with data for it, or zero. -/
structure LastSegmentWins (segments : List Segment) (mem : Word → Byte) : Prop where
  file : ∀ before seg after a, segments = before ++ seg :: after → seg.Covers a →
    (∀ s ∈ after, ¬s.Covers a) → seg.data[(a - seg.vaddr).toNat]? = some (mem a)
  rest : ∀ a, (∀ seg ∈ segments, ¬seg.Covers a) → mem a = 0#8

/-- Every file byte is in its place, and every BSS byte is zero. -/
structure LoadedAsIs (segments : List Segment) (mem : Word → Byte) : Prop where
  file : ∀ seg ∈ segments, ∀ a, seg.Covers a → seg.data[(a - seg.vaddr).toNat]? = some (mem a)
  bss : ∀ seg ∈ segments, ∀ a, seg.Contains a → ¬seg.Covers a → mem a = 0#8

/-- Segments that fit and are apart do not overwrite each other. -/
theorem LastSegmentWins.loadedAsIs {segments : List Segment} {mem : Word → Byte}
    (h : LastSegmentWins segments mem) (hfits : ∀ seg ∈ segments, seg.Fits)
    (hapart : segments.Pairwise Segment.Apart) : LoadedAsIs segments mem := by
  constructor
  · intro seg hseg a hcovers
    obtain ⟨before, after, rfl⟩ := List.append_of_mem hseg
    have hlater : ∀ s ∈ after, seg.Apart s :=
      (List.pairwise_cons.mp (List.pairwise_append.mp hapart).2.1).1
    refine h.file before seg after a rfl hcovers fun s hs hc => ?_
    have hsfits : s.Fits := hfits s (by simp [hs])
    exact hlater s hs a ⟨(hfits seg hseg).contains hcovers, hsfits.contains hc⟩
  · intro seg hseg a hcontains hfree
    refine h.rest a fun s hs hc => ?_
    have hne : seg ≠ s := fun heq => hfree (heq ▸ hc)
    exact hapart.forall hseg hs hne a ⟨hcontains, (hfits s hs).contains hc⟩

/-! ### The memory of a new CPU -/

/-- Copy the file bytes of a segment. -/
def loadSegment (mem : Memory) (seg : Segment) : Memory := mem.writeSlice seg.vaddr seg.data

theorem new_mem (prog : LoadedProgram) :
    (Cpu.new prog).mem = prog.segments.foldl loadSegment Memory.new := rfl

theorem readU8_loadSegment (mem : Memory) {seg : Segment} (h : seg.data.length ≤ 2 ^ 32)
    (a : Word) :
    (loadSegment mem seg).readU8 a = seg.data[(a - seg.vaddr).toNat]?.getD (mem.readU8 a) := by
  rw [loadSegment, ← Memory.bytes_apply, Memory.bytes_writeSlice, Flat.overlay_apply _ _ _ h]
  rfl

theorem readU8_loadSegment_of_not_covers {seg : Segment} {a : Word} (h : seg.data.length ≤ 2 ^ 32)
    (hfree : ¬seg.Covers a) (mem : Memory) : (loadSegment mem seg).readU8 a = mem.readU8 a := by
  rw [readU8_loadSegment mem h, List.getElem?_eq_none (Nat.le_of_not_lt hfree), Option.getD_none]

theorem new_lastSegmentWins {prog : LoadedProgram}
    (h : ∀ seg ∈ prog.segments, seg.data.length ≤ 2 ^ 32) :
    LastSegmentWins prog.segments (Cpu.new prog).mem.readU8 := by
  constructor
  · intro before seg after a hsplit hcovers hafter
    have hlen : ∀ s ∈ seg :: after, s.data.length ≤ 2 ^ 32 := fun s hs =>
      h s (hsplit ▸ List.mem_append_right _ hs)
    have hbyte := List.getElem?_eq_getElem hcovers
    have hseg : ∀ mem, (loadSegment mem seg).readU8 a = seg.data.get ⟨_, hcovers⟩ := fun mem => by
      rw [readU8_loadSegment mem (hlen seg List.mem_cons_self), hbyte]
      rfl
    have hlast := foldl_last (Memory.readU8 · a) before Memory.new hseg fun s hs =>
      readU8_loadSegment_of_not_covers (hlen s (List.mem_cons_of_mem _ hs)) (hafter s hs)
    rw [hbyte, new_mem, hsplit]
    exact congrArg some hlast.symm
  · intro a hfree
    exact foldl_frame (Memory.readU8 · a) Memory.new fun s hs =>
      readU8_loadSegment_of_not_covers (h s hs) (hfree s hs)

/-! ### The instruction fetch -/

/-- A byte as the fetch of the aligned word around it sees it. -/
def fetchedByte (cpu : Cpu) (a : Word) : Byte :=
  ({ cpu with pc := a &&& ~~~3#32 } : Cpu).fetch.extractLsb' (8 * (a &&& 3#32).toNat) 8

/-- An address is an aligned address and an offset in the word. -/
theorem aligned_add (a : Word) : (a &&& ~~~3#32) + (a &&& 3#32) = a := by
  have hapart : a &&& ~~~3#32 &&& (a &&& 3#32) = 0#32 := by
    apply BitVec.eq_of_getLsbD_eq
    intro i hi
    simp only [BitVec.getLsbD_and, BitVec.getLsbD_not, BitVec.getLsbD_zero]
    cases a.getLsbD i <;> simp
  rw [BitVec.add_eq_or_of_and_eq_zero _ _ hapart]
  apply BitVec.eq_of_getLsbD_eq
  intro i hi
  simp only [BitVec.getLsbD_and, BitVec.getLsbD_not, BitVec.getLsbD_or, decide_eq_true hi]
  cases a.getLsbD i <;> simp

theorem fetchedByte_eq (cpu : Cpu) : fetchedByte cpu = cpu.mem.readU8 := by
  funext a
  have hlt : (a &&& 3#32).toNat < 4 := by
    rw [BitVec.toNat_and]
    exact Nat.lt_of_le_of_lt Nat.and_le_right (by decide)
  have hword : ∀ base : Word, ∀ i < 4, cpu.mem.readU8 (base + BitVec.ofNat 32 i) =
      (cpu.mem.readU32 base).extractLsb' (8 * i) 8 := by
    intro base i hi
    have hbyte := LittleEndian.extractLsb'_word32 (cpu.mem.bytes base) (cpu.mem.bytes (base + 1#32))
      (cpu.mem.bytes (base + 2#32)) (cpu.mem.bytes (base + 3#32)) hi
    rw [← Memory.readU32_eq] at hbyte
    apply Option.some.inj
    rw [← hbyte]
    have hcases : i = 0 ∨ i = 1 ∨ i = 2 ∨ i = 3 := by omega
    rcases hcases with rfl | rfl | rfl | rfl
    · rw [BitVec.add_zero]
      rfl
    · rfl
    · rfl
    · rfl
  have hat := hword (a &&& ~~~3#32) _ hlt
  rw [BitVec.ofNat_toNat, BitVec.setWidth_eq, aligned_add] at hat
  exact hat.symm

/-! ### The image -/

/-- **The byte of a new CPU's memory at an address is that of the last segment in the program
that has data for it, and zero if none has; the fetch of an aligned word sees the same bytes.
If the data of every segment fit its size and the ranges of the segments are apart, every
file byte is read back unchanged and every BSS byte is zero, in both ways of reading.** -/
theorem initial_memory (prog : LoadedProgram)
    (h : ∀ seg ∈ prog.segments, seg.data.length ≤ 2 ^ 32) :
    LastSegmentWins prog.segments (Cpu.new prog).mem.readU8 ∧
      LastSegmentWins prog.segments (fetchedByte (Cpu.new prog)) ∧
      ((∀ seg ∈ prog.segments, seg.Fits) → prog.segments.Pairwise Segment.Apart →
        LoadedAsIs prog.segments (Cpu.new prog).mem.readU8 ∧
          LoadedAsIs prog.segments (fetchedByte (Cpu.new prog))) := by
  have himage := new_lastSegmentWins h
  rw [fetchedByte_eq]
  refine ⟨himage, himage, fun hfits hapart => ?_⟩
  exact ⟨himage.loadedAsIs hfits hapart, himage.loadedAsIs hfits hapart⟩

/-- What the loader returns fits, so that it is in memory as it is in the file as soon as the
ranges are apart. -/
theorem loaded_memory {ε : Type} {minimalParse : List Byte → Except ε Elf.ElfBytes}
    {bytes : List Byte} {prog : LoadedProgram} (hshort : Elf.RejectsShort minimalParse)
    (hnarrow : ∀ file phdrs, Elf.Parses minimalParse bytes file phdrs →
      ∀ ph ∈ phdrs, ph.pMemsz.toNat < 2 ^ 32)
    (h : Elf.loadRv32Elf minimalParse bytes = .ok prog)
    (hapart : prog.segments.Pairwise Segment.Apart) :
    LoadedAsIs prog.segments (Cpu.new prog).mem.readU8 := by
  have hfits := Elf.load_fits hshort hnarrow h
  have hlen : ∀ seg ∈ prog.segments, seg.data.length ≤ 2 ^ 32 := fun seg hseg =>
    (hfits seg hseg).trans (Nat.le_of_lt seg.memSize.isLt)
  exact (new_lastSegmentWins hlen).loadedAsIs hfits hapart

/-- A segment of four bytes of data and four bytes of BSS, and one that goes round the end of
the address space. -/
def twoSegments : LoadedProgram where
  entry := 64#32
  segments :=
    [{ vaddr := 64#32, memSize := 8#32, writable := true, executable := true,
       data := [1#8, 2#8, 3#8, 4#8] },
     { vaddr := 0xfffffffe#32, memSize := 4#32, writable := false, executable := false,
       data := [5#8, 6#8, 7#8, 8#8] }]

theorem initial_memory_wraps :
    LoadedAsIs twoSegments.segments (Cpu.new twoSegments).mem.readU8 := by
  refine ((initial_memory twoSegments (by decide)).2.2 (by decide) ?_).1
  have hapart : ∀ a : Word, ¬((a - 64#32).toNat < 8 ∧ (a - 0xfffffffe#32).toNat < 4) := by
    intro a
    simp only [BitVec.toNat_sub, BitVec.toNat_ofNat]
    omega
  exact List.pairwise_pair.mpr hapart

/-- Data that are longer than their segment, and reach into the BSS of the next one. -/
def overlong : LoadedProgram where
  entry := 64#32
  segments :=
    [{ vaddr := 64#32, memSize := 4#32, writable := true, executable := true,
       data := [1#8, 2#8, 3#8, 4#8, 5#8] },
     { vaddr := 68#32, memSize := 4#32, writable := true, executable := false, data := [] }]

/-- The ranges are apart, and a BSS byte is not zero. -/
theorem overlong_bss :
    (∀ seg ∈ overlong.segments, seg.data.length ≤ 2 ^ 32) ∧
      overlong.segments.Pairwise Segment.Apart ∧
      ¬LoadedAsIs overlong.segments (Cpu.new overlong).mem.readU8 := by
  refine ⟨by decide, ?_, fun hload => ?_⟩
  · have hapart : ∀ a : Word, ¬((a - 64#32).toNat < 4 ∧ (a - 68#32).toNat < 4) := by
      intro a
      simp only [BitVec.toNat_sub, BitVec.toNat_ofNat]
      omega
    exact List.pairwise_pair.mpr hapart
  · have hzero := hload.bss _ (List.mem_cons_of_mem _ List.mem_cons_self) 68#32 (by decide)
      (by decide)
    exact absurd hzero (by decide)

end OpenvmSim.Rv32im
