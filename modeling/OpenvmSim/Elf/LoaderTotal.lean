import OpenvmSim.Base.Bytes
import OpenvmSim.Elf.Loader

/-! When the ELF loader returns.

`load_cases` says what the loader does with any file. It would be total, and accept exactly
the files whose `LOAD` headers may be copied, but for one thing: nothing checks that a
header points into the file, and the copy panics when it does not. -/
namespace OpenvmSim.Elf
open Rv32im (Byte Word)

/-! ### What a loadable file is -/

/-- The file size of a header is at most its memory size. -/
def ProgramHeader.SizesOk (ph : ProgramHeader) : Prop := ph.pFilesz ≤ ph.pMemsz

/-- The file range of a header lies in the file. -/
def ProgramHeader.InFile (bytes : List Byte) (ph : ProgramHeader) : Prop :=
  ph.pOffset.toNat + ph.pFilesz.toNat ≤ bytes.length

/-- Every `LOAD` header may be copied. -/
def Copyable (bytes : List Byte) (phdrs : List ProgramHeader) : Prop :=
  ∀ ph ∈ phdrs, ph.pType = PT_LOAD → ph.SizesOk ∧ ph.InFile bytes

/-- The `LOAD` headers in order, with their file bytes. -/
def segmentsOf (bytes : List Byte) (phdrs : List ProgramHeader) : List Segment :=
  (phdrs.filter (·.pType = PT_LOAD)).map fun ph =>
    ph.segment ((bytes.drop ph.pOffset.toNat).take ph.pFilesz.toNat)

/-- A `LOAD` header in order of size, before which all are, has its file range outside of the
file. -/
def PastEnd (bytes : List Byte) (phdrs : List ProgramHeader) : Prop :=
  ∃ before ph after, phdrs = before ++ ph :: after ∧ ph.pType = PT_LOAD ∧ ph.SizesOk ∧
    ¬ph.InFile bytes ∧ ∀ q ∈ before, q.pType = PT_LOAD → q.SizesOk

section Loop
variable {ε : Type} {bytes : List Byte} {ph : ProgramHeader} {phdrs : List ProgramHeader}
  {segments out : List Segment}

theorem sliceRange_of_inFile {off size : ℕ} (h : off + size ≤ bytes.length) :
    (sliceRange bytes off size : Exec (ElfError ε) _) = .ok ((bytes.drop off).take size) := if_pos h

theorem loadPhdrs_skip (h : ph.pType ≠ PT_LOAD) :
    (loadPhdrs bytes (ph :: phdrs) segments : Exec (ElfError ε) _) =
      loadPhdrs bytes phdrs segments := if_pos h

theorem loadPhdrs_mismatch (h : ph.pType = PT_LOAD) (hsize : ¬ph.SizesOk) :
    (loadPhdrs bytes (ph :: phdrs) segments : Exec (ElfError ε) _) =
      .error (.err (.segmentSizeMismatch ph.pFilesz ph.pMemsz)) := by
  have hgt : ph.pFilesz > ph.pMemsz := BitVec.not_le.mp hsize
  rw [loadPhdrs, if_neg (not_not_intro h), if_pos hgt]
  rfl

theorem loadPhdrs_past (h : ph.pType = PT_LOAD) (hsize : ph.SizesOk) (hfile : ¬ph.InFile bytes) :
    ∃ message, (loadPhdrs bytes (ph :: phdrs) segments : Exec (ElfError ε) _) =
      .error (.panic message) := by
  obtain ⟨message, hslice⟩ : ∃ message,
      (sliceRange bytes ph.pOffset.toNat ph.pFilesz.toNat : Exec (ElfError ε) _) =
        .error (.panic message) := ⟨_, if_neg hfile⟩
  refine ⟨message, ?_⟩
  rw [loadPhdrs, if_neg (not_not_intro h), if_neg (BitVec.not_lt.mpr hsize), hslice]
  rfl

theorem loadPhdrs_copy (h : ph.pType = PT_LOAD) (hsize : ph.SizesOk) (hfile : ph.InFile bytes) :
    (loadPhdrs bytes (ph :: phdrs) segments : Exec (ElfError ε) _) =
      loadPhdrs bytes phdrs (segments ++
        [ph.segment ((bytes.drop ph.pOffset.toNat).take ph.pFilesz.toNat)]) := by
  rw [loadPhdrs, if_neg (not_not_intro h), if_neg (BitVec.not_lt.mpr hsize),
    sliceRange_of_inFile hfile]
  rfl

theorem copyable_cons : Copyable bytes (ph :: phdrs) ↔
    (ph.pType = PT_LOAD → ph.SizesOk ∧ ph.InFile bytes) ∧ Copyable bytes phdrs :=
  List.forall_mem_cons

theorem pastEnd_cons : PastEnd bytes (ph :: phdrs) ↔
    (ph.pType = PT_LOAD ∧ ph.SizesOk ∧ ¬ph.InFile bytes) ∨
      ((ph.pType = PT_LOAD → ph.SizesOk) ∧ PastEnd bytes phdrs) := by
  constructor
  · intro h
    obtain ⟨before, q, after, hsplit, hload, hsize, hfile, hbefore⟩ := h
    cases before with
    | nil =>
      obtain ⟨rfl, rfl⟩ := List.cons.inj hsplit
      exact .inl ⟨hload, hsize, hfile⟩
    | cons p before =>
      obtain ⟨rfl, rfl⟩ := List.cons.inj hsplit
      obtain ⟨hp, hbefore⟩ := List.forall_mem_cons.mp hbefore
      exact .inr ⟨hp, before, q, after, rfl, hload, hsize, hfile, hbefore⟩
  · intro h
    rcases h with ⟨hload, hsize, hfile⟩ | ⟨hp, before, q, after, rfl, hload, hsize, hfile, hbefore⟩
    · exact ⟨[], ph, phdrs, rfl, hload, hsize, hfile, nofun⟩
    · have hbefore' := List.forall_mem_cons.mpr ⟨hp, hbefore⟩
      exact ⟨ph :: before, q, after, rfl, hload, hsize, hfile, hbefore'⟩

theorem PastEnd.not_copyable (h : PastEnd bytes phdrs) : ¬Copyable bytes phdrs := by
  obtain ⟨before, ph, after, rfl, hload, -, hfile, -⟩ := h
  exact fun hc => hfile (hc ph (by simp) hload).2

theorem segmentsOf_skip (h : ph.pType ≠ PT_LOAD) :
    segmentsOf bytes (ph :: phdrs) = segmentsOf bytes phdrs := by
  simp [segmentsOf, h]

theorem segmentsOf_copy (h : ph.pType = PT_LOAD) :
    segmentsOf bytes (ph :: phdrs) =
      ph.segment ((bytes.drop ph.pOffset.toNat).take ph.pFilesz.toNat) ::
        segmentsOf bytes phdrs := by
  simp [segmentsOf, h]

/-- The loop copies every `LOAD` header in order if all of them may be copied. Otherwise it
panics when one is past the end and no size is wrong before it, and returns an error when a
size is wrong first. -/
theorem loadPhdrs_spec (ε : Type) (bytes : List Byte) (phdrs : List ProgramHeader)
    (segments : List Segment) :
    (Copyable bytes phdrs ∧ (loadPhdrs bytes phdrs segments : Exec (ElfError ε) _) =
        .ok (segments ++ segmentsOf bytes phdrs)) ∨
      (PastEnd bytes phdrs ∧ ∃ message,
        (loadPhdrs bytes phdrs segments : Exec (ElfError ε) _) = .error (.panic message)) ∨
      (¬Copyable bytes phdrs ∧ ¬PastEnd bytes phdrs ∧ ∃ e,
        (loadPhdrs bytes phdrs segments : Exec (ElfError ε) _) = .error (.err e)) := by
  induction phdrs generalizing segments with
  | nil =>
    rw [show segmentsOf bytes [] = [] from rfl, List.append_nil]
    exact .inl ⟨nofun, rfl⟩
  | cons ph phdrs ih =>
    rw [copyable_cons, pastEnd_cons]
    by_cases hload : ph.pType = PT_LOAD
    · by_cases hsize : ph.SizesOk
      · by_cases hfile : ph.InFile bytes
        · have hrest := ih (segments ++
            [ph.segment ((bytes.drop ph.pOffset.toNat).take ph.pFilesz.toNat)])
          rw [List.append_assoc, List.singleton_append] at hrest
          rw [loadPhdrs_copy hload hsize hfile, segmentsOf_copy hload]
          simpa [hload, hsize, hfile] using hrest
        · have hpanic : ∃ message, (loadPhdrs bytes (ph :: phdrs) segments : Exec (ElfError ε) _) =
              .error (.panic message) := loadPhdrs_past hload hsize hfile
          exact .inr (.inl ⟨.inl ⟨hload, hsize, hfile⟩, hpanic⟩)
      · refine .inr (.inr ⟨fun hc => hsize (hc.1 hload).1, ?_, _, loadPhdrs_mismatch hload hsize⟩)
        intro hp
        rcases hp with hp | hp
        · exact hsize hp.2.1
        · exact hsize (hp.1 hload)
    · rw [loadPhdrs_skip hload, segmentsOf_skip hload]
      simpa [hload] using ih segments

end Loop

/-! ### The loader -/

section Load
variable {ε : Type} {minimalParse : List Byte → Except ε ElfBytes} {bytes : List Byte}
  {file file' : ElfBytes} {phdrs phdrs' : List ProgramHeader}

/-- The parser refuses a file that is too short for an ident. -/
def RejectsShort (minimalParse : List Byte → Except ε ElfBytes) : Prop :=
  ∀ bytes, bytes.length < EI_NIDENT → ∃ e, minimalParse bytes = .error e

/-- The ident names the 32-bit class and the little-endian encoding. -/
structure Ident (bytes : List Byte) : Prop where
  class32 : bytes[4]? = some ELFCLASS32
  little : bytes[5]? = some ELFDATA2LSB

/-- The file parses as a 32-bit little-endian RISC-V executable with a program-header table. -/
structure Parses (minimalParse : List Byte → Except ε ElfBytes) (bytes : List Byte)
    (file : ElfBytes) (phdrs : List ProgramHeader) : Prop where
  ident : Ident bytes
  parsed : minimalParse bytes = .ok file
  machine : file.ehdr.eMachine = EM_RISCV
  exec : file.ehdr.eType = ET_EXEC
  table : file.segments = some phdrs

theorem Parses.unique (h : Parses minimalParse bytes file phdrs)
    (h' : Parses minimalParse bytes file' phdrs') : phdrs = phdrs' := by
  obtain rfl : file = file' := Except.ok.inj (h.parsed.symm.trans h'.parsed)
  exact Option.some.inj (h.table.symm.trans h'.table)

/-- The ident checks let a file pass if its ident is right, or if it is too short for them. -/
theorem preflight_cases (ε : Type) (bytes : List Byte) :
    ((Ident bytes ∨ bytes.length < 6) ∧ (preflight bytes : Exec (ElfError ε) Unit) = .ok ()) ∨
      (¬Ident bytes ∧ ∃ e, (preflight bytes : Exec (ElfError ε) Unit) = .error (.err e)) := by
  by_cases hlen : 6 ≤ bytes.length
  · have hfour : bytes[4]? = some bytes[4] := List.getElem?_eq_getElem _
    have hfive : bytes[5]? = some bytes[5] := List.getElem?_eq_getElem _
    rw [preflight, dif_pos hlen]
    by_cases hclass : bytes[4] = ELFCLASS32
    · rw [if_neg (not_not_intro hclass)]
      by_cases hlittle : bytes[5] = ELFDATA2LSB
      · have hident : Ident bytes :=
          ⟨hfour.trans (congrArg some hclass), hfive.trans (congrArg some hlittle)⟩
        rw [if_neg (not_not_intro hlittle)]
        exact .inl ⟨.inl hident, rfl⟩
      · rw [if_pos hlittle]
        exact .inr ⟨fun hi => hlittle (Option.some.inj (hfive.symm.trans hi.little)), _, rfl⟩
    · rw [if_pos hclass]
      exact .inr ⟨fun hi => hclass (Option.some.inj (hfour.symm.trans hi.class32)), _, rfl⟩
  · exact .inl ⟨.inr (Nat.lt_of_not_le hlen), dif_neg hlen⟩

theorem parseFile_ok (h : minimalParse bytes = .ok file) :
    parseFile minimalParse bytes = .ok file := by
  rw [parseFile, h]
  rfl

/-- What a parsed file loads to. -/
theorem load_of_parses (h : Parses minimalParse bytes file phdrs) :
    loadRv32Elf minimalParse bytes = (loadPhdrs bytes phdrs []).map fun segments =>
      { entry := file.ehdr.eEntry.setWidth 32, segments } := by
  obtain ⟨-, hpre⟩ | ⟨hn, -⟩ := preflight_cases ε bytes
  · unfold loadRv32Elf
    rw [hpre, parseFile_ok h.parsed]
    simp only [bind, Except.bind, h.machine, h.exec, h.table]
    cases (loadPhdrs bytes phdrs [] : Exec (ElfError ε) _) with
    | ok segments => rfl
    | error e => rfl
  · exact absurd h.ident hn

theorem load_of_not_parses (hshort : RejectsShort minimalParse)
    (h : ¬∃ file phdrs, Parses minimalParse bytes file phdrs) :
    ∃ e, loadRv32Elf minimalParse bytes = .error (.err e) := by
  unfold loadRv32Elf
  obtain ⟨hident, hpre⟩ | ⟨-, e, hpre⟩ := preflight_cases ε bytes
  · rw [hpre]
    cases hparse : minimalParse bytes with
    | error e =>
      have hfile : parseFile minimalParse bytes = .error (.err (.parse e)) := by
        rw [parseFile, hparse]
        rfl
      rw [hfile]
      exact ⟨_, rfl⟩
    | ok file =>
      rw [parseFile_ok hparse]
      simp only [bind, Except.bind]
      by_cases hmachine : file.ehdr.eMachine = EM_RISCV
      · rw [if_neg (not_not_intro hmachine)]
        by_cases hexec : file.ehdr.eType = ET_EXEC
        · rw [if_neg (not_not_intro hexec)]
          cases htable : file.segments with
          | none => exact ⟨_, rfl⟩
          | some phdrs =>
            rcases hident with hident | hlen
            · exact absurd ⟨file, phdrs, hident, hparse, hmachine, hexec, htable⟩ h
            · obtain ⟨e, he⟩ := hshort bytes (Nat.lt_trans hlen (by decide))
              cases hparse.symm.trans he
        · rw [if_pos hexec]
          exact ⟨_, rfl⟩
      · rw [if_pos hmachine]
        exact ⟨_, rfl⟩
  · rw [hpre]
    exact ⟨e, rfl⟩

/-- The loader returns or reports an error; it returns exactly on the files that parse and whose
`LOAD` headers may all be copied, and then with those headers in order. -/
structure TotalAndExact (minimalParse : List Byte → Except ε ElfBytes) (bytes : List Byte) :
    Prop where
  total : (∃ prog, loadRv32Elf minimalParse bytes = .ok prog) ∨
    ∃ e, loadRv32Elf minimalParse bytes = .error (.err e)
  ok_iff : (∃ prog, loadRv32Elf minimalParse bytes = .ok prog) ↔
    ∃ file phdrs, Parses minimalParse bytes file phdrs ∧ Copyable bytes phdrs
  segments : ∀ prog, loadRv32Elf minimalParse bytes = .ok prog →
    ∃ file phdrs, Parses minimalParse bytes file phdrs ∧
      prog = { entry := file.ehdr.eEntry.setWidth 32, segments := segmentsOf bytes phdrs }

/-- What the loader does with a file: it copies the headers, panics on one that is past the
end, or returns an error. -/
theorem load_cases (hshort : RejectsShort minimalParse) (bytes : List Byte) :
    (∃ file phdrs, Parses minimalParse bytes file phdrs ∧ Copyable bytes phdrs ∧
      loadRv32Elf minimalParse bytes =
        .ok { entry := file.ehdr.eEntry.setWidth 32, segments := segmentsOf bytes phdrs }) ∨
    (∃ file phdrs, Parses minimalParse bytes file phdrs ∧ PastEnd bytes phdrs ∧
      ∃ message, loadRv32Elf minimalParse bytes = .error (.panic message)) ∨
    ((∀ file phdrs, Parses minimalParse bytes file phdrs →
        ¬Copyable bytes phdrs ∧ ¬PastEnd bytes phdrs) ∧
      ∃ e, loadRv32Elf minimalParse bytes = .error (.err e)) := by
  by_cases hparses : ∃ file phdrs, Parses minimalParse bytes file phdrs
  · obtain ⟨file, phdrs, hp⟩ := hparses
    rw [load_of_parses hp]
    obtain ⟨hcopy, hloop⟩ | ⟨hpast, message, hloop⟩ | ⟨hn, hnp, e, hloop⟩ :=
      loadPhdrs_spec ε bytes phdrs []
    · rw [hloop]
      exact .inl ⟨file, phdrs, hp, hcopy, rfl⟩
    · rw [hloop]
      exact .inr (.inl ⟨file, phdrs, hp, hpast, message, rfl⟩)
    · rw [hloop]
      refine .inr (.inr ⟨fun file' phdrs' hp' => ?_, e, rfl⟩)
      rw [hp'.unique hp]
      exact ⟨hn, hnp⟩
  · obtain ⟨e, herr⟩ := load_of_not_parses hshort hparses
    exact .inr (.inr ⟨fun file phdrs hp => absurd ⟨file, phdrs, hp⟩ hparses, e, herr⟩)

/-- In a file whose header fields have 32 bits, what is loaded fits. -/
theorem load_fits {prog : LoadedProgram} (hshort : RejectsShort minimalParse)
    (hnarrow : ∀ file phdrs, Parses minimalParse bytes file phdrs →
      ∀ ph ∈ phdrs, ph.pMemsz.toNat < 2 ^ 32)
    (h : loadRv32Elf minimalParse bytes = .ok prog) : ∀ seg ∈ prog.segments, seg.Fits := by
  obtain ⟨file, phdrs, hp, hcopy, hload⟩ | ⟨-, -, -, -, message, hload⟩ | ⟨-, e, hload⟩ :=
    load_cases hshort bytes
  · obtain rfl := Except.ok.inj (hload.symm.trans h)
    intro seg hseg
    obtain ⟨ph, hph, rfl⟩ := List.mem_map.mp hseg
    obtain ⟨hmem, hload⟩ := List.mem_filter.mp hph
    have hsize : ph.pFilesz.toNat ≤ ph.pMemsz.toNat := (hcopy ph hmem (of_decide_eq_true hload)).1
    have hwidth : (ph.pMemsz.setWidth 32).toNat = ph.pMemsz.toNat := by
      rw [BitVec.toNat_setWidth, Nat.mod_eq_of_lt (hnarrow file phdrs hp ph hmem)]
    show (List.take ph.pFilesz.toNat _).length ≤ (ph.pMemsz.setWidth 32).toNat
    rw [List.length_take, hwidth]
    exact (Nat.min_le_left _ _).trans hsize
  · cases hload.symm.trans h
  · cases hload.symm.trans h

/-- **The loader is total and exact on a file if and only if the file does not parse, or has no
`LOAD` header past its end, with a size that is right, behind `LOAD` headers whose sizes are
right.** -/
theorem load_total_iff (minimalParse : List Byte → Except ε ElfBytes)
    (hshort : RejectsShort minimalParse) (bytes : List Byte) :
    TotalAndExact minimalParse bytes ↔
      ¬∃ file phdrs, Parses minimalParse bytes file phdrs ∧ PastEnd bytes phdrs := by
  obtain ⟨file, phdrs, hp, hcopy, hload⟩ | ⟨file, phdrs, hp, hpast, message, hload⟩ |
    ⟨hnone, e, hload⟩ := load_cases hshort bytes
  · constructor
    · intro _ hn
      obtain ⟨file', phdrs', hp', hpast⟩ := hn
      rw [hp'.unique hp] at hpast
      exact hpast.not_copyable hcopy
    · intro _
      refine ⟨.inl ⟨_, hload⟩, ⟨fun _ => ⟨file, phdrs, hp, hcopy⟩, fun _ => ⟨_, hload⟩⟩, ?_⟩
      intro prog hok
      exact ⟨file, phdrs, hp, Except.ok.inj (hok.symm.trans hload)⟩
  · constructor
    · intro ht
      obtain ⟨prog, hok⟩ | ⟨e, herr⟩ := ht.total
      · cases hload.symm.trans hok
      · cases hload.symm.trans herr
    · intro hn
      exact absurd ⟨file, phdrs, hp, hpast⟩ hn
  · have hnot : ∀ prog, loadRv32Elf minimalParse bytes ≠ .ok prog := by
      intro prog hok
      cases hload.symm.trans hok
    constructor
    · intro _ hn
      obtain ⟨file, phdrs, hp, hpast⟩ := hn
      exact (hnone file phdrs hp).2 hpast
    · intro _
      refine ⟨.inr ⟨e, hload⟩, ⟨fun ⟨prog, hok⟩ => absurd hok (hnot prog), ?_⟩, fun prog hok =>
        absurd hok (hnot prog)⟩
      intro hp
      obtain ⟨file, phdrs, hp, hcopy⟩ := hp
      exact absurd hcopy (hnone file phdrs hp).1

end Load

/-! ### Files -/

section SmallFile
variable (offset filesz memsz : Word)

def le16 (n : ℕ) : List Byte := LittleEndian.ofNat 2 n
def le32 (w : Word) : List Byte := LittleEndian.ofNat 4 w.toNat

/-- An executable of 84 bytes that is nothing but its file header and one `LOAD` header. -/
def smallFile : List Byte :=
  [0x7f#8, 0x45#8, 0x4c#8, 0x46#8, 1#8, 1#8, 1#8] ++ List.replicate 9 0#8 ++
    le16 2 ++ le16 243 ++ le32 1#32 ++ le32 0x10000#32 ++ le32 52#32 ++ le32 0#32 ++ le32 0#32 ++
    le16 52 ++ le16 32 ++ le16 1 ++ le16 0 ++ le16 0 ++ le16 0 ++
    (le32 1#32 ++ le32 offset ++ le32 0x10000#32 ++ le32 0x10000#32 ++ le32 filesz ++ le32 memsz ++
      le32 5#32 ++ le32 4#32)

theorem length_smallFile : (smallFile offset filesz memsz).length = 84 := by
  simp [smallFile, le16, le32]

/-- The program header of that file. -/
def smallHeader : ProgramHeader where
  pType := PT_LOAD
  pOffset := offset.setWidth 64
  pVaddr := 0x10000#64
  pFilesz := filesz.setWidth 64
  pMemsz := memsz.setWidth 64
  pFlags := 5#32

def smallElf : ElfBytes where
  ehdr := { eType := ET_EXEC, eMachine := EM_RISCV, eEntry := 0x10000#64 }
  segments := some [smallHeader offset filesz memsz]

/-- A parser that knows one file only. -/
def parseOnly (file : List Byte) (elf : ElfBytes) (bytes : List Byte) : Except Unit ElfBytes :=
  if bytes = file then .ok elf else .error ()

theorem parseOnly_rejectsShort {file : List Byte} (h : EI_NIDENT ≤ file.length) (elf : ElfBytes) :
    RejectsShort (parseOnly file elf) := by
  intro bytes hlen
  have hne : bytes ≠ file := by
    rintro rfl
    exact absurd hlen (Nat.not_lt.mpr h)
  exact ⟨(), if_neg hne⟩

def smallParse : List Byte → Except Unit ElfBytes :=
  parseOnly (smallFile offset filesz memsz) (smallElf offset filesz memsz)

theorem smallParse_rejectsShort : RejectsShort (smallParse offset filesz memsz) :=
  parseOnly_rejectsShort (by rw [length_smallFile]; decide) _

theorem smallParse_parses :
    Parses (smallParse offset filesz memsz) (smallFile offset filesz memsz)
      (smallElf offset filesz memsz) [smallHeader offset filesz memsz] :=
  ⟨⟨rfl, rfl⟩, if_pos rfl, rfl, rfl, rfl⟩

end SmallFile

/-- A file whose one segment is its own first four bytes. -/
theorem load_total_iff_small :
    TotalAndExact (smallParse 0#32 4#32 8#32) (smallFile 0#32 4#32 8#32) := by
  refine (load_total_iff _ (smallParse_rejectsShort _ _ _) _).mpr fun hn => ?_
  obtain ⟨file, phdrs, hp, hpast⟩ := hn
  obtain rfl := hp.unique (smallParse_parses 0#32 4#32 8#32)
  refine hpast.not_copyable (List.forall_mem_singleton.mpr fun _ => ?_)
  rw [ProgramHeader.SizesOk, ProgramHeader.InFile, length_smallFile]
  decide

/-- One byte of file data, just behind the end of the file. -/
theorem load_past_end :
    (∃ message, loadRv32Elf (smallParse 84#32 1#32 1#32) (smallFile 84#32 1#32 1#32) =
      .error (.panic message)) ∧
    ¬TotalAndExact (smallParse 84#32 1#32 1#32) (smallFile 84#32 1#32 1#32) := by
  have hout : ¬(smallHeader 84#32 1#32 1#32).InFile (smallFile 84#32 1#32 1#32) := by
    rw [ProgramHeader.InFile, length_smallFile]
    decide
  have hsize : (smallHeader 84#32 1#32 1#32).SizesOk := by
    rw [ProgramHeader.SizesOk]
    decide
  have hloop : ∃ message, (loadPhdrs (smallFile 84#32 1#32 1#32) [smallHeader 84#32 1#32 1#32] [] :
      Exec (ElfError Unit) _) = .error (.panic message) := loadPhdrs_past rfl hsize hout
  obtain ⟨message, hloop⟩ := hloop
  have hload := load_of_parses (smallParse_parses 84#32 1#32 1#32)
  rw [hloop] at hload
  refine ⟨⟨message, hload⟩, fun ht => ?_⟩
  obtain ⟨prog, hok⟩ | ⟨e, herr⟩ := ht.total
  · cases hload.symm.trans hok
  · cases hload.symm.trans herr

end OpenvmSim.Elf
