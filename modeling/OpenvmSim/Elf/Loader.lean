import OpenvmSim.Base.Effect
import OpenvmSim.Elf.Program

/-! The ELF loader.

Each `LOAD` header is turned into a segment with the bytes the header points at. The file
header and the program headers are read by a parser from elsewhere, `minimalParse`, which
returns what is stored in the file and does not look at where a header points. -/
namespace OpenvmSim.Elf
open Rv32im (Byte Word)

def ELFCLASS32 : Byte := 1#8
def ELFDATA2LSB : Byte := 1#8
def EM_RISCV : BitVec 16 := 243#16
def ET_EXEC : BitVec 16 := 2#16
def PT_LOAD : Word := 1#32
def PF_X : Word := 1#32
def PF_W : Word := 2#32

/-- Bytes of the ident at the start of a file. -/
def EI_NIDENT : ℕ := 16

structure FileHeader where
  eType : BitVec 16
  eMachine : BitVec 16
  eEntry : BitVec 64

structure ProgramHeader where
  pType : Word
  pOffset : BitVec 64
  pVaddr : BitVec 64
  pFilesz : BitVec 64
  pMemsz : BitVec 64
  pFlags : Word

/-- The segment of a header, with its file data. -/
def ProgramHeader.segment (ph : ProgramHeader) (data : List Byte) : Segment where
  vaddr := ph.pVaddr.setWidth 32
  memSize := ph.pMemsz.setWidth 32
  writable := ph.pFlags &&& PF_W != 0#32
  executable := ph.pFlags &&& PF_X != 0#32
  data := data

/-- What the parser returns: the file header, and the program headers if there is a table. -/
structure ElfBytes where
  ehdr : FileHeader
  segments : Option (List ProgramHeader)

inductive ElfError (ε : Type) where
  | parse (e : ε)
  | notElf32 (got : Byte)
  | notLittleEndian (got : Byte)
  | notRiscv (got : BitVec 16)
  | notExec (got : BitVec 16)
  | noProgramHeaders
  | segmentSizeMismatch (fileSz memSz : BitVec 64)

section Loader
variable {ε : Type} (minimalParse : List Byte → Except ε ElfBytes) (bytes : List Byte)

/-- Pre-flight ident-byte checks for clearer error messages. -/
def preflight : Exec (ElfError ε) Unit :=
  if h : 6 ≤ bytes.length then
    if bytes[4] ≠ ELFCLASS32 then throw (.err (.notElf32 bytes[4]))
    else if bytes[5] ≠ ELFDATA2LSB then throw (.err (.notLittleEndian bytes[5]))
    else pure ()
  else pure ()

def parseFile : Exec (ElfError ε) ElfBytes :=
  match minimalParse bytes with
  | .ok file => pure file
  | .error e => throw (.err (.parse e))

/-- `bytes[off..off + size]`, which panics unless the range lies in the file. -/
def sliceRange (off size : ℕ) : Exec (ElfError ε) (List Byte) :=
  if off + size ≤ bytes.length then pure ((bytes.drop off).take size)
  else throw (.panic (s!"range end index {off + size} out of range for slice of length " ++
    s!"{bytes.length}"))

/-- The loop over the program headers; `usize` has 64 bits. -/
def loadPhdrs : List ProgramHeader → List Segment → Exec (ElfError ε) (List Segment)
  | [], segments => pure segments
  | ph :: phdrs, segments =>
    if ph.pType ≠ PT_LOAD then loadPhdrs phdrs segments
    else if ph.pFilesz > ph.pMemsz then throw (.err (.segmentSizeMismatch ph.pFilesz ph.pMemsz))
    else do
      let data ← sliceRange bytes ph.pOffset.toNat ph.pFilesz.toNat
      loadPhdrs phdrs (segments ++ [ph.segment data])

def loadRv32Elf : Exec (ElfError ε) LoadedProgram := do
  preflight bytes
  let file ← parseFile minimalParse bytes
  if file.ehdr.eMachine ≠ EM_RISCV then throw (.err (.notRiscv file.ehdr.eMachine))
  else if file.ehdr.eType ≠ ET_EXEC then throw (.err (.notExec file.ehdr.eType))
  else match file.segments with
    | none => throw (.err .noProgramHeaders)
    | some phdrs => do
      let segments ← loadPhdrs bytes phdrs []
      pure { entry := file.ehdr.eEntry.setWidth 32, segments }

end Loader

end OpenvmSim.Elf
