import OpenvmSim.Base.HexText
import OpenvmSim.Precompiles.Halting
import OpenvmSim.Precompiles.Output
import OpenvmSim.Rv32im.InitialMemory

/-! The command line around the interpreter.

`cmdRun` loads a guest, runs it on an input and prints its public output, as one line of digits
or in lines of 32 bytes. What it prints can be read back (`readText_printed`), so that its text
is an account of the REVEAL words of the run (`cmd_run`). The contents of the files are given. -/
namespace OpenvmSim.Runner
open Rv32im Precompiles Elf

/-- The errors that `?` passes on. -/
inductive RunError (ε : Type) where
  | elf (e : ElfError ε)
  | cpu (e : CpuError)

/-- An error on its way out. -/
def into {ε δ α : Type} (f : ε → δ) : Exec ε α → Exec δ α
  | .ok a => .ok a
  | .error (.err e) => .error (.err (f e))
  | .error (.panic message) => .error (.panic message)
  | .error .diverge => .error .diverge

/-! ### The text -/

/-- `[{:>2}] 0` -/
def label (i : ℕ) : List Char :=
  let digits := Nat.toDigits 10 i
  '[' :: (List.replicate (2 - digits.length) ' ' ++ digits ++ [']', ' ', '0'])

/-- The public output as plain hex, or with `0x` and split into 32-byte chunks. -/
def printed (asHex : Bool) (out : List Byte) : String :=
  String.ofList <|
    if asHex then HexText.bytesText out ++ ['\n']
    else (List.range ((out.length + 31) / 32)).flatMap fun i =>
      HexText.line (label i) (HexText.chunk 32 out i)

/-- The bytes in a text that was printed. -/
def readText (asHex : Bool) (text : String) : List Byte := HexText.readLines asHex text.toList

theorem not_mem_label (i : ℕ) : 'x' ∉ label i := by
  intro h
  have hdigit : ∀ c ∈ Nat.toDigits 10 i, c ≠ 'x' := fun c hc => by
    rintro rfl
    exact absurd (Nat.isDigit_of_mem_toDigits (by decide) (by decide) hc) (by decide)
  simp only [label, List.mem_cons, List.mem_append, List.mem_replicate, List.not_mem_nil] at h
  obtain h | (⟨-, h⟩ | h) | h | h | h | h := h
  · exact absurd h (by decide)
  · exact absurd h (by decide)
  · exact hdigit _ h rfl
  · exact absurd h (by decide)
  · exact absurd h (by decide)
  · exact absurd h (by decide)
  · exact h

/-- The text says what the output is. -/
theorem readText_printed (asHex : Bool) (out : List Byte) :
    readText asHex (printed asHex out) = out := by
  rw [readText, printed, String.toList_ofList]
  cases asHex with
  | true =>
    rw [if_pos rfl, HexText.readLines_bytes]
    exact List.append_nil out
  | false =>
    rw [if_neg Bool.false_ne_true, HexText.readLines_lines not_mem_label, HexText.flatMap_chunk,
      List.take_of_length_le]
    omega

/-! ### The command -/

section Command
variable {ε : Type}

/-- What is printed after a run that returned, whatever the exit code. -/
def report (asHex : Bool) : EStateM.Result (Stop CpuError) Machine Word → Exec (RunError ε) String
  | .ok _ s => .ok (printed asHex s.handler.io.output)
  | .error e _ => into RunError.cpu (.error e)

/-- The machine that a program starts on. -/
def start (prog : LoadedProgram) (input : List Byte) : Machine :=
  ⟨Cpu.new prog, PrecompileHandler.new input⟩

def cmdRun (minimalParse : List Byte → Except ε ElfBytes) (host : Host) (elf input : List Byte)
    (maxSteps : ℕ) (asHex : Bool) : Exec (RunError ε) String := do
  let prog ← into RunError.elf (loadRv32Elf minimalParse elf)
  report asHex ((Cpu.run (customOps host) maxSteps).run (start prog input))

variable {minimalParse : List Byte → Except ε ElfBytes} {host : Host} {elf input : List Byte}
  {maxSteps : ℕ} {asHex : Bool} {text : String}

theorem into_ok_iff {ε δ α : Type} {f : ε → δ} {x : Exec ε α} {a : α} :
    into f x = .ok a ↔ x = .ok a := by
  match x with
  | .ok a => exact ⟨fun h => congrArg _ (Except.ok.inj h), fun h => congrArg _ (Except.ok.inj h)⟩
  | .error (.err _) | .error (.panic _) | .error .diverge => exact ⟨nofun, nofun⟩

theorem report_ok_iff {r : EStateM.Result (Stop CpuError) Machine Word} :
    (report asHex r : Exec (RunError ε) String) = .ok text ↔
      ∃ code t, r = .ok code t ∧ text = printed asHex t.handler.io.output := by
  cases r with
  | ok code t =>
    constructor
    · intro h
      exact ⟨code, t, rfl, (Except.ok.inj h).symm⟩
    · rintro ⟨code', t', h, rfl⟩
      cases h
      rfl
  | error e t =>
    rw [report, into_ok_iff]
    exact ⟨nofun, fun ⟨_, _, h, _⟩ => nomatch h⟩

/-- The command returns exactly if the loader and the run do. -/
theorem cmdRun_ok_iff : cmdRun minimalParse host elf input maxSteps asHex = .ok text ↔
    ∃ prog code t, loadRv32Elf minimalParse elf = .ok prog ∧
      (Cpu.run (customOps host) maxSteps).run (start prog input) = .ok code t ∧
      text = printed asHex t.handler.io.output := by
  constructor
  · intro h
    rw [cmdRun] at h
    cases hload : into RunError.elf (loadRv32Elf minimalParse elf) with
    | error e =>
      rw [hload] at h
      cases h
    | ok prog =>
      rw [hload] at h
      obtain ⟨code, t, hrun, htext⟩ := report_ok_iff.mp h
      exact ⟨prog, code, t, into_ok_iff.mp hload, hrun, htext⟩
  · rintro ⟨prog, code, t, hload, hrun, htext⟩
    rw [cmdRun, into_ok_iff.mpr hload]
    exact report_ok_iff.mpr ⟨code, t, hrun, htext⟩

end Command

/-- **What the command prints.** `openvm-sim run` prints a text, and ends without an error, if and only
if the file parses as an executable whose `LOAD` headers may all be copied and the program in it, on
its input, comes to a TERMINATE word in fewer steps than the maximum. The text is then that of the
public output, and read back, in either format, it is what the REVEAL words of the run have
written: a sparse array in which the last word over a byte decides it. What the command logs is
not in the model. -/
theorem cmd_run {ε : Type} {minimalParse : List Byte → Except ε ElfBytes}
    (hshort : RejectsShort minimalParse) (host : Host) (elf input : List Byte) (maxSteps : ℕ)
    (asHex : Bool) (text : String) :
    cmdRun minimalParse host elf input maxSteps asHex = .ok text ↔
      ∃ file phdrs trace t, Parses minimalParse elf file phdrs ∧ Copyable elf phdrs ∧
        Run (customOps host)
          (start { entry := file.ehdr.eEntry.setWidth 32, segments := segmentsOf elf phdrs } input)
          trace t ∧
        t.cpu.steps < maxSteps ∧ IsTerminate t.cpu.fetch ∧
        text = printed asHex t.handler.io.output ∧
        LastWriterWins (reveals trace) (readText asHex text) := by
  rw [cmdRun_ok_iff]
  constructor
  · rintro ⟨prog, code, t, hload, hrun, rfl⟩
    obtain ⟨trace, hreach, -, hends⟩ := run_state host (start prog input) maxSteps
    rw [hrun] at hreach hends
    obtain ⟨file, phdrs, hp, hcopy, hok⟩ | ⟨-, -, -, -, message, hpanic⟩ | ⟨-, e, herr⟩ :=
      load_cases hshort elf
    · obtain rfl := Except.ok.inj (hok.symm.trans hload)
      cases hends with
      | terminated hlt hstep =>
        refine ⟨file, phdrs, trace, t, hp, hcopy, hreach, hlt, (step_terminated_iff.mp hstep).1,
          rfl, ?_⟩
        have hout : t.handler.io.output = _ := run_output hreach
        rw [readText_printed, hout]
        exact lastWriterWins_puts (reveals trace)
    · cases hpanic.symm.trans hload
    · cases herr.symm.trans hload
  · rintro ⟨file, phdrs, trace, t, hp, hcopy, hreach, hlt, hterm, htext, -⟩
    refine ⟨_, _, t, ?_, run_eq (customOps_careful host) hreach hlt
      (step_terminated_iff.mpr ⟨hterm, rfl, rfl⟩), htext⟩
    obtain ⟨file', phdrs', hp', -, hok⟩ | ⟨file', phdrs', hp', hpast, -⟩ | ⟨hnone, -⟩ :=
      load_cases hshort elf
    · obtain rfl : file = file' := Except.ok.inj (hp.parsed.symm.trans hp'.parsed)
      obtain rfl := hp.unique hp'
      exact hok
    · rw [← hp.unique hp'] at hpast
      exact absurd hcopy hpast.not_copyable
    · exact absurd hcopy (hnone file phdrs hp).1

/-- `addi x1, x0, 5`, a REVEAL of `x1` and a TERMINATE. -/
def revealWords : List Word :=
  [0x00500093#32, 1#32 <<< 15 ||| F3_REVEAL <<< 12 ||| OPCODE_CUSTOM_0, OPCODE_CUSTOM_0]

/-- A file with these words behind its headers. -/
def revealFile : List Byte := smallFile 84#32 12#32 12#32 ++ revealWords.flatMap le32

/-- The machine that it starts on. -/
def revealMachine : Machine :=
  start { entry := 0x10000#32, segments := segmentsOf revealFile [smallHeader 84#32 12#32 12#32] } []

theorem length_revealFile : revealFile.length = 96 := by
  rw [revealFile, List.length_append, length_smallFile]
  rfl

/-- The five is printed. -/
theorem cmd_run_five :
    cmdRun (parseOnly revealFile (smallElf 84#32 12#32 12#32)) Host.constant revealFile [] 3 true =
      .ok "05000000\n" := by
  have hparses : Parses (parseOnly revealFile (smallElf 84#32 12#32 12#32)) revealFile
      (smallElf 84#32 12#32 12#32) [smallHeader 84#32 12#32 12#32] :=
    ⟨⟨rfl, rfl⟩, if_pos rfl, rfl, rfl, rfl⟩
  have hcopyable : Copyable revealFile [smallHeader 84#32 12#32 12#32] := by
    refine List.forall_mem_singleton.mpr fun _ => ?_
    rw [ProgramHeader.SizesOk, ProgramHeader.InFile, length_revealFile]
    decide
  have hrun : Run (customOps Host.constant) revealMachine _
      (revealMachine.after (customOps Host.constant) 2) := run_after (n := 2) (by decide +kernel)
  have hout : (revealMachine.after (customOps Host.constant) 2).handler.io.output =
      [5#8, 0#8, 0#8, 0#8] := by decide +kernel
  have hprinted : printed true [5#8, 0#8, 0#8, 0#8] = "05000000\n" := by decide +kernel
  have hputs : (revealMachine.after (customOps Host.constant) 2).handler.io.output = _ :=
    run_output hrun
  have hwrites := lastWriterWins_puts
    (reveals ((List.range 2).map (revealMachine.after (customOps Host.constant))))
  rw [hout] at hputs
  replace hputs : [5#8, 0#8, 0#8, 0#8] = Sparse.puts 0#8 [] _ := hputs
  rw [← hputs] at hwrites
  refine (cmd_run (parseOnly_rejectsShort (by rw [length_revealFile]; decide) _) Host.constant
    revealFile [] 3 true _).mpr
    ⟨_, _, _, _, hparses, hcopyable, hrun, by decide +kernel, by decide +kernel, ?_, ?_⟩
  · rw [hout, hprinted]
  · rw [← hprinted, readText_printed]
    exact hwrites

end OpenvmSim.Runner
