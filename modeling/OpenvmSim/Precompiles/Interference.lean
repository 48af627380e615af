import OpenvmSim.Precompiles.Exit
import OpenvmSim.Precompiles.Output
import OpenvmSim.Precompiles.Xorin
import OpenvmSim.Rv32im.SameView

/-! What a run can depend on.

Two machines that look alike and differ in their queues of inputs or in their outputs run
alike as long as the difference does not show. The differences are a parameter: a relation on
the queues and one on the outputs that the two operations on them keep. Every handler keeps
the rest together (`handle_agree`), so that a run does. Three differences are looked at: none
at all but the layout of the memory, one in the output, and more inputs behind the queue. -/
namespace OpenvmSim.Precompiles
open Rv32im

/-! ### Reading operands -/

section Reads
variable {m m' : Memory} (h : m'.bytes = m.bytes)
include h

theorem readLe_congr : readLe m' = readLe m := by
  funext ptr n
  rw [readLe, readLe, Memory.readVec_congr h]

theorem readPair_congr : readPair m' = readPair m := by
  funext ptr n
  rw [readPair, readPair, readLe_congr h]

theorem read32_congr : read32 m' = read32 m := by
  funext ptr
  rw [read32_eq, read32_eq, Memory.readVec_congr h]

theorem readLanes_congr : readLanes m' = readLanes m := by
  funext ptr
  rw [readLanes_eq, readLanes_eq, Memory.readVec_congr h]

theorem readState_congr : readState m' = readState m := by
  funext ptr
  rw [readState_eq, readState_eq, Memory.readVec_congr h]

theorem readBlock_congr : readBlock m' = readBlock m := by
  funext ptr
  rw [readBlock_eq, readBlock_eq, Memory.readVec_congr h]

theorem readDescriptors_congr : readDescriptors m' = readDescriptors m := by
  funext p q
  rw [readDescriptors, readDescriptors, Memory.readU32_congr h]

theorem bn254_readG1_congr (host : Host) : Bn254.readG1 host m' = Bn254.readG1 host m := by
  funext ptr i
  simp only [Bn254.readG1, Bn254.readFq, Memory.readVec_congr h]

theorem bn254_readG2_congr (host : Host) : Bn254.readG2 host m' = Bn254.readG2 host m := by
  funext ptr i
  simp only [Bn254.readG2, Bn254.readFq2, Bn254.readFq, Memory.readVec_congr h]

theorem bls12381_readG1_congr (host : Host) :
    Bls12381.readG1 host m' = Bls12381.readG1 host m := by
  funext ptr i
  simp only [Bls12381.readG1, Bls12381.readFq, Memory.readVec_congr h]

theorem bls12381_readG2_congr (host : Host) :
    Bls12381.readG2 host m' = Bls12381.readG2 host m := by
  funext ptr i
  simp only [Bls12381.readG2, Bls12381.readFq2, Bls12381.readFq, Memory.readVec_congr h]

theorem bytes_writeSlice_congr (ptr : Word) (bs : List Byte) :
    (m'.writeSlice ptr bs).bytes = (m.writeSlice ptr bs).bytes := by
  rw [Memory.bytes_writeSlice, Memory.bytes_writeSlice, h]

theorem bytes_xorBytes_congr (dst src : Word) (len : ℕ) :
    (xorBytes m' dst src len).bytes = (xorBytes m dst src len).bytes := by
  rw [bytes_xorBytes, bytes_xorBytes, h]

end Reads

/-! ### Differences -/

/-- The error of a HintInput without an input. -/
def endOfInput (pc : Word) : Stop CpuError := .err (.customOp (hintInputError pc "EndOfInputStream"))

/-- How the queues of inputs and the outputs of two machines may differ, and the errors of the
first one that excuse the second. -/
structure Difference where
  inputs : List (List Byte) → List (List Byte) → Prop
  output : List Byte → List Byte → Prop
  excused : Stop CpuError → Prop
  /-- A stream at the front is at both fronts. -/
  pop : ∀ {entry rest queue}, inputs (entry :: rest) queue →
    ∃ rest', queue = entry :: rest' ∧ inputs rest rest'
  /-- An empty queue is empty on both sides, or its error is an excuse. -/
  empty : ∀ {queue}, inputs [] queue → queue = [] ∨ ∀ pc, excused (endOfInput pc)
  put : ∀ {o o'} (offset : ℕ) (bs : List Byte), output o o' →
    output (Sparse.put 0#8 o offset bs) (Sparse.put 0#8 o' offset bs)

/-- Handler states that are the same but for the difference. -/
structure SameHandler (D : Difference) (h h' : PrecompileHandler) : Prop where
  moduli : h'.moduli = h.moduli
  curves : h'.curves = h.curves
  complex : h'.complex = h.complex
  pairings : h'.pairings = h.pairings
  hint : h'.io.hintStream = h.io.hintStream
  inputs : D.inputs h.io.inputStreams h'.io.inputStreams
  output : D.output h.io.output h'.io.output

/-- Machines that are the same but for the difference. -/
abbrev Alike (D : Difference) : Machine → Machine → Prop := Together (SameHandler D)

/-- Results that are the same but for the difference. -/
abbrev AlikeResults {α : Type} (D : Difference) (r r' : EStateM.Result (Stop CpuError) Machine α) :
    Prop := Agree D.excused (Alike D) r r'

section Writes
variable {D : Difference} {s t : Machine} (h : Alike D s t)
include h

theorem Alike.store (ptr : Word) (bs : List Byte) : Alike D (s.store ptr bs) (t.store ptr bs) where
  cpu := h.cpu.withMem (bytes_writeSlice_congr h.cpu.bytes ptr bs)
  handler := h.handler

theorem Alike.setReg (r : Reg) (v : Word) : Alike D (s.setReg r v) (t.setReg r v) where
  cpu := h.cpu.writeReg r v
  handler := h.handler

theorem Alike.setPc (pc : Word) : Alike D (s.setPc pc) (t.setPc pc) where
  cpu := h.cpu.withPc pc
  handler := h.handler

theorem Alike.setHint (bs : List Byte) : Alike D (s.setHint bs) (t.setHint bs) where
  cpu := h.cpu
  handler := { h.handler with hint := rfl }

theorem Alike.setMem {m m' : Memory} (hm : m'.bytes = m.bytes) :
    Alike D (s.setMem m) (t.setMem m') where
  cpu := h.cpu.withMem hm
  handler := h.handler

theorem Alike.writeOutput (offset : ℕ) (bs : List Byte) :
    Alike D (s.setIo (s.handler.io.writeOutput offset bs))
      (t.setIo (t.handler.io.writeOutput offset bs)) where
  cpu := h.cpu
  handler := { h.handler with output := D.put offset bs h.handler.output }

theorem writeBytes_agree (ptr : Word) (bs : List Byte) :
    AlikeResults D ((writeBytes ptr bs).run s) ((writeBytes ptr bs).run t) :=
  agree_modify (h.store ptr bs)

theorem writeReg_agree (r : Reg) (v : Word) :
    AlikeResults D ((writeReg r v).run s) ((writeReg r v).run t) := agree_modify (h.setReg r v)

theorem writePair_agree (ptr : Word) (r : Pair) (n : ℕ) :
    AlikeResults D ((writePair ptr r n).run s) ((writePair ptr r n).run t) := by
  rw [writePair_run, writePair_run]
  exact .ok (h.store ptr _)

theorem replaceHintStream_agree (bs : List Byte) :
    AlikeResults D ((replaceHintStream bs).run s) ((replaceHintStream bs).run t) :=
  agree_modify (h.setHint bs)

theorem pushHintStream_agree (bs : List Byte) :
    AlikeResults D ((pushHintStream bs).run s) ((pushHintStream bs).run t) := by
  refine agree_modify ?_
  rw [h.handler.hint]
  exact h.setHint _

end Writes

/-! ### The handlers -/

section Handlers
variable {D : Difference} (host : Host) (insn : Word) {s t : Machine} (h : Alike D s t)
include h

theorem customOp_agree {α : Type} (message : String) :
    AlikeResults D ((customOp message : HandlerM α).run s) ((customOp message : HandlerM α).run t) :=
  agree_throw _ h

omit host in
theorem deliverHint_agree (ptr : Word) (n : ℕ) :
    AlikeResults D ((deliverHint ptr n).run s) ((deliverHint ptr n).run t) := by
  rw [deliverHint_run, deliverHint_run, h.handler.hint]
  exact .ok ((h.setHint _).store ptr _)

omit host in
theorem handleHint_agree : AlikeResults D ((handleHint insn).run s) ((handleHint insn).run t) := by
  refine agree_get ?_
  simp only [h.cpu.reg, h.cpu.pc]
  exact agree_ite (fun _ => deliverHint_agree h _ _) fun _ =>
    agree_ite (fun _ => deliverHint_agree h _ _) fun _ => customOp_agree h _

omit host in
theorem handleReveal_agree :
    AlikeResults D ((handleReveal insn).run s) ((handleReveal insn).run t) := by
  refine agree_get ?_
  simp only [h.cpu.reg]
  exact agree_modify (h.writeOutput _ _)

omit host in
theorem handlePhantom_agree :
    AlikeResults D ((handlePhantom insn).run s) ((handlePhantom insn).run t) := by
  refine agree_get (agree_ite (fun _ => ?_) fun _ => agree_pure _ h)
  rw [h.cpu.pc]
  have hin := h.handler.inputs
  unfold IoState.hintInput
  generalize hq : t.handler.io.inputStreams = queue at hin ⊢
  cases hio : s.handler.io.inputStreams with
  | nil =>
    rw [hio] at hin
    obtain rfl | hexc := D.empty hin
    · exact customOp_agree h _
    · exact .excused (hexc _)
  | cons entry rest =>
    rw [hio] at hin
    obtain ⟨rest', rfl, hrest⟩ := D.pop hin
    exact agree_modify ⟨h.cpu, { h.handler with hint := rfl, inputs := hrest }⟩

theorem handleHash_agree :
    AlikeResults D ((handleHash host insn).run s) ((handleHash host insn).run t) := by
  have hb := h.cpu.bytes
  refine agree_get ?_
  simp only [h.cpu.pc]
  refine agree_ite (fun _ => agree_get ?_) fun _ => agree_ite (fun _ => agree_modify ?_) fun _ =>
    agree_ite (fun _ => agree_get ?_) fun _ => customOp_agree h _
  · simp only [h.cpu.reg, readLanes_congr hb]
    exact writeBytes_agree h _ _
  · simp only [h.cpu.reg]
    exact h.setMem (bytes_xorBytes_congr hb _ _ _)
  · simp only [h.cpu.reg, readState_congr hb, readBlock_congr hb]
    exact writeBytes_agree h _ _

theorem handleInt256_agree :
    AlikeResults D ((handleInt256 host insn).run s) ((handleInt256 host insn).run t) := by
  refine agree_get ?_
  simp only [h.cpu.reg, h.cpu.pc, read32_congr h.cpu.bytes]
  refine agree_lift h fun r _ => ?_
  cases r with
  | none => exact customOp_agree h _
  | some r => exact writeBytes_agree h _ _

omit host in
theorem handleBeq256_agree :
    AlikeResults D ((handleBeq256 insn).run s) ((handleBeq256 insn).run t) := by
  refine agree_get ?_
  simp only [h.cpu.reg, h.cpu.pc, read32_congr h.cpu.bytes]
  exact agree_set (h.setPc _)

omit host in
theorem doModOp_agree (entry : ModulusEntry) (op : Word) :
    AlikeResults D ((doModOp insn entry op).run s) ((doModOp insn entry op).run t) := by
  refine agree_get ?_
  simp only [h.cpu.reg, h.cpu.pc, readLe_congr h.cpu.bytes]
  have hwrite : ∀ x : Calc ℕ, AlikeResults D
      ((do let r ← x; writeLe (s.cpu.readReg (rd insn)) r entry.limbBytes : HandlerM Unit).run s)
      ((do let r ← x; writeLe (s.cpu.readReg (rd insn)) r entry.limbBytes : HandlerM Unit).run t) :=
    fun x => agree_lift h fun r _ => writeBytes_agree h _ _
  refine agree_ite (fun _ => hwrite _) fun _ => agree_ite (fun _ => hwrite _) fun _ =>
    agree_ite (fun _ => hwrite _) fun _ => agree_ite (fun _ => agree_lift h fun r _ => ?_) fun _ =>
    agree_ite (fun _ => agree_lift h fun eq _ => writeReg_agree h _ _) fun _ =>
    agree_ite (fun _ => agree_pure _ h) fun _ => customOp_agree h _
  cases r with
  | none => exact customOp_agree h _
  | some r => exact writeBytes_agree h _ _

theorem handleModular_agree :
    AlikeResults D ((handleModular host insn).run s) ((handleModular host insn).run t) := by
  refine agree_get ?_
  simp only [h.handler.moduli, h.cpu.reg, h.cpu.pc, readLe_congr h.cpu.bytes]
  split
  · exact customOp_agree h _
  · next entry _ =>
    exact agree_ite (fun _ => agree_lift h fun z _ => replaceHintStream_agree h _) fun _ =>
      agree_ite (fun _ => agree_lift h fun z _ => agree_lift h fun r _ =>
        replaceHintStream_agree h _) fun _ => doModOp_agree insn h entry _

omit host in
theorem handleComplex_agree :
    AlikeResults D ((handleComplex insn).run s) ((handleComplex insn).run t) := by
  refine agree_get ?_
  simp only [h.handler.complex, h.cpu.reg, h.cpu.pc, readPair_congr h.cpu.bytes]
  split
  · exact customOp_agree h _
  · next entry _ =>
    refine agree_ite (fun _ => agree_lift h fun r _ => writePair_agree h _ r _) fun _ =>
      agree_ite (fun _ => agree_lift h fun r _ => writePair_agree h _ r _) fun _ =>
      agree_ite (fun _ => agree_lift h fun r _ => writePair_agree h _ r _) fun _ =>
      agree_ite (fun _ => agree_lift h fun r _ => ?_) fun _ =>
      agree_ite (fun _ => agree_lift h fun eq _ => writeReg_agree h _ _) fun _ =>
      agree_ite (fun _ => agree_pure _ h) fun _ => customOp_agree h _
    cases r with
    | none => exact customOp_agree h _
    | some r => exact writePair_agree h _ r _

theorem handleSw_agree :
    AlikeResults D ((handleSw host insn).run s) ((handleSw host insn).run t) := by
  refine agree_get ?_
  simp only [h.handler.curves, h.cpu.reg, h.cpu.pc, readPoint, readPair_congr h.cpu.bytes,
    readLe_congr h.cpu.bytes]
  split
  · exact customOp_agree h _
  · next curve _ =>
    refine agree_ite (fun _ => agree_lift h fun r _ => writePair_agree h _ r _) fun _ =>
      agree_ite (fun _ => agree_lift h fun r _ => writePair_agree h _ r _) fun _ =>
      agree_ite (fun _ => agree_pure _ h) fun _ =>
      agree_ite (fun _ => agree_lift h fun r _ => ?_) fun _ =>
      agree_ite (fun _ => agree_lift h fun z _ => writeBytes_agree h _ _) fun _ =>
      customOp_agree h _
    cases r with
    | none => exact customOp_agree h _
    | some y => exact writeBytes_agree h _ _

theorem bn254_hintFinalExp_agree :
    AlikeResults D ((Bn254.hintFinalExp host insn).run s) ((Bn254.hintFinalExp host insn).run t) := by
  refine agree_get ?_
  simp only [h.cpu.reg, h.cpu.pc, readDescriptors_congr h.cpu.bytes,
    bn254_readG1_congr h.cpu.bytes, bn254_readG2_congr h.cpu.bytes]
  have hpush : ∀ bs bs', AlikeResults D
      ((do pushHintStream bs; pushHintStream bs' : HandlerM Unit).run s)
      ((do pushHintStream bs; pushHintStream bs' : HandlerM Unit).run t) := fun bs bs' =>
    agree_bind (pushHintStream_agree h bs) fun _ _ _ h₁ => pushHintStream_agree h₁ bs'
  exact agree_ite (fun _ => customOp_agree h _) fun _ => agree_ite (fun _ => hpush _ _) fun _ =>
    agree_lift h fun _ _ => agree_lift h fun _ _ => agree_lift h fun r _ => hpush _ _

theorem bls12381_hintFinalExp_agree :
    AlikeResults D ((Bls12381.hintFinalExp host insn).run s)
      ((Bls12381.hintFinalExp host insn).run t) := by
  refine agree_get ?_
  simp only [h.cpu.reg, h.cpu.pc, readDescriptors_congr h.cpu.bytes,
    bls12381_readG1_congr h.cpu.bytes, bls12381_readG2_congr h.cpu.bytes]
  exact agree_ite (fun _ => customOp_agree h _) fun _ =>
    agree_ite (fun _ => pushHintStream_agree h _) fun _ =>
    agree_lift h fun _ _ => agree_lift h fun _ _ => agree_lift h fun r _ =>
      agree_bind (pushHintStream_agree h _) fun _ _ _ h₁ => pushHintStream_agree h₁ _

theorem handlePairing_agree :
    AlikeResults D ((handlePairing host insn).run s) ((handlePairing host insn).run t) := by
  refine agree_get ?_
  simp only [h.handler.pairings, h.cpu.pc]
  exact agree_ite (fun _ => customOp_agree h _) fun _ =>
    agree_ite (fun _ => bn254_hintFinalExp_agree host insn h) fun _ =>
    agree_ite (fun _ => bls12381_hintFinalExp_agree host insn h) fun _ => customOp_agree h _

/-! ### The dispatcher -/

theorem handleCustom0_agree (f3 : Word) :
    AlikeResults D ((handleCustom0 host insn f3).run s) ((handleCustom0 host insn f3).run t) := by
  have hthen : ∀ {m : HandlerM Unit}, AlikeResults D (m.run s) (m.run t) →
      AlikeResults D ((do m; pure .continue : HandlerM StepOutcome).run s)
        ((do m; pure .continue : HandlerM StepOutcome).run t) := fun hm =>
    agree_bind hm fun _ _ _ h₁ => agree_pure _ h₁
  refine agree_ite (fun _ => agree_get ?_) fun _ =>
    agree_ite (fun _ => hthen (handleHint_agree insn h)) fun _ =>
    agree_ite (fun _ => hthen (handleReveal_agree insn h)) fun _ =>
    agree_ite (fun _ => hthen (handlePhantom_agree insn h)) fun _ =>
    agree_ite (fun _ => hthen (handleHash_agree host insn h)) fun _ =>
    agree_ite (fun _ => hthen (handleInt256_agree host insn h)) fun _ =>
    agree_ite (fun _ => hthen (handleBeq256_agree insn h)) fun _ =>
    agree_ite (fun _ => agree_pure _ h) fun _ => agree_get ?_
  · rw [h.cpu.reg]
    exact agree_pure _ h
  · rw [h.cpu.pc]
    exact customOp_agree h _

theorem handleCustom1_agree (f3 : Word) :
    AlikeResults D ((handleCustom1 host insn f3).run s) ((handleCustom1 host insn f3).run t) := by
  have hthen : ∀ {m : HandlerM Unit}, AlikeResults D (m.run s) (m.run t) →
      AlikeResults D ((do m; pure .continue : HandlerM StepOutcome).run s)
        ((do m; pure .continue : HandlerM StepOutcome).run t) := fun hm =>
    agree_bind hm fun _ _ _ h₁ => agree_pure _ h₁
  refine agree_ite (fun _ => hthen (handleModular_agree host insn h)) fun _ =>
    agree_ite (fun _ => hthen (handleComplex_agree insn h)) fun _ =>
    agree_ite (fun _ => hthen (handleSw_agree host insn h)) fun _ =>
    agree_ite (fun _ => hthen (handlePairing_agree host insn h)) fun _ => agree_get ?_
  rw [h.cpu.pc]
  exact customOp_agree h _

theorem handle_agree : AlikeResults D ((handle host insn).run s) ((handle host insn).run t) := by
  refine agree_get ?_
  rw [h.cpu.pc]
  have hdispatch : AlikeResults D ((dispatch host insn).run s) ((dispatch host insn).run t) := by
    refine agree_get ?_
    rw [h.cpu.pc]
    exact agree_ite (fun _ => handleCustom0_agree host insn h _) fun _ =>
      agree_ite (fun _ => handleCustom1_agree host insn h _) fun _ => agree_throw _ h
  refine agree_bind hdispatch fun o s₁ t₁ h₁ => ?_
  cases o with
  | terminated code => exact agree_pure _ h₁
  | «continue» =>
    refine agree_bind (agree_modify ?_) fun _ _ _ h₂ => agree_pure _ h₂
    rw [h₁.cpu.pc]
    split
    · exact h₁.setPc _
    · exact h₁

end Handlers

theorem customOps_keepsTogether (host : Host) (D : Difference) :
    (customOps host).KeepsTogether D.excused (SameHandler D) :=
  fun insn _ _ h => handle_agree host insn h

/-! ### The layout of the memory -/

/-- No difference but in the pages of the two memories. -/
def Difference.layout : Difference where
  inputs xs ys := ys = xs
  output o o' := o' = o
  excused _ := False
  pop h := ⟨_, h, rfl⟩
  empty h := .inl h
  put _ _ h := by rw [h]

/-- The same machine to every program: CPUs with the same view, and the same handler. -/
def SameMachine (s t : Machine) : Prop := s.cpu.SameView t.cpu ∧ t.handler = s.handler

theorem sameHandler_layout_iff {h h' : PrecompileHandler} :
    SameHandler .layout h h' ↔ h' = h := by
  constructor
  · intro hs
    obtain ⟨⟨inputs, hint, output⟩, moduli, curves, complex, pairings⟩ := h
    obtain ⟨⟨inputs', hint', output'⟩, moduli', curves', complex', pairings'⟩ := h'
    obtain ⟨rfl, rfl, rfl, rfl, rfl, hin, hout⟩ := hs
    obtain rfl : inputs' = inputs := hin
    obtain rfl : output' = output := hout
    rfl
  · rintro rfl
    exact ⟨rfl, rfl, rfl, rfl, rfl, rfl, rfl⟩

theorem alike_layout_iff {s t : Machine} : Alike .layout s t ↔ SameMachine s t :=
  ⟨fun h => ⟨h.cpu, sameHandler_layout_iff.mp h.handler⟩,
    fun h => ⟨h.1, sameHandler_layout_iff.mpr h.2⟩⟩

/-- **No program can tell how its memory is laid out on pages.** Two machines with the same pc,
registers, step counter, bytes and handler return the same exit code or fail with the same
error, and are again the same after the run: a page of zeros is as good as no page, and the
unread entry behind `x0` does not matter either. -/
theorem run_layout (host : Host) {s t : Machine} (h : SameMachine s t) (n : ℕ) :
    Agree (fun _ => False) SameMachine ((Cpu.run (customOps host) n).run s)
      ((Cpu.run (customOps host) n).run t) :=
  (run_agree (customOps_keepsTogether host .layout) n (alike_layout_iff.mpr h)).mono
    fun _ _ h' => alike_layout_iff.mp h'

theorem sameMachine_setMem {s : Machine} {mem : Memory} (h : mem.bytes = s.cpu.mem.bytes) :
    SameMachine s (s.setMem mem) := ⟨⟨rfl, rfl, h, rfl⟩, rfl⟩

/-- A machine about to add one to the byte at 8197 and to store it behind that byte, on a page that
is not there. -/
def pageless : Machine :=
  Sim.loaded [0x000020b7#32, 0x0050c103#32, 0x00110113#32, 0x00208323#32, terminateWord 0#12] [[]]

/-- The run returns, and so it does with a page of zeros in place of no page. -/
theorem run_layout_zeroPage :
    Agree (fun _ => False) SameMachine ((Cpu.run (customOps Host.constant) 7).run pageless)
      ((Cpu.run (customOps Host.constant) 7).run
        (pageless.setMem (pageless.cpu.mem.writeU8 8197#32 0#8))) ∧
    ∃ t, (Cpu.run (customOps Host.constant) 7).run pageless = .ok 0#32 t ∧
      t.cpu.mem.readU8 8198#32 = 1#8 := by
  have hzero : pageless.cpu.mem.bytes 8197#32 = 0#8 := by decide +kernel
  have hbytes : (pageless.cpu.mem.writeU8 8197#32 0#8).bytes = pageless.cpu.mem.bytes := by
    rw [Memory.bytes_writeU8, ← hzero]
    exact Function.update_eq_self 8197#32 _
  have hrun : Run (customOps Host.constant) pageless _
      (pageless.after (customOps Host.constant) 4) := run_after (n := 4) (by decide +kernel)
  have hret := run_terminate Host.constant hrun (by decide +kernel : _ < 7) (by decide +kernel)
  have hcode : (pageless.after (customOps Host.constant) 4).cpu.readReg
      (rs1 (pageless.after (customOps Host.constant) 4).cpu.fetch) = 0#32 := by decide +kernel
  rw [hcode] at hret
  exact ⟨run_layout Host.constant (sameMachine_setMem hbytes) 7, _, hret, by decide +kernel⟩

/-! ### The output -/

/-- The outputs are what the same writes leave of two outputs. -/
def Difference.outputs (o₀ o₀' : List Byte) : Difference where
  inputs xs ys := ys = xs
  output o o' := ∃ writes, o = Sparse.puts 0#8 o₀ writes ∧ o' = Sparse.puts 0#8 o₀' writes
  excused _ := False
  pop h := ⟨_, h, rfl⟩
  empty h := .inl h
  put offset bs h := by
    obtain ⟨writes, rfl, rfl⟩ := h
    refine ⟨writes ++ [(offset, bs)], ?_, ?_⟩
    · rw [Sparse.puts_append]
      rfl
    · rw [Sparse.puts_append]
      rfl

/-- **The public output is write-only.** Whatever is in it when a run begins, the run returns
the same exit code or error and leaves the same pc, registers, bytes, inputs and hints; and the
outputs it leaves come from one list of writes. -/
theorem run_output_unseen (host : Host) (s : Machine) (o : List Byte) (n : ℕ) :
    AlikeResults (.outputs s.handler.io.output o) ((Cpu.run (customOps host) n).run s)
      ((Cpu.run (customOps host) n).run (s.setIo { s.handler.io with output := o })) :=
  run_agree (customOps_keepsTogether host _) n
    ⟨.refl _, ⟨rfl, rfl, rfl, rfl, rfl, rfl, [], rfl, rfl⟩⟩

/-! ### More inputs -/

/-- The second queue has more streams behind those of the first. -/
def Difference.moreInputs (extra : List (List Byte)) : Difference where
  inputs xs ys := ys = xs ++ extra
  output o o' := o' = o
  excused e := ∃ pc, e = endOfInput pc
  pop h := ⟨_, h, rfl⟩
  empty _ := .inr fun pc => ⟨pc, rfl⟩
  put _ _ h := by rw [h]

/-- **Inputs that are not asked for do not matter.** With more streams behind its queue of inputs
a run returns the same exit code or error, leaves the same pc, registers, bytes, hints and
output, and has the additional streams still at the end of its queue, unless the run without
them failed on a HintInput with an empty queue. -/
theorem run_more_inputs (host : Host) (s : Machine) (extra : List (List Byte)) (n : ℕ) :
    AlikeResults (.moreInputs extra) ((Cpu.run (customOps host) n).run s)
      ((Cpu.run (customOps host) n).run
        (s.setIo { s.handler.io with inputStreams := s.handler.io.inputStreams ++ extra })) :=
  run_agree (customOps_keepsTogether host _) n ⟨.refl _, ⟨rfl, rfl, rfl, rfl, rfl, rfl, rfl⟩⟩

end OpenvmSim.Precompiles
