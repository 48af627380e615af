import OpenvmSim.Precompiles.Exit
import OpenvmSim.Precompiles.SlotRuns
import OpenvmSim.Runner.Main

/-! The echo guest.

A guest is written with calls that compile to one custom word each, on local variables in memory.
Its source says what the calls do to the I/O state; a run that makes the calls, with whatever other
steps the compiler needs in between, does the same (`Executes.shows`). So the echo guest prints the
first sixteen bytes of its input (`echo`). -/
namespace OpenvmSim.Guest
open Rv32im Precompiles

/-! ### Guests -/

section Guest
variable {ι : Type}

/-- The calls of a guest. A local variable is a word. -/
inductive Call (ι : Type) where
  | hintInput
  | hintStorew (dst : ι)
  | reveal (byteOffset : Word) (value : ι)

/-- The variable that a call stores to. -/
def Call.stored : Call ι → List ι
  | .hintStorew dst => [dst]
  | _ => []

/-- The variable that a call reads. -/
def Call.used : Call ι → List ι
  | .reveal _ value => [value]
  | _ => []

/-- No call reads a variable that is not live, or that no call before it has stored to. -/
def Defined : List ι → List (Call ι) → Prop
  | _, [] => True
  | live, c :: calls => (∀ i ∈ c.used, i ∈ live) ∧ Defined (c.stored ++ live) calls

instance decidableDefined [DecidableEq ι] :
    ∀ (live : List ι) (calls : List (Call ι)), Decidable (Defined live calls)
  | _, [] => .isTrue trivial
  | live, c :: calls =>
    have := decidableDefined (c.stored ++ live) calls
    inferInstanceAs (Decidable (_ ∧ _))

/-- What a guest sees: its I/O state and the bytes of its variables. -/
structure State (ι : Type) where
  io : IoState
  locals : ι → List Byte

def Call.exec [DecidableEq ι] (g : State ι) : Call ι → State ι
  | .hintInput =>
    match g.io.hintInput with
    | .ok io => { g with io }
    | .error _ => g
  | .hintStorew dst =>
    let read := IoState.readHintBytes 4 g.io.hintStream
    { io := { g.io with hintStream := read.2 }, locals := Function.update g.locals dst read.1 }
  | .reveal byteOffset value =>
    { g with io := g.io.writeOutput byteOffset.toNat (g.locals value) }

end Guest

/-! ### Runs of a guest -/

section Runs
variable {ι : Type} {ptr : ι → Word} {host : Host} {s s' : Machine} {live : List ι}

/-- The next word makes a call, with the variables at `ptr`. -/
def Makes (ptr : ι → Word) (s : Machine) : Call ι → Prop
  | .hintInput => IsHintInput s.cpu.fetch
  | .hintStorew dst => IsHintStorew s.cpu.fetch ∧ s.cpu.readReg (rd s.cpu.fetch) = ptr dst
  | .reveal byteOffset value => IsReveal s.cpu.fetch ∧
      s.cpu.readReg (rd s.cpu.fetch) + imm12 s.cpu.fetch = byteOffset ∧
      s.cpu.readReg (rs1 s.cpu.fetch) = s.cpu.mem.readU32 (ptr value)

instance decidableMakes (ptr : ι → Word) (s : Machine) : ∀ c, Decidable (Makes ptr s c)
  | .hintInput => inferInstanceAs (Decidable (IsHintInput _))
  | .hintStorew _ => inferInstanceAs (Decidable (_ ∧ _))
  | .reveal _ _ => inferInstanceAs (Decidable (_ ∧ _ ∧ _))

/-- The next step makes no call, and writes into no variable that is live. -/
structure Idle (ptr : ι → Word) (live : List ι) (s : Machine) : Prop where
  hints : ¬TouchesHint s.cpu.fetch
  reveals : ¬IsReveal s.cpu.fetch
  locals : ∀ i ∈ live, Quiet (fun _ : Unit => ptr i) 4 s

/-- The states make the calls, with idle steps in between. A variable is live once a call has stored
to it. -/
inductive Executes (ptr : ι → Word) : List ι → List Machine → List (Call ι) → Prop where
  | done {live : List ι} : Executes ptr live [] []
  | call {live : List ι} {u : Machine} {c : Call ι} {states : List Machine} {calls : List (Call ι)}
      (h : Makes ptr u c) (hs : Executes ptr (c.stored ++ live) states calls) :
      Executes ptr live (u :: states) (c :: calls)
  | idle {live : List ι} {u : Machine} {states : List Machine} {calls : List (Call ι)}
      (h : Idle ptr live u) (hs : Executes ptr live states calls) :
      Executes ptr live (u :: states) calls

/-- The machine is in a state of the guest. -/
structure Shows (ptr : ι → Word) (live : List ι) (s : Machine) (g : State ι) : Prop where
  io : s.handler.io = g.io
  locals : ∀ i ∈ live, s.cpu.mem.readVec (ptr i) 4 = g.locals i

/-- The bytes of a word in memory. -/
theorem ofNat_readU32 (mem : Memory) (p : Word) :
    LittleEndian.ofNat 4 (mem.readU32 p).toNat = mem.readVec p 4 := by
  have hbytes := LittleEndian.ofNat_toNat
    [mem.bytes p, mem.bytes (p + 1#32), mem.bytes (p + 2#32), mem.bytes (p + 3#32)]
  rw [Memory.readU32_eq, LittleEndian.word32_toNat]
  refine hbytes.trans ?_
  have hzero : mem.bytes p = mem.readU8 (p + BitVec.ofNat 32 0) := by
    rw [← Memory.bytes_apply, BitVec.add_zero]
  rw [hzero]
  rfl

theorem io_eq {io io' : IoState} (hinputs : io'.inputStreams = io.inputStreams)
    (hhint : io'.hintStream = io.hintStream) (hout : io'.output = io.output) : io' = io := by
  cases io
  cases io'
  cases hinputs
  cases hhint
  cases hout
  rfl

theorem idle_step {g : State ι} (h : Iteration (customOps host) s s') (hi : Idle ptr live s)
    (hg : Shows ptr live s g) : Shows ptr live s' g where
  io := by
    obtain ⟨hhint, hinputs⟩ := iteration_quiet h hi.hints
    have hout : s'.handler.io.output = s.handler.io.output := by
      rw [iteration_output h, reveals_of_not_reveal hi.reveals]
      rfl
    exact (io_eq hinputs hhint hout).trans hg.io
  locals i hlive := by
    rw [← hg.locals i hlive]
    exact readVec_eq_of_bytes fun a ha => (iteration_frame h).bytes a (hi.locals i hlive () a ha)

/-- Calls that are made one after the other. -/
theorem executes_range {calls : List (Call ι)} {f : ℕ → Machine}
    (h : ∀ k c, calls[k]? = some c → Makes ptr (f k) c) :
    Executes ptr live ((List.range calls.length).map f) calls := by
  induction calls generalizing live f with
  | nil => exact .done
  | cons c calls ih =>
    rw [List.length_cons, List.range_succ_eq_map, List.map_cons, List.map_map]
    exact .call (h 0 c rfl) (ih fun k => h (k + 1))

variable [DecidableEq ι]

/-- HintInput takes a stream, and leaves memory alone. -/
theorem hintInput_step (h : Iteration (customOps host) s s') (hi : IsHintInput s.cpu.fetch) :
    s.handler.io.hintInput = .ok s'.handler.io ∧ s'.cpu.mem = s.cpu.mem := by
  obtain ⟨hc, -⟩ | ⟨-, s₁, he, rfl⟩ := iteration_effect h
  · exact absurd (.inl hi.1.1) hc
  · rw [WordEffect, kindOf_hintInput _ hi] at he
    obtain _ | _ | _ | _ | _ | _ | _ | ⟨-, hio, hb⟩ := he
    rw [payload_hintInput host s hi hio] at hb
    obtain rfl := Option.some.inj hb
    rw [handler_countStep, handler_advanced, Sim.io_setIo, mem_countStep, mem_advanced]
    refine ⟨?_, rfl⟩
    rw [IoState.hintInput, hio]
    rfl

theorem hintStorew_step (h : Iteration (customOps host) s s') (hs : IsHintStorew s.cpu.fetch) :
    s'.handler.io =
        { s.handler.io with
          hintStream := (IoState.readHintBytes 4 s.handler.io.hintStream).2 } ∧
      s'.cpu.mem = s.cpu.mem.writeSlice (s.cpu.readReg (rd s.cpu.fetch))
        (IoState.readHintBytes 4 s.handler.io.hintStream).1 := by
  have hstep : (Cpu.step (customOps host)).run s = _ := hintRead_step (.inl hs)
  rw [hintLength_storew hs] at hstep
  obtain ⟨t, ht, rfl⟩ := iteration_iff.mp h
  cases hstep.symm.trans ht
  rw [handler_countStep, handler_advanced, mem_countStep, mem_advanced]
  exact ⟨rfl, rfl⟩

theorem reveal_step (h : Iteration (customOps host) s s') (hr : IsReveal s.cpu.fetch) :
    s'.handler.io = s.handler.io.writeOutput
        (s.cpu.readReg (rd s.cpu.fetch) + imm12 s.cpu.fetch).toNat
        (LittleEndian.ofNat 4 (s.cpu.readReg (rs1 s.cpu.fetch)).toNat) ∧
      s'.cpu.mem = s.cpu.mem := by
  have hrun : (handleReveal s.cpu.fetch).run s = .ok () (s.setIo (s.handler.io.writeOutput
      (s.cpu.readReg (rd s.cpu.fetch) + imm12 s.cpu.fetch).toNat
      (LittleEndian.ofNat 4 (s.cpu.readReg (rs1 s.cpu.fetch)).toNat))) := rfl
  have hstep := (step_custom (customOps host) (.inl hr.1)).trans
    (handle_run_ok (calls_reveal hr) hrun)
  obtain ⟨t, ht, rfl⟩ := iteration_iff.mp h
  cases hstep.symm.trans ht
  rw [handler_countStep, handler_advanced, mem_countStep, mem_advanced]
  exact ⟨rfl, rfl⟩

/-- A word that is stored in a variable is there, and the other variables are as they were. -/
theorem readVec_local (hcells : Cells ptr 4) (mem : Memory) {dst : ι} {bytes : List Byte}
    (hlen : bytes.length = 4) (i : ι) : (mem.writeSlice (ptr dst) bytes).readVec (ptr i) 4 =
      Function.update (fun j => mem.readVec (ptr j) 4) dst bytes i := by
  by_cases hi : i = dst
  · subst hi
    rw [Function.update_self, Memory.readVec_eq_load, Memory.bytes_writeSlice, ← hlen,
      Flat.load_overlay _ _ _ (by rw [hlen]; decide)]
  · rw [Function.update_of_ne hi, Memory.readVec_eq_load, Memory.bytes_writeSlice,
      Flat.load_overlay_of_apart _ (by rw [hlen]; decide) (by
        rw [hlen]
        exact hcells.apart dst i (Ne.symm hi))]
    rfl

/-- A call does what the source says. -/
theorem call_step (hcells : Cells ptr 4) {g : State ι} (h : Iteration (customOps host) s s')
    {c : Call ι} (hc : Makes ptr s c) (hused : ∀ i ∈ c.used, i ∈ live)
    (hg : Shows ptr live s g) : Shows ptr (c.stored ++ live) s' (c.exec g) := by
  cases c with
  | hintInput =>
    obtain ⟨hio, hmem⟩ := hintInput_step h hc
    have hexec : Call.exec g .hintInput = { g with io := s'.handler.io } := by
      rw [Call.exec, ← hg.io, hio]
    rw [hexec]
    refine ⟨rfl, fun i hi => ?_⟩
    rw [hmem]
    exact hg.locals i hi
  | hintStorew dst =>
    obtain ⟨hs, hptr⟩ := hc
    obtain ⟨hio, hmem⟩ := hintStorew_step h hs
    have hlen := IoState.length_readHintBytes 4 s.handler.io.hintStream
    constructor
    · rw [hio, hg.io]
      rfl
    · intro i hi
      show _ = Function.update g.locals dst (IoState.readHintBytes 4 g.io.hintStream).1 i
      rw [hmem, hptr, readVec_local hcells s.cpu.mem hlen, ← hg.io]
      by_cases hid : i = dst
      · rw [hid, Function.update_self, Function.update_self]
      · rw [Function.update_of_ne hid, Function.update_of_ne hid]
        exact hg.locals i ((List.mem_cons.mp hi).resolve_left hid)
  | reveal byteOffset value =>
    obtain ⟨hr, hoffset, hvalue⟩ := hc
    obtain ⟨hio, hmem⟩ := reveal_step h hr
    constructor
    · rw [hio, hoffset, hvalue, ofNat_readU32, hg.locals value (hused value List.mem_cons_self),
        hg.io]
      rfl
    · intro i hi
      rw [hmem]
      exact hg.locals i hi

/-- A run that makes the calls of a guest ends with the I/O state that its source gives. -/
theorem Executes.shows (hcells : Cells ptr 4) {trace : List Machine} {t : Machine}
    (hrun : Run (customOps host) s trace t) {calls : List (Call ι)}
    (h : Executes ptr live trace calls) (hd : Defined live calls) {g : State ι}
    (hg : Shows ptr live s g) : t.handler.io = (calls.foldl Call.exec g).io := by
  induction hrun generalizing live calls g with
  | done s =>
    cases h
    exact hg.io
  | next hit _ ih =>
    cases h with
    | call hc hs => exact ih hs hd.2 (call_step hcells hit hc hd.1 hg)
    | idle hi hs => exact ih hs hd (idle_step hit hi hg)

end Runs

/-! ### The echo guest -/

namespace Echo

/-- The local variables of `main`. -/
inductive Local where
  | lenWord
  | buf (i : Fin 4)
  deriving DecidableEq

/-- `main`, up to its `terminate`. The first four bytes are the input length, which is discarded. -/
def main : List (Call Local) :=
  .hintInput :: .hintStorew .lenWord ::
    ((List.finRange 4).map (fun i => .hintStorew (.buf i)) ++
      (List.finRange 4).map fun i => .reveal (BitVec.ofNat 32 i.val * 4#32) (.buf i))

end Echo

/-- Bytes written at the end of the output. -/
theorem writeOutput_end {io : IoState} {offset : ℕ} (h : io.output.length = offset)
    (bytes : List Byte) : (io.writeOutput offset bytes).output = io.output ++ bytes := by
  subst h
  have hdrop : (io.output ++ List.replicate (io.output.length + bytes.length - io.output.length)
      0#8).drop (io.output.length + bytes.length) = [] := by simp
  rw [IoState.writeOutput, hdrop, List.take_left, List.append_nil]

/-- Sixteen bytes of a padded stream. -/
theorem readHintBytes_padded4 (input : List Byte) :
    (IoState.readHintBytes 16 (padded4 input)).1 = (input ++ List.replicate 16 0#8).take 16 := by
  rw [IoState.readHintBytes_padded, padded4]
  simp only [List.take_append, List.take_replicate, List.length_append, List.length_replicate,
    List.append_assoc, List.replicate_append_replicate]
  congr 2
  omega

/-- The words of the hint stream after the first go to the output. -/
theorem main_words (io : IoState) (locals : Echo.Local → List Byte) (hempty : io.output = []) :
    (Echo.main.tail.foldl Call.exec ⟨io, locals⟩).io.output =
      (IoState.readHintBytes 16 (IoState.readHintBytes 4 io.hintStream).2).1 := by
  generalize hq : (IoState.readHintBytes 4 io.hintStream).2 = q
  obtain ⟨b₁, q₁, h₁⟩ : ∃ b q', IoState.readHintBytes 4 q = (b, q') := ⟨_, _, rfl⟩
  obtain ⟨b₂, q₂, h₂⟩ : ∃ b q', IoState.readHintBytes 4 q₁ = (b, q') := ⟨_, _, rfl⟩
  obtain ⟨b₃, q₃, h₃⟩ : ∃ b q', IoState.readHintBytes 4 q₂ = (b, q') := ⟨_, _, rfl⟩
  obtain ⟨b₄, q₄, h₄⟩ : ∃ b q', IoState.readHintBytes 4 q₃ = (b, q') := ⟨_, _, rfl⟩
  have hlen : ∀ {q b q'}, IoState.readHintBytes 4 q = (b, q') → b.length = 4 := fun {q b q'} h => by
    rw [← IoState.length_readHintBytes 4 q, h]
  generalize hstored : ({ io with hintStream := q₄ } : IoState) = stored
  have hio : (Echo.main.tail.foldl Call.exec ⟨io, locals⟩).io =
      ((((stored.writeOutput 0 b₁).writeOutput 4 b₂).writeOutput 8 b₃).writeOutput 12 b₄) := by
    simp [Echo.main, List.finRange_succ, Call.exec, hq, h₁, h₂, h₃, h₄, ← hstored]
  have hout : stored.output = [] := by
    rw [← hstored]
    exact hempty
  have hout₁ : (stored.writeOutput 0 b₁).output = b₁ := by
    rw [writeOutput_end (by rw [hout]; rfl), hout, List.nil_append]
  have hout₂ : ((stored.writeOutput 0 b₁).writeOutput 4 b₂).output = b₁ ++ b₂ := by
    rw [writeOutput_end (by rw [hout₁, hlen h₁]), hout₁]
  have hout₃ : (((stored.writeOutput 0 b₁).writeOutput 4 b₂).writeOutput 8 b₃).output =
      b₁ ++ b₂ ++ b₃ := by
    rw [writeOutput_end (by rw [hout₂, List.length_append, hlen h₁, hlen h₂]), hout₂]
  have hread : (IoState.readHintBytes (4 + (4 + (4 + 4))) q).1 = b₁ ++ (b₂ ++ (b₃ ++ b₄)) := by
    simp only [IoState.readHintBytes_add, h₁, h₂, h₃, h₄]
  rw [hio, writeOutput_end
    (by rw [hout₃, List.length_append, List.length_append, hlen h₁, hlen h₂, hlen h₃]), hout₃,
    List.append_assoc, List.append_assoc]
  exact hread.symm

/-- What the source prints. -/
theorem main_output (input : List Byte) (locals : Echo.Local → List Byte) :
    (Echo.main.foldl Call.exec ⟨IoState.withInput input, locals⟩).io.output =
      (input ++ List.replicate 16 0#8).take 16 := by
  have hlen : (LittleEndian.ofNat 4 input.length).length = 4 := LittleEndian.length_ofNat _ _
  have hrest : (IoState.readHintBytes 4 (streamBytes input)).2 = padded4 input := by
    rw [IoState.readHintBytes_padded, streamBytes_eq]
    exact List.drop_left' hlen
  have hwords := main_words ⟨[], streamBytes input, []⟩ locals rfl
  rw [hrest, readHintBytes_padded4] at hwords
  exact hwords

/-- **The echo guest prints the first sixteen bytes of its input, filled up with zeros.** Take a run
of any program, on any input, that makes the calls of `main`, with its local variables anywhere but
apart, and comes to the guest's TERMINATE in fewer steps than the maximum. Whatever else its steps
do that is no call and writes into no variable that is live, the run returns zero, and the command
line prints those bytes, in either format. -/
theorem echo {ε : Type} (host : Host) {ptr : Echo.Local → Word} (hcells : Cells ptr 4) (s t : Machine)
    (input : List Byte) (hinput : s.handler.io = IoState.withInput input) (trace : List Machine)
    (maxSteps : ℕ) (asHex : Bool) (hrun : Run (customOps host) s trace t)
    (hcalls : Executes ptr [] trace Echo.main) (hlim : t.cpu.steps < maxSteps)
    (hterm : IsGuestTerminate t.cpu.fetch) :
    (Cpu.run (customOps host) maxSteps).run s = .ok 0#32 t ∧
      (Runner.report asHex ((Cpu.run (customOps host) maxSteps).run s) :
          Exec (Runner.RunError ε) String) =
        .ok (Runner.printed asHex ((input ++ List.replicate 16 0#8).take 16)) := by
  have hshows : Shows ptr [] s ⟨IoState.withInput input, fun _ => []⟩ := ⟨hinput, nofun⟩
  have hout : t.handler.io.output = (input ++ List.replicate 16 0#8).take 16 := by
    rw [hcalls.shows hcells hrun (by decide) hshows, main_output]
  have hcode : t.cpu.readReg (rs1 t.cpu.fetch) = 0#32 := by
    rw [hterm.2.2]
    rfl
  have hok := run_terminate host hrun hlim hterm.1
  rw [hcode] at hok
  refine ⟨hok, ?_⟩
  rw [hok, Runner.report, hout]

/-! ### A run -/

namespace Echo

/-- The variables in a row. -/
def place : Local → Word
  | .lenWord => 8192#32
  | .buf i => BitVec.ofNat 32 (8196 + 4 * i.val)

/-- The calls of `main` on the registers from `x1` on, and `terminate`. -/
def words : List Word :=
  hintInputWord :: ((List.range 5).map fun k =>
    BitVec.ofNat 32 (k + 1) <<< 7 ||| F3_HINT <<< 12 ||| OPCODE_CUSTOM_0) ++
  ((List.range 4).map fun k => BitVec.ofNat 32 (k + 10) <<< 15 ||| F3_REVEAL <<< 12 |||
    BitVec.ofNat 32 (k + 6) <<< 7 ||| OPCODE_CUSTOM_0) ++ [terminateWord 0#12]

/-- The variables' addresses, the offsets in the output, and the words of the input. -/
def registers : List Word :=
  [8192#32, 8196#32, 8200#32, 8204#32, 8208#32, 0#32, 4#32, 8#32, 12#32, 0x04030201#32, 5#32, 0#32,
    0#32]

/-- A machine about to echo five bytes. -/
def machine : Machine :=
  (List.range 13).foldl (fun s k => s.setReg (BitVec.ofNat 5 (k + 1)) (registers.getD k 0#32))
    (Sim.loaded words [[1#8, 2#8, 3#8, 4#8, 5#8]])

/-- The machine after `n` steps. -/
def after : ℕ → Machine := machine.after (customOps Host.constant)

theorem place_cells : Cells place 4 where
  fits := by decide
  apart i j hij := by
    have hfirst : ∀ j : Fin 4, Apart 4 (place .lenWord) (place (.buf j)) := by
      unfold Apart
      decide
    have hlast : ∀ i : Fin 4, Apart 4 (place (.buf i)) (place .lenWord) := by
      unfold Apart
      decide
    have hbuf : ∀ i j : Fin 4, i ≠ j → Apart 4 (place (.buf i)) (place (.buf j)) := by
      unfold Apart
      decide
    cases i with
    | lenWord =>
      cases j with
      | lenWord => exact absurd rfl hij
      | buf j => exact hfirst j
    | buf i =>
      cases j with
      | lenWord => exact hlast i
      | buf j => exact hbuf i j fun h => hij (congrArg Local.buf h)

theorem run_machine :
    Run (customOps Host.constant) machine ((List.range 10).map after) (after 10) :=
  run_after (by decide +kernel)

theorem makes_after (k : ℕ) (c : Call Local) (h : main[k]? = some c) : Makes place (after k) c := by
  have hmakes : ∀ k < 10, ∀ c ∈ main[k]?, Makes place (after k) c := by decide +kernel
  obtain ⟨hk, -⟩ := List.getElem?_eq_some_iff.mp h
  exact hmakes k hk c h

end Echo

/-- Five bytes are echoed with eleven zeros behind them. -/
theorem echo_five : (Cpu.run (customOps Host.constant) 11).run Echo.machine =
      .ok 0#32 (Echo.after 10) ∧
    (Runner.report true ((Cpu.run (customOps Host.constant) 11).run Echo.machine) :
        Exec (Runner.RunError Unit) String) =
      .ok (Runner.printed true (([1#8, 2#8, 3#8, 4#8, 5#8] ++ List.replicate 16 0#8).take 16)) :=
  echo Host.constant Echo.place_cells Echo.machine (Echo.after 10) _ rfl _ 11 true
    Echo.run_machine (executes_range Echo.makes_after) (by decide +kernel)
    (by decide +kernel)

end OpenvmSim.Guest
