import OpenvmSim.Precompiles.HintStream
import OpenvmSim.Rv32im.FlatMemory

/-! Input streams, delivered end to end.

A `Session` is what a guest does to take in its input: for each stream a HintInput,
a HINT_STOREW for the length, and as many words as the length needs by any split
into HINT_STOREW and HINT_BUFFER, with other instructions anywhere between. What it
obtains is read off its memory. `session_delivers` says that this is each stream in
turn, whole, with nothing but padding behind it. -/
namespace OpenvmSim.Precompiles
open Rv32im

/-! ### The queue -/

namespace IoState

theorem readHintBytes_eq {n : ℕ} {queue : List Byte} (h : n ≤ queue.length) :
    readHintBytes n queue = (queue.take n, queue.drop n) := by
  induction n generalizing queue with
  | zero => rfl
  | succ n ih =>
    obtain ⟨b, rest, rfl⟩ := List.exists_cons_of_length_pos (Nat.lt_of_lt_of_le n.succ_pos h)
    rw [readHintBytes, List.tail_cons, ih (Nat.le_of_succ_le_succ h)]
    rfl

/-- Three rounds of padding reach the next multiple of four. -/
theorem padLoop_eq (queue : List Byte) :
    padLoop 3 queue = queue ++ List.replicate ((4 - queue.length % 4) % 4) 0#8 := by
  have hcases : queue.length % 4 = 0 ∨ queue.length % 4 = 1 ∨ queue.length % 4 = 2 ∨
      queue.length % 4 = 3 := by omega
  rcases hcases with h | h | h | h <;> simp [padLoop, h, Nat.add_mod]

end IoState

/-- An entry and the zeros that fill its last word. -/
def padded4 (entry : List Byte) : List Byte :=
  entry ++ List.replicate ((4 - entry.length % 4) % 4) 0#8

theorem length_padded4 (entry : List Byte) :
    (padded4 entry).length = 4 * ((entry.length + 3) / 4) := by
  rw [padded4, List.length_append, List.length_replicate]
  omega

theorem streamBytes_eq (entry : List Byte) :
    streamBytes entry = LittleEndian.ofNat 4 entry.length ++ padded4 entry := by
  rw [streamBytes, IoState.padLoop_eq, List.length_append, LittleEndian.length_ofNat,
    Nat.add_mod_left, padded4, List.append_assoc]

/-! ### One instruction -/

/-- The words that read from the hint stream. -/
def IsHintRead (insn : Word) : Prop := IsHintStorew insn ∨ IsHintBuffer insn

instance (insn : Word) : Decidable (IsHintRead insn) := inferInstanceAs (Decidable (_ ∨ _))

theorem IsHintRead.isCustom {insn : Word} (h : IsHintRead insn) : IsCustom insn :=
  .inl (h.elim (fun h => h.1.1) fun h => h.1.1)

/-- The words that fill the hint stream or read from it. -/
def TouchesHint (insn : Word) : Prop := IsProducer insn ∨ IsHintStorew insn ∨ IsHintBuffer insn

instance (insn : Word) : Decidable (TouchesHint insn) := inferInstanceAs (Decidable (_ ∨ _))

section Instruction
variable {host : Host} {s s' : Machine}

/-- Every other word leaves both queues alone. -/
theorem iteration_quiet (h : Iteration (customOps host) s s') (hq : ¬TouchesHint s.cpu.fetch) :
    s'.handler.io.hintStream = s.handler.io.hintStream ∧
      s'.handler.io.inputStreams = s.handler.io.inputStreams := by
  obtain ⟨-, hh⟩ | ⟨-, s₁, he, rfl⟩ := iteration_effect h
  · rw [hh]
    exact ⟨rfl, rfl⟩
  · rw [handler_countStep, handler_advanced]
    obtain ⟨k, he⟩ : ∃ k, Effect host s.cpu.fetch s k s₁ := ⟨_, he⟩
    cases he with
    | deliver hk => exact absurd (.inr hk) hq
    | hintInput hk => exact absurd (.inl (.inl hk)) hq
    | replace hk => exact absurd (.inl (.inr (hk.elim .inl fun hk => .inr (.inl hk)))) hq
    | push hk => exact absurd (.inl (.inr (.inr (.inr hk)))) hq
    | reveal => exact ⟨rfl, rfl⟩
    | _ => simp

/-- HintInput takes the first stream. -/
theorem iteration_hintInput (h : Iteration (customOps host) s s') (hi : IsHintInput s.cpu.fetch) :
    ∃ entry rest, s.handler.io.inputStreams = entry :: rest ∧
      s'.handler.io.inputStreams = rest ∧ s'.handler.io.hintStream = streamBytes entry := by
  obtain ⟨hc, -⟩ | ⟨-, s₁, he, rfl⟩ := iteration_effect h
  · exact absurd (.inl hi.1.1) hc
  · rw [WordEffect, kindOf_hintInput _ hi] at he
    obtain _ | _ | _ | _ | _ | _ | _ | ⟨-, hio, hb⟩ := he
    rw [payload_hintInput host s hi hio] at hb
    refine ⟨_, _, hio, ?_, ?_⟩
    · rw [handler_countStep, handler_advanced, Sim.io_setIo]
    · rw [handler_countStep, handler_advanced, Sim.io_setIo, Option.some.inj hb]

/-- The bytes a hint read left at `[rd]`. -/
def obtained (s s' : Machine) : List Byte :=
  s'.cpu.mem.readVec (s.cpu.readReg (rd s.cpu.fetch)) (hintLength s.cpu.fetch s.cpu)

/-- A hint read takes as many bytes as it asks for, if they are there. -/
theorem iteration_deliver (h : Iteration (customOps host) s s')
    (hd : IsHintStorew s.cpu.fetch ∨ IsHintBuffer s.cpu.fetch)
    (hlen : hintLength s.cpu.fetch s.cpu ≤ s.handler.io.hintStream.length)
    (hwrap : hintLength s.cpu.fetch s.cpu ≤ 2 ^ 32) :
    obtained s s' = s.handler.io.hintStream.take (hintLength s.cpu.fetch s.cpu) ∧
      s'.handler.io.hintStream = s.handler.io.hintStream.drop (hintLength s.cpu.fetch s.cpu) ∧
      s'.handler.io.inputStreams = s.handler.io.inputStreams := by
  have hcustom : IsCustom s.cpu.fetch := IsHintRead.isCustom hd
  have hkind : kindOf s.handler s.cpu.fetch = .deliver :=
    hd.elim (kindOf_storew _) (kindOf_buffer _)
  obtain ⟨hc, -⟩ | ⟨-, s₁, he, rfl⟩ := iteration_effect h
  · exact absurd hcustom hc
  · rw [WordEffect, hkind] at he
    obtain _ | _ | _ | _ | _ | _ := he
    rw [IoState.readHintBytes_eq hlen, handler_countStep, handler_advanced, Sim.handler_store,
      Sim.io_setHint]
    refine ⟨?_, rfl, rfl⟩
    have hload := Flat.load_overlay s.cpu.mem.bytes (s.cpu.readReg (rd s.cpu.fetch))
      (s.handler.io.hintStream.take (hintLength s.cpu.fetch s.cpu))
      (by rw [List.length_take_of_le hlen]; exact hwrap)
    rw [List.length_take_of_le hlen] at hload
    rw [obtained, mem_countStep, mem_advanced, Sim.mem_store, Sim.cpu_setHint,
      Memory.readVec_eq_load, Memory.bytes_writeSlice]
    exact hload

end Instruction

/-! ### Reads -/

/-- The guest reads `n` words of the hint stream and obtains the bytes listed; words that do
not touch the hint stream may stand anywhere between. -/
inductive Reads (host : Host) : ℕ → Machine → List Byte → Machine → Prop where
  | done (s : Machine) : Reads host 0 s [] s
  | other {n : ℕ} {s s₁ s' : Machine} {bs : List Byte} (h : Iteration (customOps host) s s₁)
      (hq : ¬TouchesHint s.cpu.fetch) (hreads : Reads host n s₁ bs s') : Reads host n s bs s'
  | storew {n : ℕ} {s s₁ s' : Machine} {bs : List Byte} (h : Iteration (customOps host) s s₁)
      (hs : IsHintStorew s.cpu.fetch) (hreads : Reads host n s₁ bs s') :
      Reads host (1 + n) s (obtained s s₁ ++ bs) s'
  | buffer {n : ℕ} {s s₁ s' : Machine} {bs : List Byte} (h : Iteration (customOps host) s s₁)
      (hb : IsHintBuffer s.cpu.fetch) (hreads : Reads host n s₁ bs s') :
      Reads host ((s.cpu.readReg (rs1 s.cpu.fetch)).toNat + n) s (obtained s s₁ ++ bs) s'

theorem hintLength_storew {insn : Word} (h : IsHintStorew insn) (cpu : Cpu) :
    hintLength insn cpu = 4 * 1 := if_pos h.2

theorem hintLength_buffer {insn : Word} (h : IsHintBuffer insn) (cpu : Cpu) :
    hintLength insn cpu = 4 * (cpu.readReg (rs1 insn)).toNat := by
  have hne : imm12 insn ≠ HINT_STOREW_IMM := by
    rw [h.2]
    decide
  rw [hintLength, if_neg hne, mul_comm]

/-- One more read in front of others. -/
theorem reads_step {host : Host} {s s₁ s' : Machine} {bs : List Byte} {k n : ℕ}
    (h : Iteration (customOps host) s s₁)
    (hd : IsHintStorew s.cpu.fetch ∨ IsHintBuffer s.cpu.fetch)
    (hk : hintLength s.cpu.fetch s.cpu = 4 * k)
    (hlen : 4 * (k + n) ≤ s.handler.io.hintStream.length) (hwrap : 4 * (k + n) ≤ 2 ^ 32)
    (ih : 4 * n ≤ s₁.handler.io.hintStream.length →
      bs = s₁.handler.io.hintStream.take (4 * n) ∧
        s'.handler.io.hintStream = s₁.handler.io.hintStream.drop (4 * n) ∧
        s'.handler.io.inputStreams = s₁.handler.io.inputStreams) :
    obtained s s₁ ++ bs = s.handler.io.hintStream.take (4 * (k + n)) ∧
      s'.handler.io.hintStream = s.handler.io.hintStream.drop (4 * (k + n)) ∧
      s'.handler.io.inputStreams = s.handler.io.inputStreams := by
  rw [mul_add] at hlen hwrap ⊢
  obtain ⟨hob, hleft, hin⟩ := iteration_deliver h hd (by omega) (by omega)
  rw [hk] at hob hleft
  obtain ⟨hbs, hleft', hin'⟩ := ih (by rw [hleft, List.length_drop]; omega)
  refine ⟨?_, ?_, hin'.trans hin⟩
  · rw [hob, hbs, hleft, List.take_add]
  · rw [hleft', hleft, List.drop_drop]

/-- Reads of `n` words obtain the first `4 n` bytes of the stream in order, however they are
split, and leave the rest. -/
theorem reads_deliver {host : Host} {s s' : Machine} {bs : List Byte} {n : ℕ}
    (h : Reads host n s bs s') (hlen : 4 * n ≤ s.handler.io.hintStream.length)
    (hwrap : 4 * n ≤ 2 ^ 32) :
    bs = s.handler.io.hintStream.take (4 * n) ∧
      s'.handler.io.hintStream = s.handler.io.hintStream.drop (4 * n) ∧
      s'.handler.io.inputStreams = s.handler.io.inputStreams := by
  induction h with
  | done s => exact ⟨rfl, rfl, rfl⟩
  | other h hq _ ih =>
    obtain ⟨hhint, hin⟩ := iteration_quiet h hq
    rw [← hhint, ← hin]
    exact ih (by rwa [hhint]) hwrap
  | storew h hs _ ih =>
    exact reads_step h (.inl hs) (hintLength_storew hs _) hlen hwrap
      fun hl => ih hl (by omega)
  | buffer h hb _ ih =>
    exact reads_step h (.inr hb) (hintLength_buffer hb _) hlen hwrap
      fun hl => ih hl (by omega)

/-! ### Sessions -/

/-- What a guest obtained for one stream, and what was left unread behind it. -/
structure Delivery where
  length : List Byte
  body : List Byte
  left : List Byte

/-- The guest takes in one stream of `len` bytes. -/
inductive Round (host : Host) (len : ℕ) : Machine → Delivery → Machine → Prop where
  | intro {s a b c d s' : Machine} {bs : List Byte}
      (before : Reads host 0 s [] a)
      (input : Iteration (customOps host) a b) (hinput : IsHintInput a.cpu.fetch)
      (between : Reads host 0 b [] c)
      (length : Iteration (customOps host) c d) (hlength : IsHintStorew c.cpu.fetch)
      (body : Reads host ((len + 3) / 4) d bs s') :
      Round host len s ⟨obtained c d, bs, s'.handler.io.hintStream⟩ s'

/-- The guest takes in streams of the given lengths, one after the other. -/
inductive Session (host : Host) : List ℕ → Machine → List Delivery → Machine → Prop where
  | done {s s' : Machine} (after : Reads host 0 s [] s') : Session host [] s [] s'
  | round {len : ℕ} {lens : List ℕ} {s s₁ s' : Machine} {d : Delivery} {ds : List Delivery}
      (hround : Round host len s d s₁) (hrest : Session host lens s₁ ds s') :
      Session host (len :: lens) s (d :: ds) s'

/-- A stream as it should be delivered. -/
def delivery (entry : List Byte) : Delivery := ⟨LittleEndian.ofNat 4 entry.length, padded4 entry, []⟩

theorem reads_none {host : Host} {s s' : Machine} {bs : List Byte} (h : Reads host 0 s bs s') :
    s'.handler.io.hintStream = s.handler.io.hintStream ∧
      s'.handler.io.inputStreams = s.handler.io.inputStreams :=
  (reads_deliver h (Nat.zero_le _) (Nat.zero_le _)).2

theorem round_delivers {host : Host} {s s' : Machine} {entry : List Byte} {d : Delivery}
    {rest : List (List Byte)} (h : Round host entry.length s d s') (hlen : entry.length < 2 ^ 32)
    (hin : s.handler.io.inputStreams = entry :: rest) :
    d = delivery entry ∧ s'.handler.io.inputStreams = rest := by
  cases h with
  | @intro _ b c e _ bs before input hinput between length hlength body =>
  obtain ⟨entry', rest', hio, hrest, hhint⟩ := iteration_hintInput input hinput
  rw [(reads_none before).2, hin] at hio
  obtain ⟨rfl, rfl⟩ := List.cons.inj hio
  -- the stream as HintInput left it, when its length is read
  have hc : c.handler.io.hintStream = LittleEndian.ofNat 4 entry.length ++ padded4 entry := by
    rw [(reads_none between).1, hhint, streamBytes_eq]
  have hfour : (LittleEndian.ofNat 4 entry.length).length = 4 := LittleEndian.length_ofNat _ _
  have hstorew : hintLength c.cpu.fetch c.cpu = 4 := hintLength_storew hlength _
  obtain ⟨hob, hleft, hin'⟩ := iteration_deliver length (.inl hlength)
    (by rw [hstorew, hc, List.length_append, hfour]; exact Nat.le_add_right _ _)
    (by rw [hstorew]; decide)
  rw [hstorew, hc] at hob hleft
  rw [List.take_left' hfour] at hob
  rw [List.drop_left' hfour] at hleft
  -- the words of the body are exactly what is there
  have hbody : e.handler.io.hintStream.length = 4 * ((entry.length + 3) / 4) := by
    rw [hleft, length_padded4]
  obtain ⟨hbs, hend, hin''⟩ := reads_deliver body (Nat.le_of_eq hbody.symm) (by omega)
  rw [← hbody, List.take_length, hleft] at hbs
  rw [← hbody, List.drop_length] at hend
  refine ⟨?_, ?_⟩
  · rw [hob, hbs, hend, delivery]
  · rw [hin'', hin', (reads_none between).2, hrest]

/-- HintInput without a stream left is an error. -/
theorem step_hintInput_end {host : Host} {s : Machine} (hi : IsHintInput s.cpu.fetch)
    (hin : s.handler.io.inputStreams = []) :
    (Cpu.step (customOps host)).run s =
      .error (.err (.customOp (hintInputError s.cpu.pc "EndOfInputStream"))) s := by
  have hphantom : (handlePhantom s.cpu.fetch).run s =
      .error (.err (.customOp (hintInputError s.cpu.pc "EndOfInputStream"))) s := by
    show (if imm12 s.cpu.fetch = PHANTOM_HINT_INPUT then _ else _ : HandlerM Unit).run s = _
    rw [if_pos hi.2, IoState.hintInput, hin]
    rfl
  have hdispatch : (dispatch host s.cpu.fetch).run s =
      .error (.err (.customOp (hintInputError s.cpu.pc "EndOfInputStream"))) s := by
    show (if opcode s.cpu.fetch = OPCODE_CUSTOM_0 then
      handleCustom0 host s.cpu.fetch (funct3 s.cpu.fetch) else _ : HandlerM StepOutcome).run s = _
    rw [if_pos hi.1.1, hi.1.2]
    show (handlePhantom s.cpu.fetch >>= _ : HandlerM StepOutcome).run s = _
    rw [EStateM.run_bind, hphantom]
  rw [step_custom _ (.inl hi.1.1)]
  show (dispatch host s.cpu.fetch >>= _ : HandlerM StepOutcome).run s = _
  rw [EStateM.run_bind, hdispatch]

/-- **A guest that takes in its input streams obtains each of them in order: the length
as a little-endian word, then exactly its bytes and fewer than four zeros, with nothing
left behind.** The streams after them stay where they are, and a HintInput after the last
stream is an error. -/
theorem session_delivers (host : Host) (streams rest : List (List Byte)) (s s' : Machine)
    (ds : List Delivery) (hlen : ∀ entry ∈ streams, entry.length < 2 ^ 32)
    (hin : s.handler.io.inputStreams = streams ++ rest)
    (h : Session host (streams.map List.length) s ds s') :
    ds = streams.map delivery ∧ s'.handler.io.inputStreams = rest ∧
      (rest = [] → IsHintInput s'.cpu.fetch →
        (Cpu.step (customOps host)).run s' =
          .error (.err (.customOp (hintInputError s'.cpu.pc "EndOfInputStream"))) s') := by
  induction streams generalizing s ds with
  | nil =>
    obtain ⟨after⟩ | _ := h
    have hrest : s'.handler.io.inputStreams = rest := (reads_none after).2.trans hin
    refine ⟨rfl, hrest, fun hnil hi => step_hintInput_end hi ?_⟩
    rw [hrest, hnil]
  | cons entry streams ih =>
    obtain _ | ⟨hround, hsession⟩ := h
    obtain ⟨rfl, hin'⟩ := round_delivers hround (hlen entry List.mem_cons_self) hin
    obtain ⟨rfl, hrest⟩ := ih _ _ (fun e he => hlen e (List.mem_cons_of_mem _ he)) hin' hsession
    exact ⟨rfl, hrest⟩

/-! ### A session -/

/-- HINT_STOREW to address zero. -/
def storewWord : Word := F3_HINT <<< 12 ||| OPCODE_CUSTOM_0

/-- HINT_BUFFER of `x1` words to address zero. -/
def bufferWord : Word := HINT_BUFFER_IMM <<< 20 ||| 1#32 <<< 15 ||| F3_HINT <<< 12 ||| OPCODE_CUSTOM_0

/-- `addi x1, x0, 1` -/
def oneWord : Word := 0x00100093#32

/-- A guest that takes in one stream of five bytes, as a word and a buffer of one word. -/
def reader : Machine :=
  Sim.loaded [hintInputWord, oneWord, storewWord, storewWord, bufferWord, hintInputWord]
    [[7#8, 8#8, 9#8, 10#8, 11#8]]

/-- The reader after `n` steps. -/
def readerAfter : ℕ → Machine := reader.after (customOps Host.constant)

theorem reader_iteration (n : ℕ)
    (h : ((readerAfter n).next (customOps Host.constant)).isSome := by decide +kernel) :
    Iteration (customOps Host.constant) (readerAfter n) (readerAfter (n + 1)) :=
  iteration_after h

theorem session_delivers_reader :
    ∃ ds s', Session Host.constant [5] reader ds s' ∧
      ds = [delivery [7#8, 8#8, 9#8, 10#8, 11#8]] ∧ s'.handler.io.inputStreams = [] ∧
      IsHintInput s'.cpu.fetch ∧
        (Cpu.step (customOps Host.constant)).run s' =
          .error (.err (.customOp (hintInputError s'.cpu.pc "EndOfInputStream"))) s' := by
  have hone : ((readerAfter 4).cpu.readReg (rs1 (readerAfter 4).cpu.fetch)).toNat = 1 := by
    decide +kernel
  have hbuffer := Reads.buffer (reader_iteration 4) (by decide +kernel) (.done (readerAfter 5))
  rw [hone] at hbuffer
  have hround : Round Host.constant 5 reader _ (readerAfter 5) :=
    .intro (.done reader) (reader_iteration 0) (by decide +kernel)
      (.other (reader_iteration 1) (by decide +kernel) (.done (readerAfter 2)))
      (reader_iteration 2) (by decide +kernel)
      (.storew (reader_iteration 3) (by decide +kernel) hbuffer)
  have hsession := Session.round hround (.done (.done (readerAfter 5)))
  have hend : IsHintInput (readerAfter 5).cpu.fetch := by decide +kernel
  obtain ⟨hds, hin, herr⟩ := session_delivers Host.constant [[7#8, 8#8, 9#8, 10#8, 11#8]] [] reader
    (readerAfter 5) _ (by decide) rfl hsession
  exact ⟨_, _, hsession, hds, hin, hend, herr rfl hend⟩

end OpenvmSim.Precompiles
