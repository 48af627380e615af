import OpenvmSim.Precompiles.InputDelivery
import OpenvmSim.Precompiles.Outcomes

/-! What a hint read does.

HINT_STOREW and HINT_BUFFER never fail: what the hint stream does not have they fill up with
zeros. A buffer takes all its bytes and then writes them, word after word takes and writes four
at a time, and both come to the same (`bulk_scalar`). -/
namespace OpenvmSim.Precompiles
open Rv32im

namespace IoState

/-- The bytes that are there, and zeros for the others. -/
theorem readHintBytes_padded (n : ℕ) (queue : List Byte) :
    readHintBytes n queue =
      (queue.take n ++ List.replicate (n - queue.length) 0#8, queue.drop n) := by
  induction n generalizing queue with
  | zero => rw [Nat.zero_sub, List.replicate_zero, List.append_nil]; rfl
  | succ n ih =>
    cases queue with
    | nil =>
      rw [readHintBytes, List.tail_nil, ih, List.take_nil, List.take_nil, List.length_nil,
        Nat.sub_zero, Nat.sub_zero, List.replicate_succ, List.drop_nil, List.drop_nil]
      rfl
    | cons b queue =>
      rw [readHintBytes, List.tail_cons, ih, List.length_cons, Nat.add_sub_add_right]
      rfl

theorem length_readHintBytes (n : ℕ) (queue : List Byte) : (readHintBytes n queue).1.length = n := by
  rw [readHintBytes_padded, List.length_append, List.length_take, List.length_replicate]
  omega

/-- Reading `m + n` bytes is reading `m` and then `n`. -/
theorem readHintBytes_add (m n : ℕ) (queue : List Byte) :
    readHintBytes (m + n) queue =
      ((readHintBytes m queue).1 ++ (readHintBytes n (readHintBytes m queue).2).1,
        (readHintBytes n (readHintBytes m queue).2).2) := by
  induction m generalizing queue with
  | zero => rw [Nat.zero_add]; rfl
  | succ m ih =>
    rw [Nat.add_right_comm, readHintBytes, ih]
    rfl

end IoState

/-- The machine after `n` hint bytes went to `ptr`. -/
def afterRead (s : Machine) (ptr : Word) (n : ℕ) : Machine :=
  (s.setHint (IoState.readHintBytes n s.handler.io.hintStream).2).store ptr
    (IoState.readHintBytes n s.handler.io.hintStream).1

/-- A hint read returns, whatever the hint stream holds. -/
theorem hintRead_run {host : Host} {insn : Word} (h : IsHintRead insn) (s : Machine) :
    (handle host insn).run s = .ok .continue (advanced s.cpu.pc
      (afterRead s (s.cpu.readReg (rd insn)) (hintLength insn s.cpu))) := by
  refine handle_run_ok (calls_hint (h.elim And.left And.left)) ?_
  show (if imm12 insn = HINT_STOREW_IMM then _ else if imm12 insn = HINT_BUFFER_IMM then _
    else _ : HandlerM Unit).run s = _
  obtain h | h := h
  · rw [if_pos h.2, hintLength, if_pos h.2]
    exact deliverHint_run s _ _
  · have hne : imm12 insn ≠ HINT_STOREW_IMM := by
      rw [h.2]
      decide
    rw [if_neg hne, if_pos h.2, hintLength, if_neg hne]
    exact deliverHint_run s _ _

theorem hintRead_step {host : Host} {s : Machine} (h : IsHintRead s.cpu.fetch) :
    (Cpu.step (customOps host)).run s = .ok .continue (advanced s.cpu.pc
      (afterRead s (s.cpu.readReg (rd s.cpu.fetch)) (hintLength s.cpu.fetch s.cpu))) := by
  rw [step_custom _ h.isCustom]
  exact hintRead_run h s

/-! ### Bulk and scalar -/

/-- The machines agree but for their registers and program counters. -/
def SameStore (s t : Machine) : Prop := t.cpu.mem = s.cpu.mem ∧ t.handler = s.handler

section SameStore
variable {s t u : Machine}

theorem SameStore.trans (h : SameStore s t) (h' : SameStore t u) : SameStore s u :=
  ⟨h'.1.trans h.1, h'.2.trans h.2⟩

theorem sameStore_advanced (pc : Word) (s : Machine) : SameStore s (advanced pc s) :=
  ⟨mem_advanced pc s, handler_advanced pc s⟩

theorem SameStore.afterRead (h : SameStore s t) (ptr : Word) (n : ℕ) :
    SameStore (afterRead s ptr n) (afterRead t ptr n) := by
  refine ⟨?_, ?_⟩
  · show t.cpu.mem.writeSlice _ _ = s.cpu.mem.writeSlice _ _
    rw [h.1, h.2]
  · show (t.setHint _).handler = (s.setHint _).handler
    rw [h.2, Sim.setHint, Sim.setIo, h.2]
    rfl

end SameStore

/-- A read of `m + n` bytes is one of `m` bytes and one of `n` bytes behind them. -/
theorem afterRead_add (s : Machine) (ptr : Word) (m n : ℕ) :
    afterRead s ptr (m + n) = afterRead (afterRead s ptr m) (ptr + BitVec.ofNat 32 m) n := by
  have hlen := IoState.length_readHintBytes m s.handler.io.hintStream
  rw [afterRead, IoState.readHintBytes_add, Sim.store_eq, Sim.cpu_setHint,
    Memory.writeSlice_append, hlen]
  rfl

/-- HINT_STOREW `n` times, to `d`, `d + 4` and so on. Before each word the guest may load its
registers and jump as it likes. -/
inductive StoreWords (host : Host) : Word → ℕ → Machine → Machine → Prop where
  | done (d : Word) (s : Machine) : StoreWords host d 0 s s
  | word {insn d : Word} {n : ℕ} {s s₁ s₂ s' : Machine} (hload : SameStore s s₁)
      (hs : IsHintStorew insn) (hd : s₁.cpu.readReg (rd insn) = d)
      (hrun : (handle host insn).run s₁ = .ok .continue s₂)
      (hrest : StoreWords host (d + 4#32) n s₂ s') : StoreWords host d (n + 1) s s'

/-- Word by word the guest obtains what one read of all words writes. -/
theorem StoreWords.sameStore {host : Host} {d : Word} {n : ℕ} {s s' : Machine}
    (h : StoreWords host d n s s') : SameStore (afterRead s d (4 * n)) s' := by
  induction h with
  | done d s => exact ⟨rfl, rfl⟩
  | @word insn d n s s₁ s₂ s' hload hs hd hrun hrest ih =>
    have hword : SameStore (afterRead s d 4) s₂ := by
      rw [hintRead_run (.inl hs), hd, hintLength_storew hs] at hrun
      cases hrun
      exact (hload.afterRead d 4).trans (sameStore_advanced _ _)
    rw [Nat.mul_succ, Nat.add_comm, afterRead_add]
    exact (hword.afterRead _ _).trans ih

/-- HINT_STOREW to the address in `x1`. -/
def storewX1 : Word := 1#32 <<< 7 ||| F3_HINT <<< 12 ||| OPCODE_CUSTOM_0

/-- Words can always be stored one by one. -/
theorem exists_storeWords (host : Host) (d : Word) (n : ℕ) (s : Machine) :
    ∃ s', StoreWords host d n s s' := by
  induction n generalizing d s with
  | zero => exact ⟨s, .done d s⟩
  | succ n ih =>
    have hs : IsHintStorew storewX1 := by decide
    have hd : (s.setReg 1#5 d).cpu.readReg (rd storewX1) = d :=
      Cpu.readReg_writeReg_self _ _ _ (by decide)
    have hload : SameStore s (s.setReg 1#5 d) := ⟨Cpu.mem_writeReg _ _ _, rfl⟩
    obtain ⟨s', hrest⟩ := ih (d + 4#32) _
    exact ⟨s', .word hload hs hd (hintRead_run (.inl hs) _) hrest⟩

/-- **One HINT_BUFFER of `n` words leaves the same memory, hint stream, input streams and output
as `n` HINT_STOREW to consecutive addresses, for all addresses and whatever is in the
stream.** Both always return. -/
theorem bulk_scalar (host : Host) (insn : Word) (s : Machine) (hb : IsHintBuffer insn) :
    ∃ t, (handle host insn).run s = .ok .continue t ∧
      (∃ t', StoreWords host (s.cpu.readReg (rd insn)) (s.cpu.readReg (rs1 insn)).toNat s t') ∧
      ∀ t', StoreWords host (s.cpu.readReg (rd insn)) (s.cpu.readReg (rs1 insn)).toNat s t' →
        t'.cpu.mem = t.cpu.mem ∧ t'.handler.io = t.handler.io ∧ t'.handler = t.handler := by
  refine ⟨_, hintRead_run (.inr hb) s, exists_storeWords _ _ _ _, fun t' hwords => ?_⟩
  have hsame := hwords.sameStore
  rw [← hintLength_buffer hb] at hsame
  rw [mem_advanced, handler_advanced]
  exact ⟨hsame.1, congrArg PrecompileHandler.io hsame.2, hsame.2⟩

/-- A machine with five bytes to read, and two words to ask for. -/
def fiveQueued : Machine := (Sim.blank.setReg 1#5 2#32).setHint [1#8, 2#8, 3#8, 4#8, 5#8]

/-- A buffer of two words to address zero, from a stream of five bytes. -/
theorem bulk_scalar_short :
    ∃ t t', (handle Host.constant bufferWord).run fiveQueued = .ok .continue t ∧
      StoreWords Host.constant 0#32 2 fiveQueued t' ∧ t'.cpu.mem = t.cpu.mem ∧
      t'.handler = t.handler ∧ t'.handler.io.hintStream = [] ∧
      t'.cpu.mem.readVec 0#32 8 = [1#8, 2#8, 3#8, 4#8, 5#8, 0#8, 0#8, 0#8] := by
  have hb : IsHintBuffer bufferWord := by decide
  obtain ⟨t, hrun, ⟨t', hwords⟩, hall⟩ := bulk_scalar Host.constant bufferWord fiveQueued hb
  obtain ⟨hmem, -, hhandler⟩ := hall t' hwords
  refine ⟨t, t', hrun, hwords, hmem, hhandler, ?_⟩
  rw [hmem, hhandler]
  cases (hintRead_run (.inr hb) fiveQueued).symm.trans hrun
  decide +kernel

end OpenvmSim.Precompiles
