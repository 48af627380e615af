import OpenvmSim.Precompiles.HintReads

/-! The hint stream is made of whole words.

Every hint producer queues a multiple of four bytes, given tables whose elements are as wide,
and every hint read takes one. So the length of the hint stream is a multiple of four in every
reachable state, and no word that the guest reads is cut by the end of the stream. -/
namespace OpenvmSim.Precompiles
open Rv32im

/-! ### Payloads -/

theorem length_streamBytes (entry : List Byte) : (streamBytes entry).length % 4 = 0 := by
  rw [streamBytes_eq, List.length_append, LittleEndian.length_ofNat, length_padded4]
  omega

theorem length_sqrtBytes (n : ℕ) (r : Bool × ℕ) : (sqrtBytes n r).length = 4 + n := by
  rw [sqrtBytes, List.length_append, BigUint.length_bytesLe]
  rfl

theorem length_modularPayload {host : Host} {entry : ModulusEntry} {op : Word} {x : ℕ}
    {bs : List Byte} (h : modularPayload host entry op x = .ok bs) (hw : entry.limbBytes % 4 = 0) :
    bs.length % 4 = 0 := by
  obtain ⟨z, -, h⟩ := calc_bind_ok h
  split at h
  · cases h
    rwa [BigUint.length_bytesLe]
  · obtain ⟨r, -, h⟩ := calc_bind_ok h
    cases h
    rw [length_sqrtBytes, Nat.add_mod_left]
    exact hw

/-- Both pairings deliver two elements, for no points the ones. -/
theorem length_finalExpPayload {F G H : Type} {enc : F → List Byte} {c : Prop} [Decidable c] {one : F}
    {x : Calc G} {y : Calc H} {z : G → H → Calc (F × F)} {bs : List Byte}
    (henc : ∀ f, (enc f).length % 4 = 0)
    (h : (if c then pure (enc one ++ enc one)
      else do
        let g ← x
        let h ← y
        let r ← z g h
        pure (enc r.1 ++ enc r.2)) = .ok bs) : bs.length % 4 = 0 := by
  have hlen : ∀ f f', (enc f ++ enc f').length % 4 = 0 := by
    intro f f'
    rw [List.length_append, Nat.add_mod, henc, henc]
  split at h
  · cases h
    exact hlen _ _
  · obtain ⟨g1, -, h⟩ := calc_bind_ok h
    obtain ⟨g2, -, h⟩ := calc_bind_ok h
    obtain ⟨r, -, h⟩ := calc_bind_ok h
    cases h
    exact hlen _ _

theorem length_bn254_hintPayload {host : Host} {mem : Memory} {d : Descriptors} {bs : List Byte}
    (h : Bn254.hintPayload host mem d = .ok bs) : bs.length % 4 = 0 := by
  refine length_finalExpPayload (fun f => ?_) h
  rw [Bn254.fq12ToOpenvmBytes, Ark.length_fq12ToBytes]

theorem length_bls12381_hintPayload {host : Host} {mem : Memory} {d : Descriptors} {bs : List Byte}
    (h : Bls12381.hintPayload host mem d = .ok bs) : bs.length % 4 = 0 := by
  refine length_finalExpPayload (fun f => ?_) h
  rw [Bls12381.fq12ToOpenvmBytes, Ark.length_fq12ToBytes]

theorem toOption_ok {α : Type} {x : Calc α} {a : α} (h : x.toOption = some a) : x = .ok a := by
  cases x with
  | ok b => exact congrArg _ (Option.some.inj h)
  | error e => cases h

theorem length_pairingPayload {host : Host} {name : String} {mem : Memory} {d : Descriptors}
    {bs : List Byte} (h : pairingPayload host name mem d = some bs) : bs.length % 4 = 0 := by
  unfold pairingPayload at h
  split at h
  · exact length_bn254_hintPayload (toOption_ok h)
  · split at h
    · exact length_bls12381_hintPayload (toOption_ok h)
    · cases h

/-! ### The invariant -/

/-- The hint stream is made of words, and so are the elements of the modular table. -/
structure HintAligned (h : PrecompileHandler) : Prop where
  queue : h.io.hintStream.length % 4 = 0
  moduli : ∀ entry ∈ h.moduli, entry.limbBytes % 4 = 0

/-- What a hint producer delivers is made of words. -/
theorem HintAligned.payload {host : Host} {insn : Word} {s : Machine} {bs : List Byte}
    (h : HintAligned s.handler) (hp : payload host insn s = some bs) : bs.length % 4 = 0 := by
  unfold Precompiles.payload at hp
  split at hp
  · obtain ⟨entry, -, rfl⟩ := Option.map_eq_some_iff.mp hp
    exact length_streamBytes entry
  · obtain ⟨entry, he, hb⟩ := Option.bind_eq_some_iff.mp hp
    exact length_modularPayload (toOption_ok hb) (h.moduli entry (List.mem_of_getElem? he))
  · exact length_pairingPayload hp
  · cases hp

/-- A hint read asks for words. -/
theorem hintLength_mod (insn : Word) (cpu : Cpu) : hintLength insn cpu % 4 = 0 := by
  unfold hintLength
  split
  · rfl
  · exact Nat.mul_mod_left _ 4

/-- One lemma for each kind of effect: what it leaves in the hint stream is made of words. -/
theorem HintAligned.effect {host : Host} {insn : Word} {s s' : Machine} {k : Kind}
    (h : HintAligned s.handler) (he : Effect host insn s k s') : HintAligned s'.handler := by
  have hset : ∀ (ins out bs : List _), bs.length % 4 = 0 →
      HintAligned { s.handler with io := ⟨ins, bs, out⟩ } := fun _ _ _ hb => ⟨hb, h.moduli⟩
  cases he with
  | deliver hk =>
    rw [IoState.readHintBytes_padded]
    refine hset _ _ _ ?_
    have hq := h.queue
    have hn := hintLength_mod insn s.cpu
    rw [List.length_drop]
    omega
  | reveal hk => exact ⟨h.queue, h.moduli⟩
  | hintInput hk hio hp => exact hset _ _ _ (h.payload hp)
  | replace hk hp => exact hset _ _ _ (h.payload hp)
  | push hk hp =>
    refine hset _ _ _ ?_
    rw [List.length_append, Nat.add_mod, h.queue, h.payload hp]
  | _ => exact ⟨h.queue, h.moduli⟩

/-- A step that returns leaves words, and one that fails leaves everything. -/
theorem HintAligned.step {host : Host} {s : Machine} (h : HintAligned s.handler) :
    HintAligned (stateAfter ((Cpu.step (customOps host)).run s)).handler := by
  cases hr : (Cpu.step (customOps host)).run s with
  | error e t =>
    rw [stateAfter_error, ((customOps_careful host).step s).of_error hr]
    exact h
  | ok o t =>
    rw [stateAfter_ok]
    by_cases hc : IsCustom s.cpu.fetch
    · rw [step_custom _ hc] at hr
      obtain _ | ⟨-, he⟩ := (handle_atomic host s s.cpu.fetch).of_ok hr
      · exact h
      · rw [handler_advanced]
        exact h.effect he
    · rw [step_plain_handler hc hr]
      exact h

/-! ### Reachable states -/

/-- The states that steps lead to, those that fail and those that terminate included. The loop
of `Cpu.run` counts its steps in between. -/
inductive Reachable (host : Host) (s : Machine) : Machine → Prop where
  | start : Reachable host s s
  | step {t : Machine} (h : Reachable host s t) :
      Reachable host s (stateAfter ((Cpu.step (customOps host)).run t))
  | count {t : Machine} (h : Reachable host s t) : Reachable host s t.countStep

theorem reachable_of_run {host : Host} {s₀ s t : Machine} {trace : List Machine}
    (h : Run (customOps host) s trace t) (hs : Reachable host s₀ s) : Reachable host s₀ t := by
  refine h.induct (fun u v hit hu => ?_) hs
  obtain ⟨w, hw, rfl⟩ := iteration_iff.mp hit
  have hstep := hu.step
  rw [hw] at hstep
  exact hstep.count

theorem HintAligned.reachable {host : Host} {s t : Machine} (h : HintAligned s.handler)
    (ht : Reachable host s t) : HintAligned t.handler := by
  induction ht with
  | start => exact h
  | step _ ih => exact ih.step
  | count _ ih => exact ih

/-- The handler with the default tables, on one input or on any streams. -/
def Fresh (h : PrecompileHandler) : Prop :=
  (∃ input, h = PrecompileHandler.new input) ∨
    ∃ streams, h = { PrecompileHandler.new [] with io := IoState.withInputStreams streams }

theorem Fresh.aligned {h : PrecompileHandler} (hf : Fresh h) : HintAligned h := by
  have hwords : ∀ entry ∈ defaultModuli, entry.limbBytes % 4 = 0 := by decide
  obtain ⟨input, rfl⟩ | ⟨streams, rfl⟩ := hf
  · exact ⟨rfl, hwords⟩
  · exact ⟨rfl, hwords⟩

/-! ### Words -/

/-- The word `j` that a hint read delivers. -/
def queuedWord (queue : List Byte) (j : ℕ) : List Byte :=
  (IoState.readHintBytes 4 (queue.drop (4 * j))).1

theorem readHintBytes_words (n : ℕ) (queue : List Byte) :
    (IoState.readHintBytes (4 * n) queue).1 = (List.range n).flatMap (queuedWord queue) := by
  induction n with
  | zero => rfl
  | succ n ih =>
    rw [Nat.mul_succ, IoState.readHintBytes_add, ih, IoState.readHintBytes_padded (4 * n),
      List.range_succ, List.flatMap_append, List.flatMap_singleton]
    rfl

/-- Four bytes of the queue, or four zeros behind it. -/
def WholeWord (queue : List Byte) (j : ℕ) (word : List Byte) : Prop :=
  (4 * j + 4 ≤ queue.length ∧ word = (queue.drop (4 * j)).take 4) ∨
    (queue.length ≤ 4 * j ∧ word = List.replicate 4 0#8)

theorem wholeWord_queuedWord {queue : List Byte} (h : queue.length % 4 = 0) (j : ℕ) :
    WholeWord queue j (queuedWord queue j) := by
  have hlen := List.length_drop (i := 4 * j) (l := queue)
  rw [queuedWord, IoState.readHintBytes_padded]
  obtain hle | hlt := Nat.lt_or_ge (4 * j) queue.length
  · have hfour : 4 - (queue.drop (4 * j)).length = 0 := by omega
    refine .inl ⟨by omega, ?_⟩
    rw [hfour, List.replicate_zero, List.append_nil]
  · refine .inr ⟨hlt, ?_⟩
    rw [List.drop_eq_nil_of_le hlt]
    rfl

/-- **From a fresh handler with the default tables, the length of the hint stream is a multiple
of four in every reachable state, and every word that a hint read delivers there consists of
four queued bytes or of none.** -/
theorem hint_alignment (host : Host) {s t : Machine} (hf : Fresh s.handler)
    (ht : Reachable host s t) :
    t.handler.io.hintStream.length % 4 = 0 ∧
      (IsHintRead t.cpu.fetch → ∃ n t', hintLength t.cpu.fetch t.cpu = 4 * n ∧
        (Cpu.step (customOps host)).run t = .ok .continue t' ∧
        t'.cpu.mem = t.cpu.mem.writeSlice (t.cpu.readReg (rd t.cpu.fetch))
          ((List.range n).flatMap (queuedWord t.handler.io.hintStream)) ∧
        t'.handler.io.hintStream = t.handler.io.hintStream.drop (4 * n) ∧
        ∀ j, WholeWord t.handler.io.hintStream j (queuedWord t.handler.io.hintStream j)) := by
  have hqueue := (hf.aligned.reachable ht).queue
  refine ⟨hqueue, fun hread => ?_⟩
  obtain ⟨n, hn⟩ := Nat.dvd_of_mod_eq_zero (hintLength_mod t.cpu.fetch t.cpu)
  have hstep : (Cpu.step (customOps host)).run t = _ := hintRead_step hread
  rw [hn] at hstep
  refine ⟨n, _, hn, hstep, ?_, ?_, wholeWord_queuedWord hqueue⟩
  · rw [mem_advanced, afterRead, Sim.mem_store, Sim.cpu_setHint, readHintBytes_words]
  · rw [handler_advanced, afterRead, Sim.handler_store, Sim.io_setHint,
      IoState.readHintBytes_padded]

/-- The reader is about to take in the length of its stream. -/
theorem hint_alignment_reader : (readerAfter 2).handler.io.hintStream.length % 4 = 0 ∧
    ∃ t', (Cpu.step (customOps Host.constant)).run (readerAfter 2) = .ok .continue t' ∧
      t'.handler.io.hintStream = (readerAfter 2).handler.io.hintStream.drop 4 := by
  have hrun : Run (customOps Host.constant) reader [reader, readerAfter 1] (readerAfter 2) :=
    .next (reader_iteration 0) (.next (reader_iteration 1) (.done _))
  have hread : IsHintStorew (readerAfter 2).cpu.fetch := by decide +kernel
  have hfresh : Fresh reader.handler := .inr ⟨[[7#8, 8#8, 9#8, 10#8, 11#8]], rfl⟩
  obtain ⟨hqueue, hwords⟩ := hint_alignment Host.constant hfresh (reachable_of_run hrun .start)
  obtain ⟨n, t', hn, hstep, -, hleft, -⟩ := hwords (.inl hread)
  obtain rfl : n = 1 := by
    rw [hintLength_storew hread] at hn
    omega
  exact ⟨hqueue, t', hstep, hleft⟩

end OpenvmSim.Precompiles
