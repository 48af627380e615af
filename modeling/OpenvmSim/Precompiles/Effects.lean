import OpenvmSim.Precompiles.Operations

/-! What a custom instruction can do.

`Effect host insn s s'` lists, kind by kind, the state a successful handler leaves;
`HandleEffect` adds the dispatcher's outcome and program counter. `handle_atomic` is
the one fact everything after it rests on: a call of `handle` has one of these
effects, or it stops and leaves the state as it was. -/
namespace OpenvmSim.Precompiles
open Rv32im

/-! ### Payloads of the hint producers -/

/-- The hint bytes of a BN254 final exponentiation over the described points. -/
def Bn254.hintPayload (host : Host) (mem : Memory) (d : Descriptors) : Calc (List Byte) :=
  if d.pLen = 0#32 then pure (fq12ToOpenvmBytes 1 ++ fq12ToOpenvmBytes 1)
  else do
    let g1Pts ← readPoints d.pLen (readG1 host mem d.pPtr)
    let g2Pts ← readPoints d.qLen (readG2 host mem d.qPtr)
    let r ← finalExpHint host (host.bn254MillerLoop g1Pts g2Pts)
    pure (fq12ToOpenvmBytes r.1 ++ fq12ToOpenvmBytes r.2)

/-- The hint bytes of a BLS12-381 final exponentiation over the described points. -/
def Bls12381.hintPayload (host : Host) (mem : Memory) (d : Descriptors) : Calc (List Byte) :=
  if d.pLen = 0#32 then pure (fq12ToOpenvmBytes 1 ++ fq12ToOpenvmBytes 1)
  else do
    let g1Pts ← readPoints d.pLen (readG1 host mem d.pPtr)
    let g2Pts ← readPoints d.qLen (readG2 host mem d.qPtr)
    let r ← finalExpHint (host.bls12381MillerLoop g1Pts g2Pts)
    pure (fq12ToOpenvmBytes r.1 ++ fq12ToOpenvmBytes r.2)

/-- The descriptors a pairing word points at. -/
def descriptors (insn : Word) (cpu : Cpu) : Descriptors :=
  readDescriptors cpu.mem (cpu.readReg (rs1 insn)) (cpu.readReg (rs2 insn))

/-- The name of the pairing a word selects. -/
def pairingName (h : PrecompileHandler) (insn : Word) : String :=
  h.pairings[(funct7 insn / PAIRING_MAX_KINDS).toNat]?.getD "<out-of-range>"

/-- The hint bytes of the pairing with the given name. -/
def pairingPayload (host : Host) (name : String) (mem : Memory) (d : Descriptors) :
    Option (List Byte) :=
  if name = "bn254" then (Bn254.hintPayload host mem d).toOption
  else if name = "bls12_381" then (Bls12381.hintPayload host mem d).toOption
  else none

/-- The hint bytes of HintSqrt: a four-byte flag and the root. -/
def sqrtBytes (n : ℕ) (r : Bool × ℕ) : List Byte :=
  (BitVec.ofBool r.1).setWidth 8 :: List.replicate 3 0#8 ++ BigUint.bytesLe r.2 n

/-- The hint bytes of a modular hint about the operand `x`. -/
def modularPayload (host : Host) (entry : ModulusEntry) (op : Word) (x : ℕ) : Calc (List Byte) := do
  let z ← findNonQrOpenvm host entry.modulus
  if op = MOD_HINT_NON_QR then pure (BigUint.bytesLe z entry.limbBytes)
  else do
    let r ← hintSqrtOf x entry.modulus z
    pure (sqrtBytes entry.limbBytes r)

/-- The hint bytes of an input stream. -/
def streamBytes (entry : List Byte) : List Byte :=
  IoState.padLoop 3 (LittleEndian.ofNat 4 entry.length ++ entry)

/-- What a hint producer has to deliver, if it succeeds. Nothing here looks at the hint
stream. -/
def payload (host : Host) (insn : Word) (s : Machine) : Option (List Byte) :=
  match kindOf s.handler insn with
  | .hintInput => s.handler.io.inputStreams.head?.map streamBytes
  | .replace => s.handler.moduli[tableIdx insn]?.bind fun entry =>
      (modularPayload host entry (tableOp insn)
        (readLe s.cpu.mem (s.cpu.readReg (rs1 insn)) entry.limbBytes)).toOption
  | .push => pairingPayload host (pairingName s.handler insn) s.cpu.mem (descriptors insn s.cpu)
  | _ => none

section Payload
variable (host : Host) {insn : Word} (s : Machine)

theorem payload_hintInput {entry : List Byte} {rest : List (List Byte)} (h : IsHintInput insn)
    (hio : s.handler.io.inputStreams = entry :: rest) :
    payload host insn s = some (streamBytes entry) := by
  rw [payload, kindOf_hintInput _ h, hio]
  rfl

theorem payload_replace {entry : ModulusEntry} {bs : List Byte}
    (h : kindOf s.handler insn = .replace) (he : s.handler.moduli[tableIdx insn]? = some entry)
    (hb : modularPayload host entry (tableOp insn)
      (readLe s.cpu.mem (s.cpu.readReg (rs1 insn)) entry.limbBytes) = .ok bs) :
    payload host insn s = some bs := by
  rw [payload, h, he]
  show (modularPayload _ _ _ _).toOption = _
  rw [hb]
  rfl

theorem payload_push (h : IsPairing insn) :
    payload host insn s =
      pairingPayload host (pairingName s.handler insn) s.cpu.mem (descriptors insn s.cpu) := by
  rw [payload, kindOf_pairing _ h]

end Payload

/-! ### Effects -/

/-- The number of bytes a hint read asks for. -/
def hintLength (insn : Word) (cpu : Cpu) : ℕ :=
  if imm12 insn = HINT_STOREW_IMM then 4 else (cpu.readReg (rs1 insn)).toNat * 4

/-- The result flag of an equality test. -/
def flag (eq : Bool) : Word := (BitVec.ofBool eq).setWidth 32

/-- The state a successful handler leaves, before the dispatcher advances the program
counter, for a word of the given kind. -/
inductive Effect (host : Host) (insn : Word) (s : Machine) : Kind → Machine → Prop where
  | silent : Effect host insn s .silent s
  | store {op bs}
      (hout : op.output host (op.operands insn s.cpu).1 (op.operands insn s.cpu).2 = .ok (some bs)) :
      Effect host insn s (.store op) (s.store (s.cpu.readReg (rd insn)) bs)
  | isEq (eq : Bool) : Effect host insn s .isEq (s.setReg (rd insn) (flag eq))
  | xorin (h : IsXorin insn) :
      Effect host insn s .xorin (s.setMem (xorBytes s.cpu.mem (s.cpu.readReg (rd insn))
        (s.cpu.readReg (rs1 insn)) (s.cpu.readReg (rs2 insn)).toNat))
  | beq256 (h : IsBeq256 insn) :
      Effect host insn s .beq256 (s.setPc
        (if read32 s.cpu.mem (s.cpu.readReg (rs1 insn)) = read32 s.cpu.mem (s.cpu.readReg (rs2 insn))
          then s.cpu.pc + immB insn else s.cpu.pc + 4#32))
  | deliver (h : IsHintStorew insn ∨ IsHintBuffer insn) :
      Effect host insn s .deliver
        ((s.setHint (IoState.readHintBytes (hintLength insn s.cpu) s.handler.io.hintStream).2).store
          (s.cpu.readReg (rd insn))
          (IoState.readHintBytes (hintLength insn s.cpu) s.handler.io.hintStream).1)
  | reveal (h : IsReveal insn) :
      Effect host insn s .reveal (s.setIo (s.handler.io.writeOutput
        (s.cpu.readReg (rd insn) + imm12 insn).toNat
        (LittleEndian.ofNat 4 (s.cpu.readReg (rs1 insn)).toNat)))
  | hintInput {entry rest bs} (h : IsHintInput insn)
      (hio : s.handler.io.inputStreams = entry :: rest) (hp : payload host insn s = some bs) :
      Effect host insn s .hintInput
        (s.setIo { s.handler.io with inputStreams := rest, hintStream := bs })
  | replace {bs} (h : IsHintNonQr insn ∨ IsHintSqrt insn) (hp : payload host insn s = some bs) :
      Effect host insn s .replace (s.setHint bs)
  | push {bs} (h : IsPairing insn) (hp : payload host insn s = some bs) :
      Effect host insn s .push (s.setHint (s.handler.io.hintStream ++ bs))

/-- The effect of a word, of the kind the word has. -/
abbrev WordEffect (host : Host) (insn : Word) (s s' : Machine) : Prop :=
  Effect host insn s (kindOf s.handler insn) s'

theorem Effect.word {host : Host} {insn : Word} {s s' : Machine} {k : Kind}
    (h : Effect host insn s k s') (hk : kindOf s.handler insn = k) : WordEffect host insn s s' := by
  rwa [WordEffect, hk]

/-- The program counter after a handler that started at `pc` left `s`. -/
def advanced (pc : Word) (s : Machine) : Machine :=
  if s.cpu.pc = pc then s.setPc (pc + 4#32) else s

section Advanced
variable (pc : Word) (s : Machine)

@[simp] theorem mem_advanced : (advanced pc s).cpu.mem = s.cpu.mem := by
  unfold advanced
  split <;> rfl

@[simp] theorem x_advanced : (advanced pc s).cpu.x = s.cpu.x := by
  unfold advanced
  split <;> rfl

@[simp] theorem steps_advanced : (advanced pc s).cpu.steps = s.cpu.steps := by
  unfold advanced
  split <;> rfl

@[simp] theorem handler_advanced : (advanced pc s).handler = s.handler := by
  unfold advanced
  split <;> rfl

theorem pc_advanced :
    (advanced pc s).cpu.pc = if s.cpu.pc = pc then pc + 4#32 else s.cpu.pc := by
  unfold advanced
  split <;> rfl

end Advanced

/-- The outcome of the dispatcher and the state it leaves. -/
inductive HandleEffect (host : Host) (insn : Word) (s : Machine) :
    StepOutcome → Machine → Prop where
  | terminated (h : IsTerminate insn) :
      HandleEffect host insn s (.terminated (s.cpu.readReg (rs1 insn))) s
  | continued {s₁} (h : ¬IsTerminate insn) (he : WordEffect host insn s s₁) :
      HandleEffect host insn s .continue (advanced s.cpu.pc s₁)

/-! ### The handlers -/

section Handlers
variable (host : Host) {insn : Word} (s : Machine)

theorem atomic_customOp {α : Type} {Q : α → Machine → Prop} (message : String) :
    Atomic (customOp message) s Q := rfl

theorem writePair_run (ptr : Word) (r : Pair) (n : ℕ) :
    (writePair ptr r n).run s = .ok () (s.store ptr (pairBytes n r)) := by
  have h : s.store ptr (pairBytes n r) =
      (s.store ptr (BigUint.bytesLe r.1 n)).store (ptr + BitVec.ofNat 32 n)
        (BigUint.bytesLe r.2 n) := by
    rw [Sim.store, pairBytes, Memory.writeSlice_append, BigUint.length_bytesLe]
    rfl
  rw [h]
  rfl

theorem deliverHint_run (ptr : Word) (n : ℕ) :
    (deliverHint ptr n).run s =
      .ok () ((s.setHint (IoState.readHintBytes n s.handler.io.hintStream).2).store ptr
        (IoState.readHintBytes n s.handler.io.hintStream).1) := rfl

/-- A calculation that returned, inside a longer one. -/
theorem calc_bind {α β : Type} {x : Calc α} {a : α} {k : α → Calc β} (h : x = .ok a) :
    x >>= k = k a := by
  rw [h]
  rfl

theorem calc_map {α β : Type} {x : Calc α} {a : α} {f : α → β} (h : x = .ok a) :
    f <$> x = .ok (f a) := by
  rw [h]
  rfl

theorem calc_bind_ok {α β : Type} {x : Calc α} {k : α → Calc β} {b : β} (h : x >>= k = .ok b) :
    ∃ a, x = .ok a ∧ k a = .ok b := by
  cases x with
  | ok a => exact ⟨a, rfl, h⟩
  | error e => cases h

/-- What is written out from an optional result. -/
theorem calc_option_ok {α β : Type} {x : Calc (Option α)} {f : α → β} {b : β}
    (h : (do let r ← x; pure (r.map f)) = .ok (some b)) : ∃ a, x = .ok (some a) ∧ f a = b := by
  obtain ⟨r, hr, hb⟩ := calc_bind_ok h
  injection hb with hb
  obtain ⟨a, rfl, hfa⟩ := Option.map_eq_some_iff.mp hb
  exact ⟨a, hr, hfa⟩

theorem calc_some_ok {α β : Type} {x : Calc α} {f : α → β} {b : β}
    (h : (do let r ← x; pure (some (f r))) = .ok (some b)) : ∃ a, x = .ok a ∧ f a = b := by
  obtain ⟨a, ha, hb⟩ := calc_bind_ok h
  injection hb with hb
  injection hb with hb
  exact ⟨a, ha, hb⟩

theorem handleHint_atomic (h : IsCustom0 insn F3_HINT) :
    Atomic (handleHint insn) s fun _ => WordEffect host insn s := by
  refine atomic_get (atomic_ite (fun himm => ?_) fun himm => atomic_ite (fun himm' => ?_) fun _ => ?_)
  · have he : WordEffect host insn s _ := .word (.deliver (.inl ⟨h, himm⟩)) (kindOf_custom0 _ h)
    rw [hintLength, imm12, if_pos himm] at he
    exact atomic_of_run (deliverHint_run s _ _) he
  · have he : WordEffect host insn s _ := .word (.deliver (.inr ⟨h, himm'⟩)) (kindOf_custom0 _ h)
    rw [hintLength, imm12, if_neg himm] at he
    exact atomic_of_run (deliverHint_run s _ _) he
  · exact atomic_customOp s _

theorem handleReveal_atomic (h : IsCustom0 insn F3_REVEAL) :
    Atomic (handleReveal insn) s fun _ => WordEffect host insn s :=
  atomic_get (atomic_modify (.word (.reveal h) (kindOf_custom0 _ h)))

theorem handlePhantom_atomic (h : IsCustom0 insn F3_PHANTOM) :
    Atomic (handlePhantom insn) s fun _ => WordEffect host insn s := by
  refine atomic_get (atomic_ite (fun himm => ?_) fun himm => ?_)
  · unfold IoState.hintInput
    cases hio : s.handler.io.inputStreams with
    | nil => exact atomic_customOp s _
    | cons entry rest =>
      have hi : IsHintInput insn := ⟨h, himm⟩
      exact atomic_modify (.word (.hintInput hi hio (payload_hintInput host s hi hio)) (kindOf_hintInput _ hi))
  · exact atomic_pure (.word .silent (kindOf_phantom _ h himm))

theorem handleHash_atomic (h : IsCustom0 insn F3_HASH) :
    Atomic (handleHash host insn) s fun _ => WordEffect host insn s := by
  refine atomic_get (atomic_ite (fun hf => ?_) fun hf => atomic_ite (fun hf' => ?_) fun hf' =>
    atomic_ite (fun hf'' => ?_) fun _ => ?_)
  · refine atomic_get (atomic_modify (.word (.store ?_) (kindOf_keccakf _ h hf)))
    rw [readLanes_eq]
    rfl
  · exact atomic_modify (.word (.xorin ⟨h, hf'⟩) (kindOf_xorin _ ⟨h, hf'⟩))
  · refine atomic_get (atomic_modify (.word (.store ?_) (kindOf_sha256 _ h hf'')))
    rw [readState_eq, readBlock_eq]
    rfl
  · exact atomic_customOp s _

theorem handleInt256_atomic (h : IsCustom0 insn F3_INT256) :
    Atomic (handleInt256 host insn) s fun _ => WordEffect host insn s := by
  refine atomic_get (atomic_lift fun r hr => ?_)
  cases r with
  | none => exact atomic_customOp s _
  | some r =>
    rw [read32_eq, read32_eq] at hr
    exact atomic_modify (.word (.store (calc_bind hr)) (kindOf_int256 _ h))

theorem handleBeq256_atomic (h : IsCustom0 insn F3_BEQ256) :
    Atomic (handleBeq256 insn) s fun _ => WordEffect host insn s :=
  atomic_get (atomic_set (.word (.beq256 h) (kindOf_beq256 _ h)))

theorem doModOp_atomic {entry : ModulusEntry} (h : IsCustom1 insn F3_MODULAR)
    (he : s.handler.moduli[tableIdx insn]? = some entry) :
    Atomic (doModOp insn entry (tableOp insn)) s fun _ => WordEffect host insn s := by
  have hmem : IsArith (tableOp insn) →
      kindOf s.handler insn = .store (.modular entry (tableOp insn)) := kindOf_modular _ h he
  refine atomic_get (atomic_ite (fun hadd => ?_) fun hadd => atomic_ite (fun hsub => ?_) fun hsub =>
    atomic_ite (fun hmul => ?_) fun hmul => atomic_ite (fun hdiv => ?_) fun hdiv =>
    atomic_ite (fun hiseq => ?_) fun _ => atomic_ite (fun hset => ?_) fun _ => ?_)
  · refine atomic_lift fun r hr => atomic_modify (.word (.store ?_) (hmem (.inl hadd)))
    rw [MemOp.output, MemOp.modularResult, if_pos hadd]
    exact calc_bind (calc_map hr)
  · refine atomic_lift fun r hr => atomic_modify (.word (.store ?_) (hmem (.inr (.inl hsub))))
    rw [MemOp.output, MemOp.modularResult, if_neg hadd, if_pos hsub]
    exact calc_bind (calc_map hr)
  · refine atomic_lift fun r hr => atomic_modify (.word (.store ?_) (hmem (.inr (.inr (.inl hmul)))))
    rw [MemOp.output, MemOp.modularResult, if_neg hadd, if_neg hsub, if_pos hmul]
    exact calc_bind (calc_map hr)
  · refine atomic_lift fun r hr => ?_
    cases r with
    | none => exact atomic_customOp s _
    | some r =>
      refine atomic_modify (.word (.store ?_) (hmem (.inr (.inr (.inr hdiv)))))
      rw [MemOp.output, MemOp.modularResult, if_neg hadd, if_neg hsub, if_neg hmul, if_pos hdiv]
      exact calc_bind hr
  · exact atomic_lift fun eq _ => atomic_modify (.word (.isEq eq) (kindOf_isEq _ ⟨.inl h, hiseq⟩))
  · exact atomic_pure (.word .silent (kindOf_setup _ (.inl h) hset))
  · exact atomic_customOp s _

theorem handleModular_atomic (h : IsCustom1 insn F3_MODULAR) :
    Atomic (handleModular host insn) s fun _ => WordEffect host insn s := by
  refine atomic_get ?_
  dsimp only
  split
  · exact atomic_customOp s _
  · next entry he =>
    refine atomic_ite (fun hop => ?_) fun hop => atomic_ite (fun hop' => ?_) fun _ => ?_
    · have hk := kindOf_nonQr s.handler ⟨h, hop⟩
      refine atomic_lift fun z hz => atomic_modify (.word (.replace (.inl ⟨h, hop⟩) ?_) hk)
      refine payload_replace host s hk he (calc_bind hz |>.trans ?_)
      exact if_pos hop
    · have hk := kindOf_sqrt s.handler ⟨h, hop'⟩
      refine atomic_lift fun z hz => atomic_lift fun r hr =>
        atomic_modify (.word (.replace (.inr ⟨h, hop'⟩) ?_) hk)
      refine payload_replace host s hk he (calc_bind hz |>.trans ?_)
      exact (if_neg hop).trans (calc_bind hr)
    · exact doModOp_atomic host s h he

theorem handleComplex_atomic (h : IsCustom1 insn F3_COMPLEX) :
    Atomic (handleComplex insn) s fun _ => WordEffect host insn s := by
  refine atomic_get ?_
  dsimp only
  split
  · exact atomic_customOp s _
  · next entry he =>
    have hmem : IsArith (tableOp insn) →
        kindOf s.handler insn = .store (.complex entry (tableOp insn)) := kindOf_complex _ h he
    simp only [readPair_eq]
    show Atomic (if tableOp insn = MOD_ADD then _ else if tableOp insn = MOD_SUB then _
      else if tableOp insn = MOD_MUL then _ else if tableOp insn = MOD_DIV then _
      else if tableOp insn = MOD_ISEQ then _ else if tableOp insn = MOD_SETUP then _ else _) s _
    refine atomic_ite (fun hadd => ?_) fun hadd => atomic_ite (fun hsub => ?_) fun hsub =>
      atomic_ite (fun hmul => ?_) fun hmul => atomic_ite (fun hdiv => ?_) fun hdiv =>
      atomic_ite (fun hiseq => ?_) fun _ => atomic_ite (fun hset => ?_) fun _ => ?_
    · refine atomic_lift fun r hr => atomic_of_run (writePair_run s _ r _) (.word (.store ?_) (hmem (.inl hadd)))
      rw [MemOp.output, MemOp.complexResult, if_pos hadd]
      exact calc_bind (calc_map hr)
    · refine atomic_lift fun r hr =>
        atomic_of_run (writePair_run s _ r _) (.word (.store ?_) (hmem (.inr (.inl hsub))))
      rw [MemOp.output, MemOp.complexResult, if_neg hadd, if_pos hsub]
      exact calc_bind (calc_map hr)
    · refine atomic_lift fun r hr =>
        atomic_of_run (writePair_run s _ r _) (.word (.store ?_) (hmem (.inr (.inr (.inl hmul)))))
      rw [MemOp.output, MemOp.complexResult, if_neg hadd, if_neg hsub, if_pos hmul]
      exact calc_bind (calc_map hr)
    · refine atomic_lift fun r hr => ?_
      cases r with
      | none => exact atomic_customOp s _
      | some r =>
        refine atomic_of_run (writePair_run s _ r _) (.word (.store ?_) (hmem (.inr (.inr (.inr hdiv)))))
        rw [MemOp.output, MemOp.complexResult, if_neg hadd, if_neg hsub, if_neg hmul, if_pos hdiv]
        exact calc_bind hr
    · exact atomic_lift fun eq _ => atomic_modify (.word (.isEq eq) (kindOf_isEq _ ⟨.inr h, hiseq⟩))
    · exact atomic_pure (.word .silent (kindOf_setup _ (.inr h) hset))
    · exact atomic_customOp s _

/-- The parity operand as a byte. -/
theorem toNat_parity (w : Word) :
    LittleEndian.toNat [BitVec.ofNat 8 (w &&& 1#32).toNat] = (w &&& 1#32).toNat := by
  have h : (w &&& 1#32).toNat ≤ 1 := by
    rw [BitVec.toNat_and]
    exact Nat.and_le_right
  rw [LittleEndian.toNat_cons, LittleEndian.toNat_nil, BitVec.toNat_ofNat]
  omega

theorem handleSw_atomic (h : IsCustom1 insn F3_SW) :
    Atomic (handleSw host insn) s fun _ => WordEffect host insn s := by
  refine atomic_get ?_
  dsimp only
  split
  · exact atomic_customOp s _
  · next curve he =>
    have hmem := kindOf_sw s.handler h he
    rw [Kind.sw] at hmem
    simp only [readPoint, readPair_eq]
    show Atomic (if tableOp insn = SW_ADD_NE then _ else if tableOp insn = SW_DOUBLE then _
      else if tableOp insn = SW_SETUP then _ else if tableOp insn = SW_HINT_DECOMPRESS then _
      else if tableOp insn = SW_HINT_NON_QR then _ else _) s _
    refine atomic_ite (fun hadd => ?_) fun hadd => atomic_ite (fun hdbl => ?_) fun hdbl =>
      atomic_ite (fun hset => ?_) fun _ => atomic_ite (fun hdec => ?_) fun hdec =>
      atomic_ite (fun hnqr => ?_) fun _ => ?_
    · rw [if_pos hadd] at hmem
      refine atomic_lift fun r hr => atomic_of_run (writePair_run s _ r _) (.word (.store ?_) hmem)
      exact calc_bind hr
    · rw [if_neg hadd, if_pos hdbl] at hmem
      refine atomic_lift fun r hr => atomic_of_run (writePair_run s _ r _) (.word (.store ?_) hmem)
      exact calc_bind hr
    · have hsilent : kindOf s.handler insn = .silent := by
        rw [hmem, hset]
        rfl
      exact atomic_pure (.word .silent hsilent)
    · rw [if_neg hadd, if_neg hdbl, if_pos hdec] at hmem
      refine atomic_lift fun r hr => ?_
      cases r with
      | none => exact atomic_customOp s _
      | some r =>
        rw [← toNat_parity] at hr
        exact atomic_modify (.word (.store (calc_bind hr)) hmem)
    · rw [if_neg hadd, if_neg hdbl, if_neg hdec, if_pos hnqr] at hmem
      refine atomic_lift fun r hr => atomic_modify (.word (.store ?_) hmem)
      exact calc_bind hr
    · exact atomic_customOp s _

theorem push_push_run (x y : List Byte) :
    (do pushHintStream x; pushHintStream y).run s =
      .ok () (s.setHint (s.handler.io.hintStream ++ (x ++ y))) := by
  rw [← List.append_assoc]
  rfl

/-- A pairing word that pushes its payload. -/
theorem push_effect {bs : List Byte} (h : IsPairing insn)
    (hp : pairingPayload host (pairingName s.handler insn) s.cpu.mem (descriptors insn s.cpu) =
      some bs) :
    WordEffect host insn s (s.setHint (s.handler.io.hintStream ++ bs)) :=
  .word (.push h ((payload_push host s h).trans hp)) (kindOf_pairing _ h)

theorem Bn254.hintFinalExp_atomic (h : IsPairing insn) (hn : pairingName s.handler insn = "bn254") :
    Atomic (Bn254.hintFinalExp host insn) s fun _ => WordEffect host insn s := by
  have hpush : ∀ {bs}, Bn254.hintPayload host s.cpu.mem (descriptors insn s.cpu) = .ok bs →
      WordEffect host insn s (s.setHint (s.handler.io.hintStream ++ bs)) := fun hb => by
    refine push_effect host s h ?_
    rw [pairingPayload, if_pos hn, hb]
    rfl
  refine atomic_get ?_
  show Atomic (if (descriptors insn s.cpu).pLen ≠ (descriptors insn s.cpu).qLen then _
    else if (descriptors insn s.cpu).pLen = 0#32 then _ else _) s _
  refine atomic_ite (fun _ => atomic_customOp s _) fun _ => atomic_ite (fun hzero => ?_) fun hpos => ?_
  · exact atomic_of_run (push_push_run s _ _) (hpush (if_pos hzero))
  · refine atomic_lift fun g1 h1 => atomic_lift fun g2 h2 => atomic_lift fun r hr => ?_
    refine atomic_of_run (push_push_run s _ _) (hpush ?_)
    rw [hintPayload, if_neg hpos]
    exact (calc_bind h1).trans ((calc_bind h2).trans (calc_bind hr))

theorem Bls12381.hintFinalExp_atomic (h : IsPairing insn)
    (hn : pairingName s.handler insn = "bls12_381") :
    Atomic (Bls12381.hintFinalExp host insn) s fun _ => WordEffect host insn s := by
  have hpush : ∀ {bs}, Bls12381.hintPayload host s.cpu.mem (descriptors insn s.cpu) = .ok bs →
      WordEffect host insn s (s.setHint (s.handler.io.hintStream ++ bs)) := fun hb => by
    have hne : pairingName s.handler insn ≠ "bn254" := by
      rw [hn]
      decide
    refine push_effect host s h ?_
    rw [pairingPayload, if_neg hne, if_pos hn, hb]
    rfl
  refine atomic_get ?_
  show Atomic (if (descriptors insn s.cpu).pLen ≠ (descriptors insn s.cpu).qLen then _
    else if (descriptors insn s.cpu).pLen = 0#32 then _ else _) s _
  refine atomic_ite (fun _ => atomic_customOp s _) fun _ => atomic_ite (fun hzero => ?_) fun hpos => ?_
  · have hp : Bls12381.hintPayload host s.cpu.mem (descriptors insn s.cpu) =
        .ok (fq12ToOpenvmBytes 1 ++ fq12ToOpenvmBytes 1) := if_pos hzero
    exact atomic_modify (hpush hp)
  · refine atomic_lift fun g1 h1 => atomic_lift fun g2 h2 => atomic_lift fun r hr => ?_
    refine atomic_of_run (push_push_run s _ _) (hpush ?_)
    rw [hintPayload, if_neg hpos]
    exact (calc_bind h1).trans ((calc_bind h2).trans (calc_bind hr))

theorem handlePairing_atomic (h : IsPairing insn) :
    Atomic (handlePairing host insn) s fun _ => WordEffect host insn s := by
  refine atomic_get (atomic_ite (fun _ => atomic_customOp s _) fun _ => ?_)
  refine atomic_ite (fun hn => ?_) fun _ => atomic_ite (fun hn => ?_) fun _ => atomic_customOp s _
  · exact Bn254.hintFinalExp_atomic host s h hn
  · exact Bls12381.hintFinalExp_atomic host s h hn

/-! ### The dispatcher -/

/-- The effect of a handler that does not terminate, with the outcome `Continue`. -/
theorem continue_atomic {m : HandlerM Unit} (hm : Atomic m s fun _ => WordEffect host insn s) :
    Atomic (do m; pure .continue) s fun o s' => o = StepOutcome.continue ∧ WordEffect host insn s s' :=
  atomic_bind hm fun _ s₁ he => ⟨.continue, s₁, rfl, rfl, he⟩

/-- The dispatcher up to the advance of the program counter. -/
def BodyEffect (host : Host) (insn : Word) (s : Machine) (o : StepOutcome) (s' : Machine) : Prop :=
  (IsTerminate insn ∧ o = .terminated (s.cpu.readReg (rs1 insn)) ∧ s' = s) ∨
    (¬IsTerminate insn ∧ o = .continue ∧ WordEffect host insn s s')

theorem handleCustom0_atomic (h : opcode insn = OPCODE_CUSTOM_0) :
    Atomic (handleCustom0 host insn (funct3 insn)) s (BodyEffect host insn s) := by
  refine atomic_ite (fun hf => ?_) fun hterm => ?_
  · exact atomic_get (atomic_pure (.inl ⟨⟨h, hf⟩, rfl, rfl⟩))
  · have hbody : ∀ {m : HandlerM Unit}, (Atomic m s fun _ => WordEffect host insn s) →
        Atomic (do m; pure .continue) s (BodyEffect host insn s) := fun hm =>
      (continue_atomic host s hm).mono fun _ _ he => .inr ⟨fun ht => hterm ht.2, he⟩
    refine atomic_ite (fun hf => hbody (handleHint_atomic host s ⟨h, hf⟩)) fun _ =>
      atomic_ite (fun hf => hbody (handleReveal_atomic host s ⟨h, hf⟩)) fun _ =>
      atomic_ite (fun hf => hbody (handlePhantom_atomic host s ⟨h, hf⟩)) fun _ =>
      atomic_ite (fun hf => hbody (handleHash_atomic host s ⟨h, hf⟩)) fun _ =>
      atomic_ite (fun hf => hbody (handleInt256_atomic host s ⟨h, hf⟩)) fun _ =>
      atomic_ite (fun hf => hbody (handleBeq256_atomic host s ⟨h, hf⟩)) fun _ =>
      atomic_ite (fun hf => ?_) fun _ => ?_
    · have he : WordEffect host insn s s := .word .silent (kindOf_custom0 _ ⟨h, hf⟩)
      exact atomic_pure (.inr ⟨fun ht => hterm ht.2, rfl, he⟩)
    · exact atomic_get (atomic_customOp s _)

theorem handleCustom1_atomic (h : opcode insn = OPCODE_CUSTOM_1) :
    Atomic (handleCustom1 host insn (funct3 insn)) s (BodyEffect host insn s) := by
  have h1 : IsCustom1 insn (funct3 insn) := ⟨h, rfl⟩
  have hterm : ¬IsTerminate insn := custom1_not_custom0 h1
  have hbody : ∀ {m : HandlerM Unit}, (Atomic m s fun _ => WordEffect host insn s) →
      Atomic (do m; pure .continue) s (BodyEffect host insn s) := fun hm =>
    (continue_atomic host s hm).mono fun _ _ he => .inr ⟨hterm, he⟩
  refine atomic_ite (fun hf => hbody (handleModular_atomic host s ⟨h, hf⟩)) fun _ =>
    atomic_ite (fun hf => hbody (handleComplex_atomic host s ⟨h, hf⟩)) fun _ =>
    atomic_ite (fun hf => hbody (handleSw_atomic host s ⟨h, hf⟩)) fun _ =>
    atomic_ite (fun hf => hbody (handlePairing_atomic host s ⟨h, hf⟩)) fun _ => ?_
  exact atomic_get (atomic_customOp s _)

/-- What a call of the handler does: one of the listed effects, or nothing. -/
theorem handle_atomic (insn : Word) :
    Atomic (handle host insn) s (HandleEffect host insn s) := by
  refine atomic_get (atomic_bind (P := BodyEffect host insn s) ?_ ?_)
  · exact atomic_get (atomic_ite (fun hop => handleCustom0_atomic host s hop) fun _ =>
      atomic_ite (fun hop => handleCustom1_atomic host s hop) fun _ => atomic_throw _)
  · rintro o s₁ (⟨ht, rfl, rfl⟩ | ⟨ht, rfl, he⟩)
    · exact ⟨_, _, rfl, .terminated ht⟩
    · exact ⟨_, _, rfl, .continued ht he⟩

end Handlers

end OpenvmSim.Precompiles
