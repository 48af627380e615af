import OpenvmSim.Precompiles.Effects

/-! How the table words end.

`Effects` says what a word has done if it returned. Here it is said when it returns: a
memory operation ends as its `MemOp.output` does (`handle_store`), and the other words of the
modular, complex and curve tables as their calculations do. The operands are read before
anything is written. -/
namespace OpenvmSim.Precompiles
open Rv32im

/-! ### Operands -/

section Operands
variable (insn : Word) (s : Machine)

/-- The operand at `[rs1]`. -/
def leftOperand (n : ℕ) : ℕ := readLe s.cpu.mem (s.cpu.readReg (rs1 insn)) n

/-- The operand at `[rs2]`. -/
def rightOperand (n : ℕ) : ℕ := readLe s.cpu.mem (s.cpu.readReg (rs2 insn)) n

/-- The pair at `[rs1]`. -/
def leftPair (n : ℕ) : Pair := readPair s.cpu.mem (s.cpu.readReg (rs1 insn)) n

/-- The pair at `[rs2]`. -/
def rightPair (n : ℕ) : Pair := readPair s.cpu.mem (s.cpu.readReg (rs2 insn)) n

/-- The parity bit of the register `rs2`. -/
def parityOperand : ℕ := (s.cpu.readReg (rs2 insn) &&& 1#32).toNat

theorem parityOperand_lt : parityOperand insn s < 2 := by
  have h : parityOperand insn s ≤ 1 := by
    rw [parityOperand, BitVec.toNat_and]
    exact Nat.and_le_right
  exact Nat.lt_succ_of_le h

end Operands

/-! ### Outcomes -/

/-- How a word ends if it does not panic. -/
inductive Outcome where
  /-- Bytes are stored at `[rd]`. -/
  | stored (bs : List Byte)
  /-- The result of an equality test is written to the register `rd`. -/
  | flagged (eq : Bool)
  /-- The hint stream is replaced. -/
  | hinted (bs : List Byte)
  /-- An error is returned, and nothing has changed. -/
  | rejected

/-- The handler ends with the outcome, and does nothing else than advance the pc. -/
def Yields (host : Host) (insn : Word) (s : Machine) : Outcome → Prop
  | .stored bs => (handle host insn).run s =
      .ok .continue (advanced s.cpu.pc (s.store (s.cpu.readReg (rd insn)) bs))
  | .flagged eq => (handle host insn).run s =
      .ok .continue (advanced s.cpu.pc (s.setReg (rd insn) (flag eq)))
  | .hinted bs => (handle host insn).run s = .ok .continue (advanced s.cpu.pc (s.setHint bs))
  | .rejected => ∃ message, (handle host insn).run s = .error (.err (.customOp message)) s

/-- The body of a handler ends as a calculation of the bytes to store does. -/
def Performs (m : HandlerM Unit) (s : Machine) (out : Word) : Calc (Option (List Byte)) → Prop
  | .ok (some bs) => m.run s = .ok () (s.store out bs)
  | .ok none => ∃ message, m.run s = .error (.err (.customOp message)) s
  | .error e => m.run s = .error e s

section Performs
variable {α : Type} {s : Machine} {out : Word} {f : α → List Byte} {k : α → HandlerM Unit}

theorem performs_get {m : Machine → HandlerM Unit} {x : Calc (Option (List Byte))}
    (h : Performs (m s) s out x) : Performs (get >>= m) s out x := by
  cases x with
  | error e => exact h
  | ok o =>
    cases o with
    | none => exact h
    | some bs => exact h

/-- A calculation that has a result if it does not panic. -/
theorem performs_some (x : Calc α) (hk : ∀ r, (k r).run s = .ok () (s.store out (f r))) :
    Performs (do let r ← x; k r) s out (do let r ← some <$> x; pure (r.map f)) := by
  cases x with
  | error e => rfl
  | ok r => exact hk r

/-- A calculation without a result ends in an error. -/
theorem performs_option {k : Option α → HandlerM Unit} (x : Calc (Option α))
    (hnone : ∃ message, (k none).run s = .error (.err (.customOp message)) s)
    (hsome : ∀ r, (k (some r)).run s = .ok () (s.store out (f r))) :
    Performs (do let r ← x; k r) s out (do let r ← x; pure (r.map f)) := by
  cases x with
  | error e => rfl
  | ok o =>
    cases o with
    | none => exact hnone
    | some r => exact hsome r

end Performs

/-! ### The handlers -/

section Handlers
variable (host : Host) (insn : Word) (s : Machine)

theorem doModOp_performs (entry : ModulusEntry) {op : Word} (hop : IsArith op) :
    Performs (doModOp insn entry op) s (s.cpu.readReg (rd insn)) (do
      let r ← MemOp.modularResult op (leftOperand insn s entry.limbBytes)
        (rightOperand insn s entry.limbBytes) entry.modulus
      pure (r.map fun r => BigUint.bytesLe r entry.limbBytes)) := by
  refine performs_get ?_
  obtain rfl | rfl | rfl | rfl := hop
  · exact performs_some (BigUint.rem _ _) fun r => rfl
  · exact performs_some (subOnce _ _ _) fun r => rfl
  · exact performs_some (BigUint.rem _ _) fun r => rfl
  · exact performs_option (modDiv _ _ _) ⟨_, rfl⟩ fun r => rfl

theorem handleModular_performs {entry : ModulusEntry}
    (he : s.handler.moduli[tableIdx insn]? = some entry) (hop : IsArith (tableOp insn)) :
    Performs (handleModular host insn) s (s.cpu.readReg (rd insn)) (do
      let r ← MemOp.modularResult (tableOp insn) (leftOperand insn s entry.limbBytes)
        (rightOperand insn s entry.limbBytes) entry.modulus
      pure (r.map fun r => BigUint.bytesLe r entry.limbBytes)) := by
  obtain ⟨-, hnqr, hsqrt⟩ := hop.ne
  have hlook : s.handler.moduli[(funct7 insn / MODULAR_MAX_KINDS).toNat]? = some entry := he
  refine performs_get ?_
  simp only [hlook]
  show Performs (if tableOp insn = MOD_HINT_NON_QR then _ else if tableOp insn = MOD_HINT_SQRT
    then _ else doModOp insn entry (tableOp insn)) s _ _
  rw [if_neg hnqr, if_neg hsqrt]
  exact doModOp_performs insn s entry hop

theorem handleComplex_performs {entry : ModulusEntry}
    (he : s.handler.complex[tableIdx insn]? = some entry) (hop : IsArith (tableOp insn)) :
    Performs (handleComplex insn) s (s.cpu.readReg (rd insn)) (do
      let r ← MemOp.complexResult (tableOp insn) (leftPair insn s entry.limbBytes)
        (rightPair insn s entry.limbBytes) entry.modulus
      pure (r.map (pairBytes entry.limbBytes))) := by
  have hlook : s.handler.complex[(funct7 insn / MODULAR_MAX_KINDS).toNat]? = some entry := he
  refine performs_get ?_
  simp only [hlook]
  show Performs (if tableOp insn = MOD_ADD then _ else if tableOp insn = MOD_SUB then _
    else if tableOp insn = MOD_MUL then _ else if tableOp insn = MOD_DIV then _
    else if tableOp insn = MOD_ISEQ then _ else if tableOp insn = MOD_SETUP then _ else _) s _ _
  obtain h | h | h | h := hop
  · rw [h]
    exact performs_some (complexAdd _ _ _) fun r => writePair_run s _ r _
  · rw [h]
    exact performs_some (complexSub _ _ _) fun r => writePair_run s _ r _
  · rw [h]
    exact performs_some (complexMul _ _ _) fun r => writePair_run s _ r _
  · rw [h]
    exact performs_option (complexDiv _ _ _) ⟨_, rfl⟩ fun r => writePair_run s _ r _

theorem handleSw_addNe {curve : CurveEntry} (he : s.handler.curves[tableIdx insn]? = some curve)
    (hop : tableOp insn = SW_ADD_NE) :
    Performs (handleSw host insn) s (s.cpu.readReg (rd insn)) (do
      let r ← some <$> addNe curve (leftPair insn s curve.coordBytes)
        (rightPair insn s curve.coordBytes)
      pure (r.map (pairBytes curve.coordBytes))) := by
  have hlook : s.handler.curves[(funct7 insn / SW_MAX_KINDS).toNat]? = some curve := he
  refine performs_get ?_
  simp only [hlook]
  show Performs (if tableOp insn = SW_ADD_NE then _ else _) s _ _
  rw [if_pos hop]
  exact performs_some (addNe _ _ _) fun r => writePair_run s _ r _

theorem handleSw_double {curve : CurveEntry} (he : s.handler.curves[tableIdx insn]? = some curve)
    (hop : tableOp insn = SW_DOUBLE) :
    Performs (handleSw host insn) s (s.cpu.readReg (rd insn)) (do
      let r ← some <$> double curve (leftPair insn s curve.coordBytes)
      pure (r.map (pairBytes curve.coordBytes))) := by
  have hlook : s.handler.curves[(funct7 insn / SW_MAX_KINDS).toNat]? = some curve := he
  refine performs_get ?_
  simp only [hlook]
  show Performs (if tableOp insn = SW_ADD_NE then _ else if tableOp insn = SW_DOUBLE then _
    else _) s _ _
  rw [hop]
  exact performs_some (double _ _) fun r => writePair_run s _ r _

theorem handleSw_decompress {curve : CurveEntry}
    (he : s.handler.curves[tableIdx insn]? = some curve)
    (hop : tableOp insn = SW_HINT_DECOMPRESS) :
    Performs (handleSw host insn) s (s.cpu.readReg (rd insn)) (do
      let r ← decompress host curve (leftOperand insn s curve.coordBytes) (parityOperand insn s)
      pure (r.map fun y => BigUint.bytesLe y curve.coordBytes)) := by
  have hlook : s.handler.curves[(funct7 insn / SW_MAX_KINDS).toNat]? = some curve := he
  refine performs_get ?_
  simp only [hlook]
  show Performs (if tableOp insn = SW_ADD_NE then _ else if tableOp insn = SW_DOUBLE then _
    else if tableOp insn = SW_SETUP then _ else if tableOp insn = SW_HINT_DECOMPRESS then _
    else _) s _ _
  rw [hop]
  exact performs_option (decompress _ _ _ _) ⟨_, rfl⟩ fun r => rfl

theorem handleSw_nonQr {curve : CurveEntry} (he : s.handler.curves[tableIdx insn]? = some curve)
    (hop : tableOp insn = SW_HINT_NON_QR) :
    Performs (handleSw host insn) s (s.cpu.readReg (rd insn)) (do
      let r ← some <$> leastNonQr curve.modulus
      pure (r.map fun z => BigUint.bytesLe z curve.coordBytes)) := by
  have hlook : s.handler.curves[(funct7 insn / SW_MAX_KINDS).toNat]? = some curve := he
  refine performs_get ?_
  simp only [hlook]
  show Performs (if tableOp insn = SW_ADD_NE then _ else if tableOp insn = SW_DOUBLE then _
    else if tableOp insn = SW_SETUP then _ else if tableOp insn = SW_HINT_DECOMPRESS then _
    else if tableOp insn = SW_HINT_NON_QR then _ else _) s _ _
  rw [hop]
  exact performs_some (leastNonQr _) fun r => rfl

theorem handleModular_isEq {entry : ModulusEntry} {eq : Bool}
    (he : s.handler.moduli[tableIdx insn]? = some entry) (hop : tableOp insn = MOD_ISEQ)
    (h : modIsEq (leftOperand insn s entry.limbBytes) (rightOperand insn s entry.limbBytes)
      entry.modulus = .ok eq) :
    (handleModular host insn).run s = .ok () (s.setReg (rd insn) (flag eq)) := by
  have hlook : s.handler.moduli[(funct7 insn / MODULAR_MAX_KINDS).toNat]? = some entry := he
  simp only [handleModular, EStateM.run_bind, EStateM.run_get, hlook]
  show (if tableOp insn = MOD_HINT_NON_QR then _ else if tableOp insn = MOD_HINT_SQRT
    then _ else doModOp insn entry (tableOp insn) : HandlerM Unit).run s = _
  rw [hop]
  show (do writeReg (rd insn) (flag (← modIsEq (leftOperand insn s entry.limbBytes)
    (rightOperand insn s entry.limbBytes) entry.modulus)) : HandlerM Unit).run s = _
  rw [h]
  rfl

theorem handleComplex_isEq {entry : ModulusEntry} {eq : Bool}
    (he : s.handler.complex[tableIdx insn]? = some entry) (hop : tableOp insn = MOD_ISEQ)
    (h : complexIsEq (leftPair insn s entry.limbBytes) (rightPair insn s entry.limbBytes)
      entry.modulus = .ok eq) :
    (handleComplex insn).run s = .ok () (s.setReg (rd insn) (flag eq)) := by
  have hlook : s.handler.complex[(funct7 insn / MODULAR_MAX_KINDS).toNat]? = some entry := he
  simp only [handleComplex, EStateM.run_bind, EStateM.run_get, hlook]
  show (if tableOp insn = MOD_ADD then _ else if tableOp insn = MOD_SUB then _
    else if tableOp insn = MOD_MUL then _ else if tableOp insn = MOD_DIV then _
    else if tableOp insn = MOD_ISEQ then _ else if tableOp insn = MOD_SETUP then _ else _ :
    HandlerM Unit).run s = _
  rw [hop]
  show (do writeReg (rd insn) (flag (← complexIsEq (leftPair insn s entry.limbBytes)
    (rightPair insn s entry.limbBytes) entry.modulus)) : HandlerM Unit).run s = _
  rw [h]
  rfl

theorem handleModular_nonQr {entry : ModulusEntry} {z : ℕ}
    (he : s.handler.moduli[tableIdx insn]? = some entry) (hop : tableOp insn = MOD_HINT_NON_QR)
    (hz : findNonQrOpenvm host entry.modulus = .ok z) :
    (handleModular host insn).run s = .ok () (s.setHint (BigUint.bytesLe z entry.limbBytes)) := by
  have hlook : s.handler.moduli[(funct7 insn / MODULAR_MAX_KINDS).toNat]? = some entry := he
  simp only [handleModular, EStateM.run_bind, EStateM.run_get, hlook]
  show (if tableOp insn = MOD_HINT_NON_QR then do
    replaceHintStream (BigUint.bytesLe (← findNonQrOpenvm host entry.modulus) entry.limbBytes)
    else _ : HandlerM Unit).run s = _
  rw [if_pos hop, hz]
  rfl

theorem handleModular_sqrt {entry : ModulusEntry} {z : ℕ} {r : Bool × ℕ}
    (he : s.handler.moduli[tableIdx insn]? = some entry) (hop : tableOp insn = MOD_HINT_SQRT)
    (hz : findNonQrOpenvm host entry.modulus = .ok z)
    (hr : hintSqrtOf (leftOperand insn s entry.limbBytes) entry.modulus z = .ok r) :
    (handleModular host insn).run s = .ok () (s.setHint (sqrtBytes entry.limbBytes r)) := by
  have hlook : s.handler.moduli[(funct7 insn / MODULAR_MAX_KINDS).toNat]? = some entry := he
  simp only [handleModular, EStateM.run_bind, EStateM.run_get, hlook]
  show (if tableOp insn = MOD_HINT_NON_QR then _ else if tableOp insn = MOD_HINT_SQRT then do
      let z ← findNonQrOpenvm host entry.modulus
      let r ← hintSqrtOf (leftOperand insn s entry.limbBytes) entry.modulus z
      replaceHintStream (sqrtBytes entry.limbBytes r)
    else _ : HandlerM Unit).run s = _
  rw [hop, if_neg (by decide), if_pos rfl, hz]
  show (do
    let r ← hintSqrtOf (leftOperand insn s entry.limbBytes) entry.modulus z
    replaceHintStream (sqrtBytes entry.limbBytes r) : HandlerM Unit).run s = _
  rw [hr]
  rfl

end Handlers

/-! ### The dispatcher -/

section Dispatch
variable {host : Host} {insn : Word} {s s₁ : Machine} {m : HandlerM Unit}

/-- The dispatcher calls `m`, and continues after it. -/
def Calls (host : Host) (insn : Word) (m : HandlerM Unit) : Prop :=
  ∀ s, (dispatch host insn).run s = (do m; pure StepOutcome.continue : HandlerM StepOutcome).run s

theorem handle_run_ok (h : Calls host insn m) (hm : m.run s = .ok () s₁) :
    (handle host insn).run s = .ok .continue (advanced s.cpu.pc s₁) := by
  show (dispatch host insn >>= _ : HandlerM StepOutcome).run s = _
  rw [EStateM.run_bind, h, EStateM.run_bind, hm]
  rfl

theorem handle_run_error {e : Stop CpuError} (h : Calls host insn m)
    (hm : m.run s = .error e s₁) : (handle host insn).run s = .error e s₁ := by
  show (dispatch host insn >>= _ : HandlerM StepOutcome).run s = _
  rw [EStateM.run_bind, h, EStateM.run_bind, hm]

theorem dispatch_custom0 {f3 : Word} (h : IsCustom0 insn f3) (s : Machine) :
    (dispatch host insn).run s = (handleCustom0 host insn f3).run s := by
  show (if opcode insn = OPCODE_CUSTOM_0 then handleCustom0 host insn (funct3 insn)
    else _ : HandlerM StepOutcome).run s = _
  rw [h.1, h.2]
  rfl

theorem calls_hash (h : IsCustom0 insn F3_HASH) : Calls host insn (handleHash host insn) :=
  dispatch_custom0 h

theorem calls_int256 (h : IsCustom0 insn F3_INT256) : Calls host insn (handleInt256 host insn) :=
  dispatch_custom0 h

theorem calls_beq256 (h : IsBeq256 insn) : Calls host insn (handleBeq256 insn) := dispatch_custom0 h

theorem calls_hint (h : IsCustom0 insn F3_HINT) : Calls host insn (handleHint insn) :=
  dispatch_custom0 h

theorem calls_reveal (h : IsReveal insn) : Calls host insn (handleReveal insn) := dispatch_custom0 h

theorem dispatch_custom1 {f3 : Word} (h : IsCustom1 insn f3) (s : Machine) :
    (dispatch host insn).run s = (handleCustom1 host insn f3).run s := by
  show (if opcode insn = OPCODE_CUSTOM_0 then _
    else if opcode insn = OPCODE_CUSTOM_1 then handleCustom1 host insn (funct3 insn)
    else _ : HandlerM StepOutcome).run s = _
  rw [h.1, h.2]
  rfl

theorem calls_modular (h : IsCustom1 insn F3_MODULAR) : Calls host insn (handleModular host insn) :=
  dispatch_custom1 h

theorem calls_complex (h : IsCustom1 insn F3_COMPLEX) : Calls host insn (handleComplex insn) :=
  dispatch_custom1 h

theorem calls_sw (h : IsCustom1 insn F3_SW) : Calls host insn (handleSw host insn) :=
  dispatch_custom1 h

theorem calls_pairing (h : IsPairing insn) : Calls host insn (handlePairing host insn) :=
  dispatch_custom1 h

/-- The outcome of a word that performs a calculation of the bytes to store. -/
theorem yields_stored {x : Calc (Option (List Byte))} {bs : List Byte} (h : Calls host insn m)
    (hm : Performs m s (s.cpu.readReg (rd insn)) x) (hx : x = .ok (some bs)) :
    Yields host insn s (.stored bs) := by
  subst hx
  exact handle_run_ok h hm

theorem yields_rejected {x : Calc (Option (List Byte))} {out : Word} (h : Calls host insn m)
    (hm : Performs m s out x) (hx : x = .ok none) : Yields host insn s .rejected := by
  subst hx
  obtain ⟨message, hrun⟩ := hm
  exact ⟨message, handle_run_error h hrun⟩

theorem not_rejected_of_ok {o : StepOutcome} {s' : Machine}
    (hrun : (handle host insn).run s = .ok o s') : ¬Yields host insn s .rejected := by
  intro h
  obtain ⟨message, hrej⟩ := h
  cases hrun.symm.trans hrej

/-- A word that returned has calculated bytes to store. -/
theorem stored_of_ok {x : Calc (Option (List Byte))} {out : Word} {o : StepOutcome} {s' : Machine}
    (h : Calls host insn m) (hm : Performs m s out x)
    (hrun : (handle host insn).run s = .ok o s') : ∃ bs, x = .ok (some bs) := by
  cases x with
  | error e => cases hrun.symm.trans (handle_run_error h hm)
  | ok r =>
    cases r with
    | none =>
      obtain ⟨message, hm⟩ := hm
      cases hrun.symm.trans (handle_run_error h hm)
    | some bs => exact ⟨bs, rfl⟩

theorem not_yields_of_panic {x : Calc (Option (List Byte))} {out : Word}
    (h : Calls host insn m) (hm : Performs m s out x)
    (hx : ∃ message, x = .error (.panic message)) (o : Outcome) : ¬Yields host insn s o := by
  obtain ⟨message, rfl⟩ := hx
  have hrun : (handle host insn).run s = .error (.panic message) s := handle_run_error h hm
  cases o with
  | stored bs => exact fun hy => by cases hrun.symm.trans hy
  | flagged eq => exact fun hy => by cases hrun.symm.trans hy
  | hinted bs => exact fun hy => by cases hrun.symm.trans hy
  | rejected =>
    rintro ⟨message', hy⟩
    cases hrun.symm.trans hy

end Dispatch

end OpenvmSim.Precompiles
