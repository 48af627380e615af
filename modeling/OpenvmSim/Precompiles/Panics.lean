import OpenvmSim.Precompiles.Bls12381Residue
import OpenvmSim.Precompiles.Bn254Residue
import OpenvmSim.Precompiles.CurveArith
import OpenvmSim.Precompiles.Decompress
import OpenvmSim.Precompiles.Int256Arith
import OpenvmSim.Precompiles.Outcomes
import OpenvmSim.Precompiles.Step
import OpenvmSim.Rv32im.Returns

/-! What makes the host panic.

With the default tables a step panics exactly on the operands listed by `StepPanics`: a
subtraction of numbers that are not reduced, a complex division by such a number, a curve
operation whose slope has no denominator, and a pairing hint whose Miller loop ends in
zero, or, with overflow checks, one over too many points. Everything else returns. -/
namespace OpenvmSim.Precompiles
open Rv32im

/-! ### The conditions -/

section Conditions
variable (host : Host) (insn : Word) (s : Machine)

/-- A modular SUB whose right operand is larger than the left one and the modulus. -/
def ModularPanics : Prop :=
  ∃ entry ∈ s.handler.moduli[tableIdx insn]?, tableOp insn = MOD_SUB ∧
    entry.modulus + leftOperand insn s entry.limbBytes < rightOperand insn s entry.limbBytes

/-- A complex SUB with such a component, or a complex DIV by a number of norm other than zero
with a second component larger than the modulus. -/
def ComplexPanics : Prop :=
  ∃ entry ∈ s.handler.complex[tableIdx insn]?,
    let a := leftPair insn s entry.limbBytes
    let b := rightPair insn s entry.limbBytes
    (tableOp insn = MOD_SUB ∧ (entry.modulus + a.1 < b.1 ∨ entry.modulus + a.2 < b.2)) ∨
      (tableOp insn = MOD_DIV ∧ ¬entry.modulus ∣ b.1 * b.1 + b.2 * b.2 ∧ entry.modulus < b.2)

/-- An AddNe of points over the same `x`, or a Double of a point with `y = 0`. -/
def SwPanics : Prop :=
  ∃ curve ∈ s.handler.curves[tableIdx insn]?,
    let a := leftPair insn s curve.coordBytes
    let b := rightPair insn s curve.coordBytes
    (tableOp insn = SW_ADD_NE ∧ a.1 % curve.modulus = b.1 % curve.modulus) ∨
      (tableOp insn = SW_DOUBLE ∧ curve.modulus ∣ a.2)

/-- The points of an array of the BN254 first group. -/
def Bn254.g1Points (mem : Memory) (ptr len : Word) : List (Bn254.Fq × Bn254.Fq) :=
  (List.range len.toNat).map fun i =>
    (Bn254.readFq mem (ptr + BitVec.ofNat 32 (i * 64)),
      Bn254.readFq mem (ptr + BitVec.ofNat 32 (i * 64) + 32#32))

/-- The points of an array of the BN254 second group. -/
def Bn254.g2Points (mem : Memory) (ptr len : Word) : List (Bn254.Fq2 × Bn254.Fq2) :=
  (List.range len.toNat).map fun i =>
    (Bn254.readFq2 mem (ptr + BitVec.ofNat 32 (i * 128)),
      Bn254.readFq2 mem (ptr + BitVec.ofNat 32 (i * 128) + 64#32))

/-- The points of an array of the BLS12-381 first group. -/
def Bls12381.g1Points (mem : Memory) (ptr len : Word) : List (Bls12381.Fq × Bls12381.Fq) :=
  (List.range len.toNat).map fun i =>
    (Bls12381.readFq mem (ptr + BitVec.ofNat 32 (i * 96)),
      Bls12381.readFq mem (ptr + BitVec.ofNat 32 (i * 96) + 48#32))

/-- The points of an array of the BLS12-381 second group. -/
def Bls12381.g2Points (mem : Memory) (ptr len : Word) : List (Bls12381.Fq2 × Bls12381.Fq2) :=
  (List.range len.toNat).map fun i =>
    (Bls12381.readFq2 mem (ptr + BitVec.ofNat 32 (i * 192)),
      Bls12381.readFq2 mem (ptr + BitVec.ofNat 32 (i * 192) + 96#32))

/-- With overflow checks, the last of `len` indices times `size` does not fit a word. -/
def IndexOverflows (size : ℕ) (len : Word) : Prop :=
  host.debugBuild = true ∧ 2 ^ 32 ≤ (len.toNat - 1) * size

/-- A final exponentiation over as many points of one group as of the other, and at least one,
that are too many or whose Miller loop ends in zero. -/
def PairingPanics : Prop :=
  let d := descriptors insn s.cpu
  (funct7 insn % PAIRING_MAX_KINDS = 0#32 ∧ d.pLen = d.qLen ∧ d.pLen ≠ 0#32) ∧
    ((pairingName s.handler insn = "bn254" ∧ (IndexOverflows host 128 d.qLen ∨
        host.bn254MillerLoop (Bn254.g1Points s.cpu.mem d.pPtr d.pLen)
          (Bn254.g2Points s.cpu.mem d.qPtr d.qLen) = 0)) ∨
      (pairingName s.handler insn = "bls12_381" ∧ (IndexOverflows host 192 d.qLen ∨
        host.bls12381MillerLoop (Bls12381.g1Points s.cpu.mem d.pPtr d.pLen)
          (Bls12381.g2Points s.cpu.mem d.qPtr d.qLen) = 0)))

/-- The operands on which a custom word panics. -/
def WordPanics : Prop :=
  (IsCustom1 insn F3_MODULAR ∧ ModularPanics insn s) ∨
    (IsCustom1 insn F3_COMPLEX ∧ ComplexPanics insn s) ∨
    (IsCustom1 insn F3_SW ∧ SwPanics insn s) ∨ (IsPairing insn ∧ PairingPanics host insn s)

end Conditions

/-- The operands on which a step panics. -/
def StepPanics (host : Host) (s : Machine) : Prop := WordPanics host s.cpu.fetch s

/-! ### The tables -/

/-- The tables a handler is created with. -/
structure PrecompileHandler.DefaultTables (h : PrecompileHandler) : Prop where
  moduli : h.moduli = defaultModuli
  curves : h.curves = defaultCurves
  complex : h.complex = defaultComplex
  pairings : h.pairings = defaultPairings

/-- What the code relies on outside the repository: nine rounds of the cube-root loops, and a
random sample that is accepted for every modulus of the default table. -/
structure Host.Adequate (host : Host) : Prop where
  rounds : 9 ≤ host.fuel
  samples : ∀ entry ∈ defaultModuli, host.Samples entry.modulus

theorem modulus_ne_two {entry : ModulusEntry} (h : entry ∈ defaultModuli) : entry.modulus ≠ 2 := by
  revert entry
  decide

theorem prime_of_mem_defaultComplex {entry : ModulusEntry} (h : entry ∈ defaultComplex) :
    entry.modulus.Prime := by
  have hmem : ∀ entry ∈ defaultComplex, ∃ e ∈ defaultModuli, e.modulus = entry.modulus := by
    decide
  obtain ⟨e, he, heq⟩ := hmem entry h
  exact heq ▸ prime_of_mem_defaultModuli he

theorem prime_of_mem_defaultCurves {curve : CurveEntry} (h : curve ∈ defaultCurves) :
    curve.modulus.Prime ∧ curve.modulus ≠ 2 := by
  have hmem : ∀ curve ∈ defaultCurves, ∃ e ∈ defaultModuli, e.modulus = curve.modulus := by
    decide
  obtain ⟨e, he, heq⟩ := hmem curve h
  exact ⟨heq ▸ prime_of_mem_defaultModuli he, heq ▸ modulus_ne_two he⟩

theorem smallTwoPart_of_mem_defaultCurves {curve : CurveEntry} (h : curve ∈ defaultCurves) :
    SmallTwoPart curve.modulus := by
  revert curve
  decide

theorem constant_adequate : Host.constant.Adequate where
  rounds := by decide
  samples := by
    have h : ∀ entry ∈ defaultModuli, entry.modulus % 8 = 1 → Accepted Host.constant entry.modulus 0 := by
      decide +kernel
    exact fun entry hmem h8 => ⟨0, by decide, h entry hmem h8⟩

/-! ### The handlers -/

section Handlers
variable {host : Host} {insn : Word} {s : Machine}

theorem returns_customOp {α : Type} (message : String) :
    Returns (customOp message : HandlerM α) s := .inr ⟨_, _, rfl⟩

theorem returns_modify (f : Machine → Machine) : Returns (modify f : HandlerM Unit) s :=
  .inl ⟨_, _, rfl⟩

theorem doModOp_panicsAt {entry : ModulusEntry} (hp : entry.modulus.Prime) :
    PanicsAt (doModOp insn entry (tableOp insn)) s (tableOp insn = MOD_SUB ∧
      entry.modulus + leftOperand insn s entry.limbBytes <
        rightOperand insn s entry.limbBytes) := by
  have : Fact entry.modulus.Prime := ⟨hp⟩
  refine panicsAt_get (panicsAt_ite (fun hop => ?_) fun _ => panicsAt_ite (fun hop => ?_) fun hsub =>
    panicsAt_ite (fun _ => ?_) fun _ => panicsAt_ite (fun _ => ?_) fun _ =>
    panicsAt_ite (fun _ => ?_) fun _ => panicsAt_ite (fun _ => ?_) fun _ => ?_)
  · refine panicsAt_lift_ok (rem_eq_val _) (panicsAt_of_returns (returns_modify _) ?_)
    exact fun hc => absurd (hop.symm.trans hc.1) (by decide)
  · refine panicsAt_lift ((subOnce_panicsWhen _ _).congr ?_) fun r => returns_modify _
    exact ⟨fun h => ⟨hop, h⟩, And.right⟩
  · exact panicsAt_lift_ok (rem_eq_val _)
      (panicsAt_of_returns (returns_modify _) fun hc => hsub hc.1)
  · refine panicsAt_lift_ok (modDiv_eq _ _) (panicsAt_of_returns ?_ fun hc => hsub hc.1)
    split
    · exact returns_customOp _
    · exact returns_modify _
  · exact panicsAt_lift_ok (modIsEq_eq _ _)
      (panicsAt_of_returns (returns_modify _) fun hc => hsub hc.1)
  · exact panicsAt_of_returns (.inl ⟨_, _, rfl⟩) fun hc => hsub hc.1
  · exact panicsAt_of_returns (returns_customOp _) fun hc => hsub hc.1

theorem handleModular_panicsAt (hd : s.handler.DefaultTables) (hhost : host.Adequate) :
    PanicsAt (handleModular host insn) s (ModularPanics insn s) := by
  refine panicsAt_get ?_
  dsimp only
  split
  · next he =>
    replace he : s.handler.moduli[tableIdx insn]? = none := he
    refine panicsAt_of_returns (returns_customOp _) ?_
    rintro ⟨entry, hmem, -⟩
    rw [he] at hmem
    cases hmem
  · next entry he =>
    replace he : s.handler.moduli[tableIdx insn]? = some entry := he
    have hmem : entry ∈ defaultModuli := hd.moduli ▸ List.mem_of_getElem? he
    have hp := prime_of_mem_defaultModuli hmem
    have hodd := modulus_ne_two hmem
    have : Fact entry.modulus.Prime := ⟨hp⟩
    obtain ⟨z, hz⟩ := findNonQrOpenvm_returns hodd (hhost.samples entry hmem)
    have hiff : (tableOp insn = MOD_SUB ∧ entry.modulus + leftOperand insn s entry.limbBytes <
        rightOperand insn s entry.limbBytes) ↔ ModularPanics insn s := by
      rw [ModularPanics, he]
      simp
    refine PanicsAt.congr ?_ hiff
    refine panicsAt_ite (fun hop => ?_) fun _ => panicsAt_ite (fun hop => ?_) fun _ =>
      doModOp_panicsAt hp
    · refine panicsAt_lift_ok hz (panicsAt_of_returns (returns_modify _) fun hc => ?_)
      exact absurd (hop.symm.trans hc.1) (by decide)
    · have hsqrt : ∃ r, hintSqrtOf (leftOperand insn s entry.limbBytes) entry.modulus z = .ok r := by
        have hnq := (findNonQrOpenvm_ok host hodd hz).2.2
        by_cases hx : IsSquare ((leftOperand insn s entry.limbBytes : ℕ) : ZMod entry.modulus)
        · obtain ⟨r, -, hr, -⟩ := hintSqrtOf_square hodd hnq hx
          exact ⟨_, hr⟩
        · obtain ⟨r, -, hr, -⟩ := hintSqrtOf_nonsquare hodd hnq hx
          exact ⟨_, hr⟩
      obtain ⟨r, hr⟩ := hsqrt
      refine panicsAt_lift_ok hz (panicsAt_lift_ok hr
        (panicsAt_of_returns (returns_modify _) fun hc => ?_))
      exact absurd (hop.symm.trans hc.1) (by decide)

theorem writePair_returns (ptr : Word) (r : Pair) (n : ℕ) : Returns (writePair ptr r n) s :=
  .inl ⟨_, _, writePair_run s ptr r n⟩

/-- The operands on which a complex operation panics. -/
theorem complexPanics_iff {entry : ModulusEntry}
    (he : s.handler.complex[tableIdx insn]? = some entry) :
    ComplexPanics insn s ↔
      (tableOp insn = MOD_SUB ∧
        (entry.modulus + (leftPair insn s entry.limbBytes).1 <
            (rightPair insn s entry.limbBytes).1 ∨
          entry.modulus + (leftPair insn s entry.limbBytes).2 <
            (rightPair insn s entry.limbBytes).2)) ∨
      (tableOp insn = MOD_DIV ∧
        ¬entry.modulus ∣ (rightPair insn s entry.limbBytes).1 *
            (rightPair insn s entry.limbBytes).1 +
          (rightPair insn s entry.limbBytes).2 * (rightPair insn s entry.limbBytes).2 ∧
        entry.modulus < (rightPair insn s entry.limbBytes).2) := by
  rw [ComplexPanics, he]
  simp

theorem handleComplex_panicsAt (hd : s.handler.DefaultTables) :
    PanicsAt (handleComplex insn) s (ComplexPanics insn s) := by
  refine panicsAt_get ?_
  dsimp only
  split
  · next he =>
    replace he : s.handler.complex[tableIdx insn]? = none := he
    refine panicsAt_of_returns (returns_customOp _) ?_
    rintro ⟨entry, hmem, -⟩
    rw [he] at hmem
    cases hmem
  · next entry he =>
    replace he : s.handler.complex[tableIdx insn]? = some entry := he
    have hmem : entry ∈ defaultComplex := hd.complex ▸ List.mem_of_getElem? he
    have : Fact entry.modulus.Prime := ⟨prime_of_mem_defaultComplex hmem⟩
    rw [complexPanics_iff he]
    generalize hb : rightPair insn s entry.limbBytes = b
    generalize ha : leftPair insn s entry.limbBytes = a
    have hnorm : ¬entry.modulus ∣ b.1 * b.1 + b.2 * b.2 ↔
        QuadraticAlgebra.norm (b.toFq2 entry.modulus) ≠ 0 := by
      rw [norm_toFq2, ne_eq, ZMod.natCast_eq_zero_iff]
    -- the operations that panic on nothing
    have hother : ∀ {op : Word}, tableOp insn = op → op ≠ MOD_SUB → op ≠ MOD_DIV →
        ¬((tableOp insn = MOD_SUB ∧ (entry.modulus + a.1 < b.1 ∨ entry.modulus + a.2 < b.2)) ∨
          (tableOp insn = MOD_DIV ∧ ¬entry.modulus ∣ b.1 * b.1 + b.2 * b.2 ∧
            entry.modulus < b.2)) := by
      rintro op rfl hsub hdiv (h | h)
      · exact hsub h.1
      · exact hdiv h.1
    show PanicsAt (if tableOp insn = MOD_ADD then _ else if tableOp insn = MOD_SUB then _
      else if tableOp insn = MOD_MUL then _ else if tableOp insn = MOD_DIV then _
      else if tableOp insn = MOD_ISEQ then _ else if tableOp insn = MOD_SETUP then _ else _) s _
    refine panicsAt_ite (fun hop => ?_) fun _ => panicsAt_ite (fun hop => ?_) fun hsub =>
      panicsAt_ite (fun hop => ?_) fun _ => panicsAt_ite (fun hop => ?_) fun hdiv =>
      panicsAt_ite (fun hop => ?_) fun _ => panicsAt_ite (fun hop => ?_) fun _ => ?_
    · exact panicsAt_lift_ok (complexAdd_eq _ _)
        (panicsAt_of_returns (writePair_returns _ _ _) (hother hop (by decide) (by decide)))
    · subst ha hb
      refine panicsAt_lift ((complexSub_panicsWhen _ _).congr ?_) fun r => writePair_returns _ _ _
      refine ⟨fun h => .inl ⟨hop, h⟩, ?_⟩
      rintro (h | h)
      · exact h.2
      · exact absurd (hop.symm.trans h.1) (by decide)
    · exact panicsAt_lift_ok (complexMul_eq _ _)
        (panicsAt_of_returns (writePair_returns _ _ _) (hother hop (by decide) (by decide)))
    · subst ha hb
      refine panicsAt_lift ((complexDiv_panicsWhen _ _).congr ?_) fun r => ?_
      · refine ⟨fun h => .inr ⟨hop, hnorm.mpr h.1, h.2⟩, ?_⟩
        rintro (h | h)
        · exact absurd (hop.symm.trans h.1) (by decide)
        · exact ⟨hnorm.mp h.2.1, h.2.2⟩
      · cases r with
        | none => exact returns_customOp _
        | some r => exact writePair_returns _ _ _
    · exact panicsAt_lift_ok (complexIsEq_eq _ _)
        (panicsAt_of_returns (returns_modify _) (hother hop (by decide) (by decide)))
    · exact panicsAt_of_returns (.inl ⟨_, _, rfl⟩) (hother hop (by decide) (by decide))
    · exact panicsAt_of_returns (returns_customOp _) (hother rfl hsub hdiv)

theorem swPanics_iff {curve : CurveEntry} (he : s.handler.curves[tableIdx insn]? = some curve) :
    SwPanics insn s ↔
      (tableOp insn = SW_ADD_NE ∧ (leftPair insn s curve.coordBytes).1 % curve.modulus =
        (rightPair insn s curve.coordBytes).1 % curve.modulus) ∨
      (tableOp insn = SW_DOUBLE ∧ curve.modulus ∣ (leftPair insn s curve.coordBytes).2) := by
  rw [SwPanics, he]
  simp

theorem handleSw_panicsAt (hd : s.handler.DefaultTables) :
    PanicsAt (handleSw host insn) s (SwPanics insn s) := by
  refine panicsAt_get ?_
  dsimp only
  split
  · next he =>
    replace he : s.handler.curves[tableIdx insn]? = none := he
    refine panicsAt_of_returns (returns_customOp _) ?_
    rintro ⟨curve, hmem, -⟩
    rw [he] at hmem
    cases hmem
  · next curve he =>
    replace he : s.handler.curves[tableIdx insn]? = some curve := he
    have hmem : curve ∈ defaultCurves := hd.curves ▸ List.mem_of_getElem? he
    obtain ⟨hp, hodd⟩ := prime_of_mem_defaultCurves hmem
    have hsmall := smallTwoPart_of_mem_defaultCurves hmem
    have : Fact curve.modulus.Prime := ⟨hp⟩
    have hother : ∀ {op : Word}, tableOp insn = op → op ≠ SW_ADD_NE → op ≠ SW_DOUBLE →
        ¬SwPanics insn s := by
      rintro op rfl hadd hdbl h
      obtain h | h := (swPanics_iff he).mp h
      · exact hadd h.1
      · exact hdbl h.1
    show PanicsAt (if tableOp insn = SW_ADD_NE then _ else if tableOp insn = SW_DOUBLE then _
      else if tableOp insn = SW_SETUP then _ else if tableOp insn = SW_HINT_DECOMPRESS then _
      else if tableOp insn = SW_HINT_NON_QR then _ else _) s _
    refine panicsAt_ite (fun hop => ?_) fun hadd => panicsAt_ite (fun hop => ?_) fun hdbl =>
      panicsAt_ite (fun hop => ?_) fun _ => panicsAt_ite (fun hop => ?_) fun _ =>
      panicsAt_ite (fun hop => ?_) fun _ => ?_
    · refine panicsAt_lift ((addNe_panicsWhen rfl).congr ?_) fun r => writePair_returns _ _ _
      rw [swPanics_iff he, ZMod.natCast_eq_natCast_iff']
      refine ⟨fun h => .inl ⟨hop, h⟩, ?_⟩
      rintro (h | h)
      · exact h.2
      · exact absurd (hop.symm.trans h.1) (by decide)
    · refine panicsAt_lift ((double_panicsWhen rfl hodd).congr ?_) fun r => writePair_returns _ _ _
      rw [swPanics_iff he, ZMod.natCast_eq_zero_iff]
      refine ⟨fun h => .inr ⟨hop, h⟩, ?_⟩
      rintro (h | h)
      · exact absurd (hop.symm.trans h.1) (by decide)
      · exact h.2
    · exact panicsAt_of_returns (.inl ⟨_, _, rfl⟩) (hother hop (by decide) (by decide))
    · have hdec : ∀ x parity, ∃ r, decompress host curve x parity = .ok r := by
        intro x parity
        by_cases hsq : IsSquare (curveRhs curve.modulus curve x)
        · obtain ⟨y, -, hy, -⟩ := decompress_square host rfl hodd hsmall parity hsq
          exact ⟨_, hy⟩
        · exact ⟨_, decompress_nonsquare host rfl hodd parity hsq⟩
      obtain ⟨r, hr⟩ := hdec (readLe s.cpu.mem (s.cpu.readReg (rs1 insn)) curve.coordBytes)
        (s.cpu.readReg (rs2 insn) &&& 1#32).toNat
      refine panicsAt_lift_ok hr (panicsAt_of_returns ?_ (hother hop (by decide) (by decide)))
      cases r with
      | none => exact returns_customOp _
      | some y => exact returns_modify _
    · obtain ⟨z, hz, -⟩ := leastNonQr_eq hodd
      exact panicsAt_lift_ok hz
        (panicsAt_of_returns (returns_modify _) (hother hop (by decide) (by decide)))
    · exact panicsAt_of_returns (returns_customOp _) (hother rfl hadd hdbl)

/-! ### The pairing hint -/

theorem mulUnsigned_panicsWhen (host : Host) (a b : ℕ) :
    PanicsWhen (host.debugBuild = true ∧ 2 ^ 32 ≤ a * b) (mulUnsigned host 32 a b) := by
  unfold mulUnsigned
  by_cases hlt : a * b < 2 ^ 32
  · exact panicsWhen_ok (if_pos hlt) fun h => absurd hlt (Nat.not_lt.mpr h.2)
  · rw [if_neg hlt]
    by_cases hb : host.debugBuild = true
    · exact panicsWhen_error (if_pos hb) ⟨hb, Nat.not_lt.mp hlt⟩
    · exact panicsWhen_ok (if_neg hb) fun h => hb h.1

/-- Multiplied with or without the check, an index points to the same address. -/
theorem ofNat_mulUnsigned {a b r : ℕ} (h : mulUnsigned host 32 a b = .ok r) :
    BitVec.ofNat 32 r = BitVec.ofNat 32 (a * b) := by
  unfold mulUnsigned at h
  split at h
  · rw [Except.ok.inj h]
  · split at h
    · cases h
    · rw [← Except.ok.inj h]
      exact BitVec.eq_of_toNat_eq (by simp)

/-- An array of points, read at multiples of `size`. -/
theorem readPoints_panicsWhen (host : Host) {P : Type} (size : ℕ) {len : Word} (read : Word → P)
    (readPoint : ℕ → Calc P) (hlen : len ≠ 0#32)
    (hread : ∀ i, readPoint i = do
      let off ← mulUnsigned host 32 i size
      pure (read (BitVec.ofNat 32 off))) :
    PanicsWhen (IndexOverflows host size len) (readPoints len readPoint) ∧
      ∀ points, readPoints len readPoint = .ok points →
        points = (List.range len.toNat).map fun i => read (BitVec.ofNat 32 (i * size)) := by
  have hpos : 0 < len.toNat := by
    rw [Nat.pos_iff_ne_zero]
    exact fun h => hlen (BitVec.eq_of_toNat_eq h)
  have hpoint : ∀ i, PanicsWhen (host.debugBuild = true ∧ 2 ^ 32 ≤ i * size) (readPoint i) := by
    intro i
    rw [hread]
    exact (mulUnsigned_panicsWhen host i size).bind fun off _ _ => ⟨_, rfl⟩
  have hiff : (∃ i ∈ List.range len.toNat, host.debugBuild = true ∧ 2 ^ 32 ≤ i * size) ↔
      IndexOverflows host size len := by
    refine ⟨fun ⟨i, hi, hb, hle⟩ => ⟨hb, hle.trans (Nat.mul_le_mul_right size ?_)⟩, fun h => ?_⟩
    · exact Nat.le_sub_one_of_lt (List.mem_range.mp hi)
    · exact ⟨len.toNat - 1, List.mem_range.mpr (Nat.sub_lt hpos Nat.one_pos), h⟩
  have hall := mapM_panicsWhen hpoint (List.range len.toNat)
  refine ⟨hall.congr hiff, fun points hpoints => ?_⟩
  have hnone : ¬∃ i ∈ List.range len.toNat, host.debugBuild = true ∧ 2 ^ 32 ≤ i * size := by
    intro h
    obtain ⟨message, hm⟩ := hall.panics h
    cases hm.symm.trans hpoints
  have hvalue : ∀ i ∈ List.range len.toNat, readPoint i = .ok (read (BitVec.ofNat 32 (i * size))) := by
    intro i hi
    obtain ⟨off, hoff⟩ := (mulUnsigned_panicsWhen host i size).value
      fun h => hnone ⟨i, hi, h⟩
    rw [hread, hoff, ← ofNat_mulUnsigned hoff]
    rfl
  exact (Except.ok.inj ((mapM_eq_map hvalue).symm.trans hpoints)).symm

theorem IndexOverflows.mono {size size' : ℕ} {len : Word} (hle : size ≤ size')
    (h : IndexOverflows host size len) : IndexOverflows host size' len :=
  ⟨h.1, h.2.trans (Nat.mul_le_mul_left _ hle)⟩

/-- Two arrays of points and the hint of their Miller loop. -/
theorem pairingHint_panicsAt {P Q F R : Type} [Zero F] {c₁ c₂ : Prop} {points₁ : Calc (List P)}
    {points₂ : Calc (List Q)} {ps : List P} {qs : List Q} {miller : List P → List Q → F}
    {hint : F → Calc R} {push : R → HandlerM Unit}
    (h₁ : PanicsWhen c₁ points₁) (hv₁ : ∀ l, points₁ = .ok l → l = ps)
    (h₂ : PanicsWhen c₂ points₂) (hv₂ : ∀ l, points₂ = .ok l → l = qs) (himp : c₁ → c₂)
    (hhint : ∀ f, PanicsWhen (f = 0) (hint f)) (hpush : ∀ r, Returns (push r) s) :
    PanicsAt ((do
      let l₁ ← points₁
      let l₂ ← points₂
      let r ← hint (miller l₁ l₂)
      push r) : HandlerM Unit) s (c₂ ∨ miller ps qs = 0) := by
  by_cases hc₁ : c₁
  · obtain ⟨message, hm⟩ := h₁.panics hc₁
    rw [hm]
    exact ⟨fun _ => ⟨message, s, rfl⟩, fun h => absurd (.inl (himp hc₁)) h⟩
  · obtain ⟨l₁, hl₁⟩ := h₁.value hc₁
    refine panicsAt_lift_ok hl₁ ?_
    by_cases hc₂ : c₂
    · obtain ⟨message, hm⟩ := h₂.panics hc₂
      rw [hm]
      exact ⟨fun _ => ⟨message, s, rfl⟩, fun h => absurd (.inl hc₂) h⟩
    · obtain ⟨l₂, hl₂⟩ := h₂.value hc₂
      refine panicsAt_lift_ok hl₂ (panicsAt_lift ((hhint _).congr ?_) hpush)
      rw [hv₁ l₁ hl₁, hv₂ l₂ hl₂]
      exact ⟨.inr, fun h => h.resolve_left hc₂⟩

theorem Bn254.hintFinalExp_panicsAt (hhost : host.Adequate) :
    let d := descriptors insn s.cpu
    PanicsAt (Bn254.hintFinalExp host insn) s ((d.pLen = d.qLen ∧ d.pLen ≠ 0#32) ∧
      (IndexOverflows host 128 d.qLen ∨ host.bn254MillerLoop (Bn254.g1Points s.cpu.mem d.pPtr d.pLen)
        (Bn254.g2Points s.cpu.mem d.qPtr d.qLen) = 0)) := by
  intro d
  refine panicsAt_get ?_
  show PanicsAt (if d.pLen ≠ d.qLen then _ else if d.pLen = 0#32 then _ else _) s _
  refine panicsAt_ite (fun hne => ?_) fun heq => panicsAt_ite (fun hzero => ?_) fun hpos => ?_
  · exact panicsAt_of_returns (returns_customOp _) fun h => hne h.1.1
  · exact panicsAt_of_returns (.inl ⟨_, _, rfl⟩) fun h => h.1.2 hzero
  · have hlen := not_not.mp heq
    obtain ⟨h₁, hv₁⟩ := readPoints_panicsWhen host 64
      (fun off => (readFq s.cpu.mem (d.pPtr + off), readFq s.cpu.mem (d.pPtr + off + 32#32)))
      (readG1 host s.cpu.mem d.pPtr) hpos fun _ => rfl
    obtain ⟨h₂, hv₂⟩ := readPoints_panicsWhen host 128
      (fun off => (readFq2 s.cpu.mem (d.qPtr + off), readFq2 s.cpu.mem (d.qPtr + off + 64#32)))
      (readG2 host s.cpu.mem d.qPtr) (hlen ▸ hpos) fun _ => rfl
    refine PanicsAt.congr (pairingHint_panicsAt h₁ hv₁ h₂ hv₂ (fun h => ?_)
      (finalExpHint_panicsWhen host hhost.rounds) fun r => .inl ⟨_, _, push_push_run s _ _⟩) ?_
    · rw [hlen] at h
      exact h.mono (by decide)
    · exact ⟨fun h => ⟨⟨hlen, hpos⟩, h⟩, And.right⟩

theorem Bls12381.hintFinalExp_panicsAt :
    let d := descriptors insn s.cpu
    PanicsAt (Bls12381.hintFinalExp host insn) s ((d.pLen = d.qLen ∧ d.pLen ≠ 0#32) ∧
      (IndexOverflows host 192 d.qLen ∨
        host.bls12381MillerLoop (Bls12381.g1Points s.cpu.mem d.pPtr d.pLen)
          (Bls12381.g2Points s.cpu.mem d.qPtr d.qLen) = 0)) := by
  intro d
  refine panicsAt_get ?_
  show PanicsAt (if d.pLen ≠ d.qLen then _ else if d.pLen = 0#32 then _ else _) s _
  refine panicsAt_ite (fun hne => ?_) fun heq => panicsAt_ite (fun hzero => ?_) fun hpos => ?_
  · exact panicsAt_of_returns (returns_customOp _) fun h => hne h.1.1
  · exact panicsAt_of_returns (.inl ⟨_, _, rfl⟩) fun h => h.1.2 hzero
  · have hlen := not_not.mp heq
    obtain ⟨h₁, hv₁⟩ := readPoints_panicsWhen host 96
      (fun off => (readFq s.cpu.mem (d.pPtr + off), readFq s.cpu.mem (d.pPtr + off + 48#32)))
      (readG1 host s.cpu.mem d.pPtr) hpos fun _ => rfl
    obtain ⟨h₂, hv₂⟩ := readPoints_panicsWhen host 192
      (fun off => (readFq2 s.cpu.mem (d.qPtr + off), readFq2 s.cpu.mem (d.qPtr + off + 96#32)))
      (readG2 host s.cpu.mem d.qPtr) (hlen ▸ hpos) fun _ => rfl
    refine PanicsAt.congr (pairingHint_panicsAt h₁ hv₁ h₂ hv₂ (fun h => ?_)
      finalExpHint_panicsWhen fun r => .inl ⟨_, _, push_push_run s _ _⟩) ?_
    · rw [hlen] at h
      exact h.mono (by decide)
    · exact ⟨fun h => ⟨⟨hlen, hpos⟩, h⟩, And.right⟩

theorem handlePairing_panicsAt (hhost : host.Adequate) :
    PanicsAt (handlePairing host insn) s (PairingPanics host insn s) := by
  refine panicsAt_get ?_
  show PanicsAt (if funct7 insn % PAIRING_MAX_KINDS ≠ 0#32 then _
    else if pairingName s.handler insn = "bn254" then _
    else if pairingName s.handler insn = "bls12_381" then _ else _) s _
  refine panicsAt_ite (fun hop => ?_) fun hop => panicsAt_ite (fun hn => ?_) fun hn =>
    panicsAt_ite (fun hn' => ?_) fun hn' => ?_
  · exact panicsAt_of_returns (returns_customOp _) fun h => hop h.1.1
  · refine (Bn254.hintFinalExp_panicsAt hhost).congr ⟨fun h => ?_, fun h => ⟨h.1.2, ?_⟩⟩
    · exact ⟨⟨not_not.mp hop, h.1⟩, .inl ⟨hn, h.2⟩⟩
    · obtain h | h := h.2
      · exact h.2
      · exact absurd (hn.symm.trans h.1) (by decide)
  · refine Bls12381.hintFinalExp_panicsAt.congr ⟨fun h => ?_, fun h => ⟨h.1.2, ?_⟩⟩
    · exact ⟨⟨not_not.mp hop, h.1⟩, .inr ⟨hn', h.2⟩⟩
    · obtain h | h := h.2
      · exact absurd h.1 hn
      · exact h.2
  · refine panicsAt_of_returns (returns_customOp _) fun h => ?_
    obtain h | h := h.2
    · exact hn h.1
    · exact hn' h.1

/-! ### The dispatcher -/

theorem handleHint_returns : Returns (handleHint insn) s :=
  returns_get (returns_ite (fun _ => .inl ⟨_, _, rfl⟩) fun _ =>
    returns_ite (fun _ => .inl ⟨_, _, rfl⟩) fun _ => returns_customOp _)

theorem handlePhantom_returns : Returns (handlePhantom insn) s := by
  refine returns_get (returns_ite (fun _ => ?_) fun _ => .inl ⟨_, _, rfl⟩)
  unfold IoState.hintInput
  cases s.handler.io.inputStreams with
  | nil => exact returns_customOp _
  | cons entry rest => exact returns_modify _

theorem handleHash_returns : Returns (handleHash host insn) s :=
  returns_get (returns_ite (fun _ => .inl ⟨_, _, rfl⟩) fun _ =>
    returns_ite (fun _ => .inl ⟨_, _, rfl⟩) fun _ =>
    returns_ite (fun _ => .inl ⟨_, _, rfl⟩) fun _ => returns_customOp _)

/-- The 256-bit operations have no panic. -/
theorem compute_value (host : Host) (op : Word) (a b : U256) : ∃ r, Int256.compute host op a b = .ok r := by
  obtain ⟨sum, hadd, -⟩ := Int256.add_eq host a b
  obtain ⟨diff, hsub, -⟩ := Int256.sub_eq host a b
  obtain ⟨prod, hmul, -⟩ := Int256.mul_eq host a b
  unfold Int256.compute
  refine ite_value (fun _ => ⟨some sum, by rw [hadd]; rfl⟩) fun _ => ?_
  refine ite_value (fun _ => ⟨some diff, by rw [hsub]; rfl⟩) fun _ => ?_
  refine ite_value (fun _ => ⟨_, rfl⟩) fun _ => ite_value (fun _ => ⟨_, rfl⟩) fun _ => ?_
  refine ite_value (fun _ => ⟨_, rfl⟩) fun _ => ite_value (fun _ => ⟨_, rfl⟩) fun _ => ?_
  refine ite_value (fun _ => ⟨_, rfl⟩) fun _ => ite_value (fun _ => ⟨_, rfl⟩) fun _ => ?_
  refine ite_value (fun _ => ⟨_, rfl⟩) fun _ => ite_value (fun _ => ⟨_, rfl⟩) fun _ => ?_
  exact ite_value (fun _ => ⟨some prod, by rw [hmul]; rfl⟩) fun _ => ⟨_, rfl⟩

theorem handleInt256_returns : Returns (handleInt256 host insn) s := by
  obtain ⟨r, hr⟩ := compute_value host (funct7 insn)
    (read32 s.cpu.mem (s.cpu.readReg (rs1 insn))) (read32 s.cpu.mem (s.cpu.readReg (rs2 insn)))
  refine (panicsAt_get (panicsAt_lift_ok hr (panicsAt_of_returns ?_ not_false))).returns not_false
  cases r with
  | none => exact returns_customOp _
  | some r => exact returns_modify _

/-- A handler followed by `Continue`. -/
theorem continue_panicsAt {c : Prop} {m : HandlerM Unit} (h : PanicsAt m s c) :
    PanicsAt (do m; pure StepOutcome.continue) s c := h.bind fun _ _ => .inl ⟨_, _, rfl⟩

theorem handleCustom0_returns (f3 : Word) : Returns (handleCustom0 host insn f3) s := by
  have hcont : ∀ {m : HandlerM Unit}, Returns m s → Returns (do m; pure StepOutcome.continue) s :=
    fun hm => (continue_panicsAt (panicsAt_of_returns hm not_false)).returns not_false
  refine returns_ite (fun _ => .inl ⟨_, _, rfl⟩) fun _ => ?_
  refine returns_ite (fun _ => hcont handleHint_returns) fun _ => ?_
  refine returns_ite (fun _ => .inl ⟨_, _, rfl⟩) fun _ => ?_
  refine returns_ite (fun _ => hcont handlePhantom_returns) fun _ => ?_
  refine returns_ite (fun _ => hcont handleHash_returns) fun _ => ?_
  refine returns_ite (fun _ => hcont handleInt256_returns) fun _ => ?_
  refine returns_ite (fun _ => .inl ⟨_, _, rfl⟩) fun _ => ?_
  exact returns_ite (fun _ => .inl ⟨_, _, rfl⟩) fun _ => returns_get (returns_customOp _)

/-- Of the conditions only that of the word's own funct3 counts. -/
theorem wordPanics_iff {f3 : Word} {c : Prop} (h : IsCustom1 insn f3)
    (hc : (f3 = F3_MODULAR ∧ ModularPanics insn s) ∨ (f3 = F3_COMPLEX ∧ ComplexPanics insn s) ∨
      (f3 = F3_SW ∧ SwPanics insn s) ∨ (f3 = F3_PAIRING ∧ PairingPanics host insn s) ↔ c) :
    WordPanics host insn s ↔ c := by
  have hiff : ∀ f3', IsCustom1 insn f3' ↔ f3 = f3' := fun f3' =>
    ⟨fun h' => h.2.symm.trans h'.2, fun heq => heq ▸ h⟩
  rw [WordPanics, IsPairing, hiff, hiff, hiff, hiff]
  exact hc

theorem handleCustom1_panicsAt (hd : s.handler.DefaultTables) (hhost : host.Adequate)
    (h : opcode insn = OPCODE_CUSTOM_1) :
    PanicsAt (handleCustom1 host insn (funct3 insn)) s (WordPanics host insn s) := by
  have h1 : IsCustom1 insn (funct3 insn) := ⟨h, rfl⟩
  refine panicsAt_ite (fun hf => ?_) fun hmod => panicsAt_ite (fun hf => ?_) fun hcpx =>
    panicsAt_ite (fun hf => ?_) fun hsw => panicsAt_ite (fun hf => ?_) fun hpair => ?_
  · refine (continue_panicsAt (handleModular_panicsAt hd hhost)).congr (wordPanics_iff h1 ?_).symm
    rw [hf]
    simp [F3_MODULAR, F3_COMPLEX, F3_SW, F3_PAIRING]
  · refine (continue_panicsAt (handleComplex_panicsAt hd)).congr (wordPanics_iff h1 ?_).symm
    rw [hf]
    simp [F3_MODULAR, F3_COMPLEX, F3_SW, F3_PAIRING]
  · refine (continue_panicsAt (handleSw_panicsAt hd)).congr (wordPanics_iff h1 ?_).symm
    rw [hf]
    simp [F3_MODULAR, F3_COMPLEX, F3_SW, F3_PAIRING]
  · refine (continue_panicsAt (handlePairing_panicsAt hhost)).congr (wordPanics_iff h1 ?_).symm
    rw [hf]
    simp [F3_MODULAR, F3_COMPLEX, F3_SW, F3_PAIRING]
  · refine panicsAt_of_returns (returns_get (returns_customOp _)) ?_
    rw [wordPanics_iff h1 Iff.rfl]
    simp [hmod, hcpx, hsw, hpair]

theorem not_wordPanics (h : opcode insn ≠ OPCODE_CUSTOM_1) : ¬WordPanics host insn s := by
  rintro (hw | hw | hw | hw)
  · exact h hw.1.1
  · exact h hw.1.1
  · exact h hw.1.1
  · exact h hw.1.1

theorem handle_panicsAt (hd : s.handler.DefaultTables) (hhost : host.Adequate) :
    PanicsAt (handle host insn) s (WordPanics host insn s) := by
  refine panicsAt_get (PanicsAt.bind ?_ ?_)
  · refine panicsAt_get (panicsAt_ite (fun hop => ?_) fun _ => panicsAt_ite (fun hop => ?_) fun hop => ?_)
    · refine panicsAt_of_returns (handleCustom0_returns _) (not_wordPanics ?_)
      rw [hop]
      decide
    · exact handleCustom1_panicsAt hd hhost hop
    · exact panicsAt_of_returns (.inr ⟨_, _, rfl⟩) (not_wordPanics hop)
  · intro o s'
    cases o with
    | «continue» => exact .inl ⟨_, _, rfl⟩
    | terminated code => exact .inl ⟨_, _, rfl⟩

end Handlers

/-- **What makes the host panic.** With the default tables a step returns `Ok` or `Err` on every
machine but those whose fetched word and operands are listed by `StepPanics`; on these it
panics, and nothing has changed. -/
theorem step_returns_iff {host : Host} (hhost : host.Adequate) {s : Machine}
    (hd : s.handler.DefaultTables) :
    (Returns (Cpu.step (customOps host)) s ↔ ¬StepPanics host s) ∧
      (StepPanics host s → ∃ message,
        (Cpu.step (customOps host)).run s = .error (.panic message) s) := by
  have h : PanicsAt (Cpu.step (customOps host)) s (StepPanics host s) := by
    refine step_panicsAt (fun hc => not_wordPanics fun hop => hc (.inr hop)) fun _ => ?_
    exact handle_panicsAt hd hhost
  refine ⟨h.returns_iff, fun hp => ?_⟩
  obtain ⟨message, s', hrun⟩ := h.panics hp
  have hs : s' = s := ((customOps_careful host).step s).of_error hrun
  exact ⟨message, hs ▸ hrun⟩

/-! ### A panic -/

/-- A machine about to double the point at address zero, where memory is zero. -/
def doubleMachine : Machine := Sim.loaded [0x0200102b#32] [[]]

theorem doubleMachine_panics : StepPanics Host.constant doubleMachine :=
  .inr (.inr (.inl ⟨by decide, _, rfl, .inr ⟨by decide, by decide⟩⟩))

/-- Doubling the point `(0, 0)` panics. -/
theorem step_returns_iff_double : ¬Returns (Cpu.step (customOps Host.constant)) doubleMachine ∧
    ∃ message, (Cpu.step (customOps Host.constant)).run doubleMachine =
      .error (.panic message) doubleMachine := by
  have hd : doubleMachine.handler.DefaultTables := ⟨rfl, rfl, rfl, rfl⟩
  have h := step_returns_iff constant_adequate hd
  exact ⟨fun hr => h.1.mp hr doubleMachine_panics, h.2 doubleMachine_panics⟩

/-- Not every step with the default tables returns. -/
theorem doubled_origin_panics : ∃ s : Machine, s.handler.DefaultTables ∧
    ¬Returns (Cpu.step (customOps Host.constant)) s := by
  refine ⟨doubleMachine, ⟨rfl, rfl, rfl, rfl⟩, ?_⟩
  have hrun : ∃ message s', (Cpu.step (customOps Host.constant)).run doubleMachine =
      .error (.panic message) s' := ⟨_, _, rfl⟩
  obtain ⟨message, s', hrun⟩ := hrun
  rintro (⟨o, s'', h⟩ | ⟨e, s'', h⟩)
  · cases hrun.symm.trans h
  · cases hrun.symm.trans h

end OpenvmSim.Precompiles
