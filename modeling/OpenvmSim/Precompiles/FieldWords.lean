import OpenvmSim.Precompiles.FieldArith
import OpenvmSim.Precompiles.Outcomes

/-! The words of the modular and the complex table as operations of a field.

For a prime modulus an operation has the outcome that `modularOutcome` or `complexOutcome`
calculates from the residue classes of its operands, unless it is one of the subtractions
and divisions that panic. -/
namespace OpenvmSim.Precompiles
open Rv32im

/-! ### What is read back -/

section Cells
variable {n : ℕ} {a b : Word}

/-- None of the `n` bytes at `b` is one of the `n` bytes at `a`. -/
def Apart (n : ℕ) (a b : Word) : Prop := ∀ k < n, n ≤ (b + BitVec.ofNat 32 k - a).toNat

theorem Apart.le (h : Apart n a b) : n ≤ 2 ^ 32 := by
  obtain rfl | hpos := Nat.eq_zero_or_pos n
  · exact Nat.zero_le _
  · exact (h 0 hpos).trans (BitVec.isLt _).le

theorem readLe_store (s : Machine) (a : Word) {bs : List Byte} (hlen : bs.length = n)
    (hn : n ≤ 2 ^ 32) : readLe (s.store a bs).cpu.mem a n = LittleEndian.toNat bs := by
  subst hlen
  rw [readLe, Memory.readVec_eq_load, Sim.mem_store, Memory.bytes_writeSlice,
    Flat.load_overlay _ _ _ hn]

theorem readLe_store_of_apart (s : Machine) {bs : List Byte} (hlen : bs.length = n)
    (h : Apart n a b) : readLe (s.store a bs).cpu.mem b n = readLe s.cpu.mem b n := by
  subst hlen
  rw [readLe, Memory.readVec_eq_load, Sim.mem_store, Memory.bytes_writeSlice,
    Flat.load_overlay_of_apart _ h.le h]
  rfl

end Cells

/-! ### What is written -/

section Writes
variable {host : Host} {insn : Word} {s : Machine}

/-- The word stores the number `v` in `n` bytes at `[rd]`. -/
def Writes (host : Host) (insn : Word) (s : Machine) (n v : ℕ) : Prop :=
  ∃ bs, bs.length = n ∧ LittleEndian.toNat bs = v ∧ Yields host insn s (.stored bs)

/-- The word stores a pair of numbers in `n` bytes each at `[rd]`. -/
def WritesPair (host : Host) (insn : Word) (s : Machine) (n : ℕ) (v : Pair) : Prop :=
  ∃ bs, bs.length = 2 * n ∧ pairOf bs n = v ∧ Yields host insn s (.stored bs)

theorem toNat_bytesLe {n v : ℕ} (h : v < 256 ^ n) : LittleEndian.toNat (BigUint.bytesLe v n) = v := by
  rw [BigUint.bytesLe_eq, LittleEndian.toNat_ofNat]
  exact Nat.mod_eq_of_lt h

theorem writes_of_stored {n v : ℕ} (hv : v < 256 ^ n)
    (h : Yields host insn s (.stored (BigUint.bytesLe v n))) : Writes host insn s n v :=
  ⟨_, BigUint.length_bytesLe v n, toNat_bytesLe hv, h⟩

theorem pairOf_pairBytes {n : ℕ} {v : Pair} (h1 : v.1 < 256 ^ n) (h2 : v.2 < 256 ^ n) :
    pairOf (pairBytes n v) n = v := by
  have hlen := BigUint.length_bytesLe v.1 n
  rw [pairOf, pairBytes, List.take_left' hlen, List.drop_left' hlen, toNat_bytesLe h1,
    toNat_bytesLe h2]

theorem writesPair_of_stored {n : ℕ} {v : Pair} (h1 : v.1 < 256 ^ n) (h2 : v.2 < 256 ^ n)
    (h : Yields host insn s (.stored (pairBytes n v))) : WritesPair host insn s n v :=
  ⟨_, length_pairBytes n v, pairOf_pairBytes h1 h2, h⟩

end Writes

/-- The operations of a table on field elements. -/
def IsFieldOp (op : Word) : Prop := IsArith op ∨ op = MOD_ISEQ

/-! ### The modular table -/

section Modular
variable {p : ℕ} [Fact p.Prime] {insn : Word} {s : Machine} {entry : ModulusEntry}

/-- The outcome of a modular operation on residue classes, its result in `n` bytes. -/
def modularOutcome (op : Word) (n : ℕ) (a b : ZMod p) : Outcome :=
  if op = MOD_ADD then .stored (BigUint.bytesLe (a + b).val n)
  else if op = MOD_SUB then .stored (BigUint.bytesLe (a - b).val n)
  else if op = MOD_MUL then .stored (BigUint.bytesLe (a * b).val n)
  else if op = MOD_DIV then if b = 0 then .rejected else .stored (BigUint.bytesLe (a / b).val n)
  else .flagged (decide (a = b))

/-- A modular word that does not subtract too much has its outcome in the field. -/
theorem modular_yields (host : Host) (h1 : IsCustom1 insn F3_MODULAR)
    (he : s.handler.moduli[tableIdx insn]? = some entry) (hp : entry.modulus = p)
    (hop : IsFieldOp (tableOp insn))
    (hn : ¬(tableOp insn = MOD_SUB ∧
      p + leftOperand insn s entry.limbBytes < rightOperand insn s entry.limbBytes)) :
    Yields host insn s (modularOutcome (tableOp insn) entry.limbBytes
      (leftOperand insn s entry.limbBytes : ZMod p)
      (rightOperand insn s entry.limbBytes : ZMod p)) := by
  have hcalls : Calls host insn (handleModular host insn) := calls_modular h1
  obtain harith | hiseq := hop
  · have hm := handleModular_performs host insn s he harith
    generalize leftOperand insn s entry.limbBytes = a at hm hn ⊢
    generalize rightOperand insn s entry.limbBytes = b at hm hn ⊢
    subst hp
    obtain h | h | h | h := harith
    · rw [h] at hm ⊢
      refine yields_stored hcalls hm ?_
      show (do let r ← some <$> BigUint.rem (a + b) entry.modulus; _) = _
      rw [rem_eq_val, Nat.cast_add]
      rfl
    · rw [h] at hm ⊢
      refine yields_stored hcalls hm ?_
      show (do let r ← some <$> subOnce a b entry.modulus; _) = _
      rw [subOnce_eq (Nat.le_of_not_lt fun hlt => hn ⟨h, hlt⟩)]
      rfl
    · rw [h] at hm ⊢
      refine yields_stored hcalls hm ?_
      show (do let r ← some <$> BigUint.rem (a * b) entry.modulus; _) = _
      rw [rem_eq_val, Nat.cast_mul]
      rfl
    · rw [h] at hm ⊢
      show Yields host insn s (if (b : ZMod entry.modulus) = 0 then _ else _)
      have hdiv : MemOp.modularResult MOD_DIV a b entry.modulus = _ := modDiv_eq a b
      split
      · next hb =>
        refine yields_rejected hcalls hm ?_
        rw [hdiv, if_pos hb]
        rfl
      · next hb =>
        refine yields_stored hcalls hm ?_
        rw [hdiv, if_neg hb]
        rfl
  · subst hp
    rw [hiseq]
    exact handle_run_ok hcalls (handleModular_isEq host insn s he hiseq (modIsEq_eq _ _))

/-- A modular SUB of too large an operand has no outcome. -/
theorem modular_not_yields {host : Host} (h1 : IsCustom1 insn F3_MODULAR)
    (he : s.handler.moduli[tableIdx insn]? = some entry) (hop : tableOp insn = MOD_SUB)
    (hlt : entry.modulus + leftOperand insn s entry.limbBytes <
      rightOperand insn s entry.limbBytes) (o : Outcome) : ¬Yields host insn s o := by
  have hm := handleModular_performs host insn s he (.inr (.inl hop))
  obtain ⟨message, hpanic⟩ := subOnce_panics hlt
  refine not_yields_of_panic (calls_modular h1) hm ⟨message, ?_⟩ o
  rw [hop]
  show (do let r ← some <$> subOnce _ _ _; _) = _
  rw [hpanic]
  rfl

end Modular

/-! ### The complex table -/

section Complex
variable {p : ℕ} [Fact p.Prime] {insn : Word} {s : Machine} {entry : ModulusEntry}

/-- The outcome of a complex operation on elements of `Fp2`, its result in `n` bytes for each
coefficient. -/
def complexOutcome (op : Word) (n : ℕ) (x y : Ark.Fq2 p) : Outcome :=
  if op = MOD_ADD then .stored (pairBytes n (pairOfFq2 (x + y)))
  else if op = MOD_SUB then .stored (pairBytes n (pairOfFq2 (x - y)))
  else if op = MOD_MUL then .stored (pairBytes n (pairOfFq2 (x * y)))
  else if op = MOD_DIV then
    if QuadraticAlgebra.norm y = 0 then .rejected
    else .stored (pairBytes n (pairOfFq2 (quotient x y)))
  else .flagged (decide (x = y))

/-- The operands a complex operation panics on: it subtracts too much from a component, or from
the modulus for the conjugate of a divisor whose norm is not zero. -/
def ComplexUnderflows (op : Word) (p : ℕ) (a b : Pair) : Prop :=
  (op = MOD_SUB ∧ (p + a.1 < b.1 ∨ p + a.2 < b.2)) ∨
    (op = MOD_DIV ∧ ¬p ∣ b.1 * b.1 + b.2 * b.2 ∧ p < b.2)

theorem norm_eq_zero_iff (b : Pair) :
    QuadraticAlgebra.norm (b.toFq2 p) = 0 ↔ p ∣ b.1 * b.1 + b.2 * b.2 := by
  rw [norm_toFq2, ZMod.natCast_eq_zero_iff]

/-- A complex word that does not subtract too much has its outcome in the field. -/
theorem complex_yields (host : Host) (h1 : IsCustom1 insn F3_COMPLEX)
    (he : s.handler.complex[tableIdx insn]? = some entry) (hp : entry.modulus = p)
    (hop : IsFieldOp (tableOp insn))
    (hn : ¬ComplexUnderflows (tableOp insn) p (leftPair insn s entry.limbBytes)
      (rightPair insn s entry.limbBytes)) :
    Yields host insn s (complexOutcome (tableOp insn) entry.limbBytes
      ((leftPair insn s entry.limbBytes).toFq2 p)
      ((rightPair insn s entry.limbBytes).toFq2 p)) := by
  have hcalls : Calls host insn (handleComplex insn) := calls_complex h1
  obtain harith | hiseq := hop
  · have hm := handleComplex_performs insn s he harith
    generalize leftPair insn s entry.limbBytes = a at hm hn ⊢
    generalize rightPair insn s entry.limbBytes = b at hm hn ⊢
    subst hp
    obtain h | h | h | h := harith
    · rw [h] at hm ⊢
      refine yields_stored hcalls hm ?_
      show (do let r ← some <$> complexAdd a b entry.modulus; _) = _
      rw [complexAdd_eq]
      rfl
    · obtain ⟨hre, him⟩ := not_or.mp fun hlt => hn (.inl ⟨h, hlt⟩)
      rw [h] at hm ⊢
      refine yields_stored hcalls hm ?_
      show (do let r ← some <$> complexSub a b entry.modulus; _) = _
      rw [complexSub_eq (Nat.le_of_not_lt hre) (Nat.le_of_not_lt him)]
      rfl
    · rw [h] at hm ⊢
      refine yields_stored hcalls hm ?_
      show (do let r ← some <$> complexMul a b entry.modulus; _) = _
      rw [complexMul_eq]
      rfl
    · have hle : ¬entry.modulus ∣ b.1 * b.1 + b.2 * b.2 → b.2 ≤ entry.modulus :=
        fun hnorm => Nat.le_of_not_lt fun hlt => hn (.inr ⟨h, hnorm, hlt⟩)
      rw [h] at hm ⊢
      show Yields host insn s
        (if QuadraticAlgebra.norm (b.toFq2 entry.modulus) = 0 then _ else _)
      split
      · next hb =>
        refine yields_rejected hcalls hm ?_
        show (do let r ← complexDiv a b entry.modulus; _) = _
        rw [complexDiv_none hb]
        rfl
      · next hb =>
        refine yields_stored hcalls hm ?_
        show (do let r ← complexDiv a b entry.modulus; _) = _
        rw [complexDiv_eq hb (hle (mt (norm_eq_zero_iff b).mpr hb))]
        rfl
  · subst hp
    rw [hiseq]
    exact handle_run_ok hcalls (handleComplex_isEq insn s he hiseq (complexIsEq_eq _ _))

/-- A complex word that subtracts too much has no outcome. -/
theorem complex_not_yields {host : Host} (h1 : IsCustom1 insn F3_COMPLEX)
    (he : s.handler.complex[tableIdx insn]? = some entry) (hp : entry.modulus = p)
    (hu : ComplexUnderflows (tableOp insn) p (leftPair insn s entry.limbBytes)
      (rightPair insn s entry.limbBytes)) (o : Outcome) : ¬Yields host insn s o := by
  have hcalls : Calls host insn (handleComplex insn) := calls_complex h1
  subst hp
  obtain ⟨hop, hlt⟩ | ⟨hop, hnorm, hlt⟩ := hu
  · have hm := handleComplex_performs insn s he (.inr (.inl hop))
    obtain ⟨message, hpanic⟩ := (complexSub_panicsWhen _ _).panics hlt
    refine not_yields_of_panic hcalls hm ⟨message, ?_⟩ o
    rw [hop]
    show (do let r ← some <$> complexSub _ _ _; _) = _
    rw [hpanic]
    rfl
  · have hm := handleComplex_performs insn s he (.inr (.inr (.inr hop)))
    obtain ⟨message, hpanic⟩ := (complexDiv_panicsWhen (leftPair insn s entry.limbBytes) _).panics
      ⟨mt (norm_eq_zero_iff (p := entry.modulus) _).mp hnorm, hlt⟩
    refine not_yields_of_panic hcalls hm ⟨message, ?_⟩ o
    rw [hop]
    show (do let r ← complexDiv _ _ _; _) = _
    rw [hpanic]
    rfl

end Complex

end OpenvmSim.Precompiles
