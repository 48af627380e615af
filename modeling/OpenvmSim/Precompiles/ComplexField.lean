import Mathlib.NumberTheory.LegendreSymbol.Basic
import OpenvmSim.Precompiles.Congruence

/-! The complex table as the field `Fp2`.

Modulo a prime that is three modulo four `-1` has no root, so that `X ^ 2 + 1` is irreducible
and only zero has norm zero. -/
namespace OpenvmSim.Precompiles
open Rv32im

/-! ### The field -/

section Field
variable {p : ℕ} [Fact p.Prime]

theorem sq_ne_neg_one (h4 : p % 4 = 3) (r : ZMod p) : r ^ 2 ≠ -1 + 0 * r := by
  intro hr
  rw [zero_mul, add_zero, pow_two] at hr
  exact ZMod.exists_sq_eq_neg_one_iff.mp ⟨r, hr.symm⟩ h4

theorem isField_fq2 (h4 : p % 4 = 3) : IsField (Ark.Fq2 p) := by
  have : Fact (∀ r : ZMod p, r ^ 2 ≠ -1 + 0 * r) := ⟨sq_ne_neg_one h4⟩
  exact Field.toIsField (QuadraticAlgebra (ZMod p) (-1) 0)

theorem norm_ne_zero (h4 : p % 4 = 3) {x : Ark.Fq2 p} (hx : x ≠ 0) :
    QuadraticAlgebra.norm x ≠ 0 := by
  have : Fact (∀ r : ZMod p, r ^ 2 ≠ -1 + 0 * r) := ⟨sq_ne_neg_one h4⟩
  exact mt QuadraticAlgebra.norm_eq_zero_iff_eq_zero.mp hx

/-- There is no other quotient. -/
theorem eq_quotient (h4 : p % 4 = 3) {x y q : Ark.Fq2 p} (hy : y ≠ 0) (h : q * y = x) :
    q = quotient x y := by
  have : Fact (∀ r : ZMod p, r ^ 2 ≠ -1 + 0 * r) := ⟨sq_ne_neg_one h4⟩
  have hq := quotient_mul (x := x) (norm_ne_zero h4 hy)
  exact mul_right_cancel₀ hy (h.trans hq.symm)

end Field

/-! ### Canonical pairs -/

/-- Both components are below the modulus. -/
def Canonical (p : ℕ) (v : Pair) : Prop := v.1 < p ∧ v.2 < p

section Canonical
variable {p : ℕ}

theorem Canonical.pairOfFq2_toFq2 {v : Pair} (h : Canonical p v) : pairOfFq2 (v.toFq2 p) = v :=
  Prod.ext (ZMod.val_cast_of_lt h.1) (ZMod.val_cast_of_lt h.2)

theorem Canonical.eq_of_toFq2 {v w : Pair} (hv : Canonical p v) (hw : Canonical p w)
    (h : v.toFq2 p = w.toFq2 p) : v = w := by
  rw [← hv.pairOfFq2_toFq2, ← hw.pairOfFq2_toFq2, h]

theorem canonical_pairOfFq2 [NeZero p] (x : Ark.Fq2 p) : Canonical p (pairOfFq2 x) :=
  pairOfFq2_lt x

theorem Canonical.toFq2_eq_zero_iff [NeZero p] {v : Pair} (h : Canonical p v) :
    v.toFq2 p = 0 ↔ v = (0, 0) := by
  have hzero : Pair.toFq2 p (0, 0) = 0 := by
    ext
    · exact Nat.cast_zero
    · exact Nat.cast_zero
  have hp : Canonical p (0, 0) := ⟨Nat.pos_of_neZero p, Nat.pos_of_neZero p⟩
  constructor
  · exact fun hv => h.eq_of_toFq2 hp (hv.trans hzero.symm)
  · rintro rfl
    exact hzero

end Canonical

/-! ### The words -/

/-- The word writes the canonical components of `x`. -/
def WritesElement (host : Host) (insn : Word) (s : Machine) (n : ℕ) {p : ℕ} (x : Ark.Fq2 p) :
    Prop :=
  ∃ v : Pair, Canonical p v ∧ v.toFq2 p = x ∧ WritesPair host insn s n v

/-- The word divides by an entry of the complex table. -/
structure IsComplexDiv (insn : Word) (s : Machine) (entry : ModulusEntry) : Prop where
  custom : IsCustom1 insn F3_COMPLEX
  op : tableOp insn = MOD_DIV
  table : s.handler.complex[tableIdx insn]? = some entry

/-- The product `ab` of a multiplication by `b` is what a division by `b` turns back into `a`, on
any machine that has it as its left operand; and where it fits into the address space, it is
what is read back at `[rd]`. -/
structure Divisible (host : Host) (insn : Word) (s : Machine) (entry : ModulusEntry)
    (a b ab : Pair) : Prop where
  writes : WritesPair host insn s entry.limbBytes ab
  divides : ∀ (host' : Host) (div : Word) (s' : Machine), IsComplexDiv div s' entry →
    leftPair div s' entry.limbBytes = ab → rightPair div s' entry.limbBytes = b →
    WritesPair host' div s' entry.limbBytes a
  readBack : 2 * entry.limbBytes ≤ 2 ^ 32 → ∀ s₁,
    (handle host insn).run s = .ok .continue s₁ →
    readPair s₁.cpu.mem (s.cpu.readReg (rd insn)) entry.limbBytes = ab

/-- The words of an entry are the operations of `Fp2`. Products need no reduced operands. -/
structure ImplementsFq2 (host : Host) (insn : Word) (s : Machine) (entry : ModulusEntry)
    (a b : Pair) : Prop where
  add : tableOp insn = MOD_ADD → Canonical entry.modulus a → Canonical entry.modulus b →
    WritesElement host insn s entry.limbBytes (a.toFq2 entry.modulus + b.toFq2 entry.modulus)
  sub : tableOp insn = MOD_SUB → Canonical entry.modulus a → Canonical entry.modulus b →
    WritesElement host insn s entry.limbBytes (a.toFq2 entry.modulus - b.toFq2 entry.modulus)
  mul : tableOp insn = MOD_MUL →
    WritesElement host insn s entry.limbBytes (a.toFq2 entry.modulus * b.toFq2 entry.modulus)
  divError : tableOp insn = MOD_DIV → Canonical entry.modulus a → Canonical entry.modulus b →
    (Yields host insn s .rejected ↔ b = (0, 0))
  div : tableOp insn = MOD_DIV → Canonical entry.modulus a → Canonical entry.modulus b →
    b ≠ (0, 0) → ∃ q : Pair, Canonical entry.modulus q ∧
      q.toFq2 entry.modulus * b.toFq2 entry.modulus = a.toFq2 entry.modulus ∧
      (∀ q' : Pair, Canonical entry.modulus q' →
        q'.toFq2 entry.modulus * b.toFq2 entry.modulus = a.toFq2 entry.modulus → q' = q) ∧
      WritesPair host insn s entry.limbBytes q
  mulDiv : tableOp insn = MOD_MUL → Canonical entry.modulus a → Canonical entry.modulus b →
    b ≠ (0, 0) → ∃ ab : Pair, Divisible host insn s entry a b ab

section Words
variable {host : Host} {insn : Word} {s : Machine} {entry : ModulusEntry}
  [Fact entry.modulus.Prime]

theorem writesPair_pairOfFq2 {x : Ark.Fq2 entry.modulus}
    (hlt : entry.modulus < 256 ^ entry.limbBytes)
    (h : Yields host insn s (.stored (pairBytes entry.limbBytes (pairOfFq2 x)))) :
    WritesPair host insn s entry.limbBytes (pairOfFq2 x) :=
  writesPair_of_stored ((pairOfFq2_lt x).1.trans hlt) ((pairOfFq2_lt x).2.trans hlt) h

theorem writesElement_of_stored {x : Ark.Fq2 entry.modulus}
    (hlt : entry.modulus < 256 ^ entry.limbBytes)
    (h : Yields host insn s (.stored (pairBytes entry.limbBytes (pairOfFq2 x)))) :
    WritesElement host insn s entry.limbBytes x :=
  ⟨pairOfFq2 x, canonical_pairOfFq2 x, toFq2_pairOfFq2 x, writesPair_pairOfFq2 hlt h⟩

/-- Reduced operands are never too large to be subtracted. -/
theorem not_complexUnderflows {op : Word} {p : ℕ} {a b : Pair} (hb : Canonical p b) :
    ¬ComplexUnderflows op p a b := by
  obtain ⟨h1, h2⟩ := hb
  rintro (⟨-, h | h⟩ | ⟨-, -, h⟩)
  · omega
  · omega
  · omega

theorem mul_not_complexUnderflows {op : Word} {p : ℕ} {a b : Pair} (hop : op = MOD_MUL) :
    ¬ComplexUnderflows op p a b := by
  subst hop
  rintro (⟨h, -⟩ | ⟨h, -⟩)
  · exact absurd h (by decide)
  · exact absurd h (by decide)

/-- What a word that has written a pair leaves at `[rd]`. -/
theorem readPair_of_writes {n : ℕ} {v : Pair} {s₁ : Machine} (hn : 2 * n ≤ 2 ^ 32)
    (h : WritesPair host insn s n v) (hrun : (handle host insn).run s = .ok .continue s₁) :
    readPair s₁.cpu.mem (s.cpu.readReg (rd insn)) n = v := by
  obtain ⟨bs, hlen, hv, hy⟩ := h
  obtain rfl : advanced s.cpu.pc (s.store (s.cpu.readReg (rd insn)) bs) = s₁ := by
    cases hy.symm.trans hrun
    rfl
  have hload := Flat.load_overlay s.cpu.mem.bytes (s.cpu.readReg (rd insn)) bs (hlen ▸ hn)
  rw [hlen, two_mul, Flat.load_add] at hload
  have hcut := List.append_inj (hload.trans (List.take_append_drop n bs).symm) (by
    rw [Flat.length_load, List.length_take]
    omega)
  rw [← hv, pairOf, ← hcut.1, ← hcut.2, readPair, readLe, readLe, Memory.readVec_eq_load,
    Memory.readVec_eq_load, mem_advanced, Sim.mem_store, Memory.bytes_writeSlice]

variable (h1 : IsCustom1 insn F3_COMPLEX) (he : s.handler.complex[tableIdx insn]? = some entry)
  (hlt : entry.modulus < 256 ^ entry.limbBytes)
include h1 he

theorem div_rejected (hop : tableOp insn = MOD_DIV)
    (hb : rightPair insn s entry.limbBytes = (0, 0)) : Yields host insn s .rejected := by
  have hcanon : Canonical entry.modulus (rightPair insn s entry.limbBytes) :=
    hb ▸ ⟨Nat.pos_of_neZero _, Nat.pos_of_neZero _⟩
  have hy := complex_yields host h1 he rfl (.inl (.inr (.inr (.inr hop))))
    (not_complexUnderflows hcanon)
  rw [hop, hcanon.toFq2_eq_zero_iff.mpr hb] at hy
  rwa [complexOutcome, if_neg (by decide), if_neg (by decide), if_neg (by decide), if_pos rfl,
    if_pos QuadraticAlgebra.norm_zero] at hy

include hlt

theorem fq2_div_writes (h4 : entry.modulus % 4 = 3) (hop : tableOp insn = MOD_DIV)
    (hcanon : Canonical entry.modulus (rightPair insn s entry.limbBytes))
    (hb : rightPair insn s entry.limbBytes ≠ (0, 0)) :
    WritesPair host insn s entry.limbBytes (pairOfFq2 (quotient
      ((leftPair insn s entry.limbBytes).toFq2 entry.modulus)
      ((rightPair insn s entry.limbBytes).toFq2 entry.modulus))) := by
  have hy := complex_yields host h1 he rfl (.inl (.inr (.inr (.inr hop))))
    (not_complexUnderflows hcanon)
  rw [hop] at hy
  rw [complexOutcome, if_neg (by decide), if_neg (by decide), if_neg (by decide), if_pos rfl,
    if_neg (norm_ne_zero h4 (mt hcanon.toFq2_eq_zero_iff.mp hb))] at hy
  exact writesPair_pairOfFq2 hlt hy

theorem mul_writes (hop : tableOp insn = MOD_MUL) :
    WritesPair host insn s entry.limbBytes (pairOfFq2
      ((leftPair insn s entry.limbBytes).toFq2 entry.modulus *
        (rightPair insn s entry.limbBytes).toFq2 entry.modulus)) := by
  have hy := complex_yields host h1 he rfl (.inl (.inr (.inr (.inl hop))))
    (mul_not_complexUnderflows hop)
  rw [hop] at hy
  exact writesPair_pairOfFq2 hlt hy

/-- Multiplied by `b` and divided by `b`. -/
theorem divisible (h4 : entry.modulus % 4 = 3) (hop : tableOp insn = MOD_MUL)
    (ha : Canonical entry.modulus (leftPair insn s entry.limbBytes))
    (hb : Canonical entry.modulus (rightPair insn s entry.limbBytes))
    (hne : rightPair insn s entry.limbBytes ≠ (0, 0)) :
    Divisible host insn s entry (leftPair insn s entry.limbBytes)
      (rightPair insn s entry.limbBytes) (pairOfFq2
        ((leftPair insn s entry.limbBytes).toFq2 entry.modulus *
          (rightPair insn s entry.limbBytes).toFq2 entry.modulus)) where
  writes := mul_writes h1 he hlt hop
  divides host' div s' hdiv hleft hright := by
    have hy : WritesPair host' div s' entry.limbBytes _ :=
      fq2_div_writes hdiv.custom hdiv.table hlt h4 hdiv.op (hright ▸ hb) (hright ▸ hne)
    rw [hleft, hright, toFq2_pairOfFq2,
      ← eq_quotient h4 (mt hb.toFq2_eq_zero_iff.mp hne) rfl, ha.pairOfFq2_toFq2] at hy
    exact hy
  readBack hn s₁ := readPair_of_writes hn (mul_writes h1 he hlt hop)

end Words

/-- The words of a complex entry whose prime is three modulo four are the operations of the field
`Fp2`. -/
theorem complex_field (host : Host) (insn : Word) (s : Machine) {entry : ModulusEntry}
    (hp : entry.modulus.Prime) (h4 : entry.modulus % 4 = 3)
    (hlt : entry.modulus < 256 ^ entry.limbBytes) (h1 : IsCustom1 insn F3_COMPLEX)
    (he : s.handler.complex[tableIdx insn]? = some entry) :
    IsField (Ark.Fq2 entry.modulus) ∧ ImplementsFq2 host insn s entry
      (leftPair insn s entry.limbBytes) (rightPair insn s entry.limbBytes) := by
  have : Fact entry.modulus.Prime := ⟨hp⟩
  refine ⟨isField_fq2 h4, ⟨fun hop ha hb => ?_, fun hop ha hb => ?_, fun hop => ?_,
    fun hop ha hb => ⟨fun hy => ?_, div_rejected h1 he hop⟩, fun hop ha hb hne => ?_,
    fun hop ha hb hne => ⟨_, divisible h1 he hlt h4 hop ha hb hne⟩⟩⟩
  · have hy := complex_yields host h1 he rfl (.inl (.inl hop)) (not_complexUnderflows hb)
    rw [hop] at hy
    exact writesElement_of_stored hlt hy
  · have hy := complex_yields host h1 he rfl (.inl (.inr (.inl hop))) (not_complexUnderflows hb)
    rw [hop] at hy
    exact writesElement_of_stored hlt hy
  · exact ⟨_, canonical_pairOfFq2 _, toFq2_pairOfFq2 _, mul_writes h1 he hlt hop⟩
  · by_contra hne
    have hw : WritesPair host insn s entry.limbBytes _ := fq2_div_writes h1 he hlt h4 hop hb hne
    obtain ⟨bs, -, -, hstored⟩ := hw
    exact not_rejected_of_ok hstored hy
  · have hnorm := norm_ne_zero h4 (mt hb.toFq2_eq_zero_iff.mp hne)
    refine ⟨_, canonical_pairOfFq2 _, ?_, fun q' hq' hmul => ?_,
      fq2_div_writes h1 he hlt h4 hop hb hne⟩
    · rw [toFq2_pairOfFq2, quotient_mul hnorm]
    · rw [← hq'.pairOfFq2_toFq2, eq_quotient h4 (mt hb.toFq2_eq_zero_iff.mp hne) hmul]

/-- DIV of the operand at address zero by itself, in the first entry of the default table. -/
def complexDivWord : Word := MOD_DIV <<< 25 ||| F3_COMPLEX <<< 12 ||| OPCODE_CUSTOM_1

def bn254Fp2Entry : ModulusEntry := { name := "bn254_fp2", limbBytes := 32, modulus := bn254Fp }

/-- A machine with `2 + 3 X` at address zero. -/
def elementMachine : Machine := (Sim.blank.store 0#32 [2#8]).store 32#32 [3#8]

theorem complex_field_self : ∃ q : Pair, Canonical bn254Fp q ∧
    q.toFq2 bn254Fp * Pair.toFq2 bn254Fp (2, 3) = Pair.toFq2 bn254Fp (2, 3) ∧
    WritesPair Host.constant complexDivWord elementMachine 32 q := by
  have hleft : leftPair complexDivWord elementMachine 32 = (2, 3) := by decide
  have hright : rightPair complexDivWord elementMachine 32 = (2, 3) := by decide
  have hcanon : Canonical bn254Fp (2, 3) := by unfold Canonical; decide
  have h := (@complex_field Host.constant complexDivWord elementMachine bn254Fp2Entry
    prime_bn254Fp (by decide) (by decide) (by decide) rfl).2.div (by decide)
    (hleft ▸ hcanon) (hright ▸ hcanon) (hright ▸ by decide)
  obtain ⟨q, hq, hmul, -, hw⟩ := h
  rw [show rightPair complexDivWord elementMachine bn254Fp2Entry.limbBytes = (2, 3) from hright,
    show leftPair complexDivWord elementMachine bn254Fp2Entry.limbBytes = (2, 3) from hleft] at hmul
  exact ⟨q, hq, hmul, hw⟩

end OpenvmSim.Precompiles
