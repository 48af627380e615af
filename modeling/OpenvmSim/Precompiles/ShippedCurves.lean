import OpenvmSim.Base.CubicRoots
import OpenvmSim.Precompiles.Decompress
import OpenvmSim.Precompiles.FieldWords
import OpenvmSim.Precompiles.Panics

/-! Point decompression on the curves of the default table.

The negated root is taken as `p - y`, which is reduced because `y` is not zero: the right side of
the curve equation has no root modulo any of the four primes. -/
namespace OpenvmSim.Precompiles
open Rv32im

/-! ### The right side is never zero -/

/-- An inverse of `X ^ p - X` modulo the right side, for each curve of the default table. -/
def rootCertificate : List Remainder :=
  [ ⟨0, 0, 21888242871839275222001521246907483764094244074761627882580784643658536691698⟩,
    ⟨0, 0, 46758632835564736012269203954919337884311706168562511263687580192619680188360⟩,
    ⟨76626890310466861426869089647039036757962535851890885406097439786770458211455,
      74462945259064871768191128030512052509059297803194871526163573358218695456204,
      34768139465301476436978405170953382516735956999154666452188405812258086013549⟩,
    ⟨0, 0,
      1000602388805416848288324173873208079754105729848633517411273972340919538205171425491731769859297557207743673838251⟩ ]

theorem rootCertificate_valid : ∀ curve ∈ defaultCurves, ∃ inv ∈ rootCertificate,
    Remainder.mul curve.modulus (curve.modulus - curve.a) (curve.modulus - curve.b)
      (Remainder.fixed curve.modulus (curve.modulus - curve.a) (curve.modulus - curve.b)) inv =
      ⟨1, 0, 0⟩ := by
  decide +kernel

theorem coefficients_le : ∀ curve ∈ defaultCurves,
    curve.a ≤ curve.modulus ∧ curve.b ≤ curve.modulus ∧
      curve.modulus < 256 ^ curve.coordBytes := by
  decide

theorem curveRhs_ne_zero {curve : CurveEntry} (h : curve ∈ defaultCurves)
    (x : ZMod curve.modulus) : curveRhs curve.modulus curve x ≠ 0 := by
  have : Fact curve.modulus.Prime := ⟨(prime_of_mem_defaultCurves h).1⟩
  obtain ⟨inv, -, hinv⟩ := rootCertificate_valid curve h
  obtain ⟨ha, hb, -⟩ := coefficients_le curve h
  intro hzero
  refine Remainder.no_root hinv x ?_
  rw [Nat.cast_sub ha, Nat.cast_sub hb, ZMod.natCast_self]
  rw [curveRhs] at hzero
  linear_combination hzero

/-! ### Decompression -/

/-- **Decompression.** On a curve of the default table, for every `x` of the width of a coordinate
and every parity bit, HintDecompress returns: it stores the only reduced `y` of the parity with
`y ^ 2 = x ^ 3 + a x + b` modulo `p`, if the right side is a square, and reports an error and
changes nothing, if it is not. -/
theorem decompress_shipped (host : Host) (insn : Word) (s : Machine) {curve : CurveEntry}
    (hcurve : curve ∈ defaultCurves) (h1 : IsCustom1 insn F3_SW)
    (hop : tableOp insn = SW_HINT_DECOMPRESS)
    (he : s.handler.curves[tableIdx insn]? = some curve) :
    let rhs := leftOperand insn s curve.coordBytes ^ 3 +
      curve.a * leftOperand insn s curve.coordBytes + curve.b
    (IsSquare (rhs : ZMod curve.modulus) →
      ∃ y < curve.modulus, y ^ 2 ≡ rhs [MOD curve.modulus] ∧ y % 2 = parityOperand insn s ∧
        Writes host insn s curve.coordBytes y ∧
        ∀ y' < curve.modulus, y' ^ 2 ≡ rhs [MOD curve.modulus] →
          y' % 2 = parityOperand insn s → y' = y) ∧
    (¬IsSquare (rhs : ZMod curve.modulus) → Yields host insn s .rejected) := by
  obtain ⟨hp, hodd⟩ := prime_of_mem_defaultCurves hcurve
  obtain ⟨-, -, hlt⟩ := coefficients_le curve hcurve
  have : Fact curve.modulus.Prime := ⟨hp⟩
  have hodd' := hp.eq_two_or_odd.resolve_left hodd
  have hpar := parityOperand_lt insn s
  have hm := handleSw_decompress host insn s he hop
  generalize leftOperand insn s curve.coordBytes = x at hm ⊢
  intro rhs
  have hcast : (rhs : ZMod curve.modulus) = curveRhs curve.modulus curve x := natCast_rhs curve x
  rw [hcast]
  refine ⟨fun hsq => ?_, fun hsq => ?_⟩
  · obtain ⟨y, hy, hrun, hroot⟩ := decompress_square host rfl hodd
      (smallTwoPart_of_mem_defaultCurves hcurve) (parityOperand insn s) hsq
    have hy0 : y ≠ 0 := by
      rintro rfl
      rw [Nat.cast_zero, zero_pow two_ne_zero] at hroot
      exact curveRhs_ne_zero hcurve x hroot.symm
    have hlow := (parityRoot_lt_iff hy hpar).mpr fun h => hy0 h.1
    have hmod := parityRoot_mod hodd' hy hpar
    have hroot' : (parityRoot curve.modulus y (parityOperand insn s) : ZMod curve.modulus) ^ 2 =
        curveRhs curve.modulus curve x := (parityRoot_sq hy).trans hroot
    have hmodEq : ∀ v : ℕ, v ^ 2 ≡ rhs [MOD curve.modulus] ↔
        (v : ZMod curve.modulus) ^ 2 = curveRhs curve.modulus curve x := by
      intro v
      rw [← ZMod.natCast_eq_natCast_iff, Nat.cast_pow, hcast]
    refine ⟨_, hlow, (hmodEq _).mpr hroot', hmod, writes_of_stored (hlow.trans hlt) ?_, ?_⟩
    · refine yields_stored (calls_sw h1) hm ?_
      rw [hrun]
      rfl
    · intro y' hy' hsq' hpar'
      exact root_unique hodd' hlow hy' (((hmodEq y').mp hsq').trans hroot'.symm)
        (hpar'.trans hmod.symm)
  · refine yields_rejected (calls_sw h1) hm ?_
    rw [decompress_nonsquare host rfl hodd _ hsq]
    rfl

/-- HintDecompress of the coordinate at address zero with an even root, on the first curve. -/
def decompressWord : Word := SW_HINT_DECOMPRESS <<< 25 ||| F3_SW <<< 12 ||| OPCODE_CUSTOM_1

/-- A machine with the coordinate one at address zero. -/
def oneMachine : Machine := Sim.blank.store 0#32 (BigUint.bytesLe 1 32)

theorem leftOperand_oneMachine :
    leftOperand decompressWord oneMachine bn254G1.coordBytes = 1 :=
  (readLe_store _ 0#32 (BigUint.length_bytesLe 1 32) (by decide)).trans (toNat_bytesLe (by decide))

/-- The even root over one is two. -/
theorem decompress_shipped_one : Writes Host.constant decompressWord oneMachine 32 2 := by
  have hmem : bn254G1 ∈ defaultCurves := by decide
  have he : oneMachine.handler.curves[tableIdx decompressWord]? = some bn254G1 := rfl
  have hpar : parityOperand decompressWord oneMachine = 0 := rfl
  have h := (decompress_shipped Host.constant decompressWord oneMachine hmem (by decide) (by decide)
    he).1
  rw [leftOperand_oneMachine, hpar] at h
  obtain ⟨y, -, -, -, hwrites, hunique⟩ := h ⟨((2 : ℕ) : ZMod bn254G1.modulus), by
    rw [← Nat.cast_mul]
    rfl⟩
  rwa [← hunique 2 (by decide) rfl rfl] at hwrites

end OpenvmSim.Precompiles
