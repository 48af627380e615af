import Mathlib.AlgebraicGeometry.EllipticCurve.Affine.Point
import OpenvmSim.Precompiles.CurveArith
import OpenvmSim.Precompiles.FieldWords
import OpenvmSim.Precompiles.Primes

/-! The curve words in the group of the curve.

An entry of the curve table is a Weierstrass curve over `ZMod p`. AddNe and Double store the
coordinates of the sum that the addition formulas of the curve give. -/
namespace OpenvmSim.Precompiles
open Rv32im WeierstrassCurve.Affine

/-! ### The curve -/

/-- The curve `y ^ 2 = x ^ 3 + a x + b`. -/
def CurveEntry.weierstrass (curve : CurveEntry) : WeierstrassCurve.Affine (ZMod curve.modulus) where
  a₁ := 0
  a₂ := 0
  a₃ := 0
  a₄ := curve.a
  a₆ := curve.b

/-- The coordinates satisfy the curve equation modulo the prime. -/
def OnCurve (curve : CurveEntry) (p1 : Point) : Prop :=
  p1.2 ^ 2 ≡ p1.1 ^ 3 + curve.a * p1.1 + curve.b [MOD curve.modulus]

instance (curve : CurveEntry) (p1 : Point) : Decidable (OnCurve curve p1) :=
  inferInstanceAs (Decidable (_ ≡ _ [MOD _]))

theorem onCurve_iff (curve : CurveEntry) (p1 : Point) :
    OnCurve curve p1 ↔ curve.weierstrass.Equation (p1.1 : ZMod curve.modulus) p1.2 := by
  rw [OnCurve, ← ZMod.natCast_eq_natCast_iff, equation_iff]
  push_cast [CurveEntry.weierstrass]
  ring_nf

/-! ### Sums -/

/-- `r` has the canonical coordinates of the sum of two points: those of the addition formulas
and, where the points are not singular, those of their sum in the group. -/
structure IsSum (curve : CurveEntry) [Fact curve.modulus.Prime] (p1 p2 r : Point) : Prop where
  x_lt : r.1 < curve.modulus
  y_lt : r.2 < curve.modulus
  onCurve : OnCurve curve r
  x_eq : (r.1 : ZMod curve.modulus) =
    curve.weierstrass.addX p1.1 p2.1 (curve.weierstrass.slope p1.1 p2.1 p1.2 p2.2)
  y_eq : (r.2 : ZMod curve.modulus) =
    curve.weierstrass.addY p1.1 p2.1 p1.2 (curve.weierstrass.slope p1.1 p2.1 p1.2 p2.2)
  sum : ∀ (h1 : curve.weierstrass.Nonsingular (p1.1 : ZMod curve.modulus) p1.2)
    (h2 : curve.weierstrass.Nonsingular (p2.1 : ZMod curve.modulus) p2.2),
    ∃ hr : curve.weierstrass.Nonsingular (r.1 : ZMod curve.modulus) r.2,
      Point.some _ _ h1 + Point.some _ _ h2 = Point.some _ _ hr

section Sums
variable {curve : CurveEntry} [Fact curve.modulus.Prime] {p1 p2 : Point}

/-- The third point on a line is the sum, if the line has the slope of the curve. -/
theorem thirdPoint_eq (lam : ZMod curve.modulus) (p1 p2 : Point) :
    thirdPoint lam (castPoint curve.modulus p1) (p2.1 : ZMod curve.modulus) =
      (curve.weierstrass.addX p1.1 p2.1 lam, curve.weierstrass.addY p1.1 p2.1 p1.2 lam) := by
  simp only [thirdPoint, castPoint, addX, addY, negAddY, negY, CurveEntry.weierstrass]
  ext
  · ring
  · ring

theorem chordSlope_eq (h : (p1.1 : ZMod curve.modulus) ≠ p2.1) :
    chordSlope (castPoint curve.modulus p1) (castPoint curve.modulus p2) =
      curve.weierstrass.slope p1.1 p2.1 p1.2 p2.2 := by
  rw [slope_of_X_ne h, ← neg_div_neg_eq, neg_sub, neg_sub, div_eq_mul_inv]
  rfl

theorem tangentSlope_eq (h : (p1.2 : ZMod curve.modulus) ≠ curve.weierstrass.negY p1.1 p1.2) :
    tangentSlope (curve.a : ZMod curve.modulus) (castPoint curve.modulus p1) =
      curve.weierstrass.slope p1.1 p1.1 p1.2 p1.2 := by
  rw [slope_of_Y_ne rfl h, tangentSlope, div_eq_mul_inv]
  simp only [castPoint, negY, CurveEntry.weierstrass]
  ring_nf

/-- The point that the addition formulas give is a sum. -/
theorem isSum_thirdPoint (h1 : OnCurve curve p1) (h2 : OnCurve curve p2)
    (hne : ¬((p1.1 : ZMod curve.modulus) = p2.1 ∧
      (p1.2 : ZMod curve.modulus) = curve.weierstrass.negY p2.1 p2.2)) :
    IsSum curve p1 p2 (pointOf (thirdPoint (curve.weierstrass.slope p1.1 p2.1 p1.2 p2.2)
      (castPoint curve.modulus p1) p2.1)) := by
  rw [thirdPoint_eq]
  have heq := equation_add ((onCurve_iff curve p1).mp h1) ((onCurve_iff curve p2).mp h2) hne
  constructor
  · exact ZMod.val_lt _
  · exact ZMod.val_lt _
  · rw [onCurve_iff, pointOf, ZMod.natCast_zmod_val, ZMod.natCast_zmod_val]
    exact heq
  · exact ZMod.natCast_zmod_val _
  · exact ZMod.natCast_zmod_val _
  · intro hs1 hs2
    have hr := nonsingular_add hs1 hs2 hne
    simp only [pointOf, ZMod.natCast_zmod_val]
    exact ⟨hr, Point.add_some hne⟩

end Sums

/-! ### The words -/

section Words
variable {host : Host} {insn : Word} {s : Machine} {curve : CurveEntry}
variable (hlt : curve.modulus < 256 ^ curve.coordBytes)
variable (h1 : IsCustom1 insn F3_SW) (he : s.handler.curves[tableIdx insn]? = some curve)
include hlt h1 he

theorem addNe_writes [Fact curve.modulus.Prime] (hop : tableOp insn = SW_ADD_NE)
    (hP : OnCurve curve (leftPair insn s curve.coordBytes))
    (hQ : OnCurve curve (rightPair insn s curve.coordBytes))
    (hne : ¬(leftPair insn s curve.coordBytes).1 ≡ (rightPair insn s curve.coordBytes).1
      [MOD curve.modulus]) :
    ∃ r, IsSum curve (leftPair insn s curve.coordBytes) (rightPair insn s curve.coordBytes) r ∧
      WritesPair host insn s curve.coordBytes r := by
  have hm := handleSw_addNe host insn s he hop
  generalize leftPair insn s curve.coordBytes = p1 at hm hP hne ⊢
  generalize rightPair insn s curve.coordBytes = p2 at hm hQ hne ⊢
  have hx : (p1.1 : ZMod curve.modulus) ≠ p2.1 := mt (ZMod.natCast_eq_natCast_iff _ _ _).mp hne
  have hsum := isSum_thirdPoint hP hQ fun h => hx h.1
  refine ⟨_, hsum, writesPair_of_stored (hsum.x_lt.trans hlt) (hsum.y_lt.trans hlt) ?_⟩
  refine yields_stored (calls_sw h1) hm ?_
  rw [addNe_eq rfl hx, chordSlope_eq hx]
  rfl

theorem double_writes [Fact curve.modulus.Prime] (hodd : curve.modulus ≠ 2)
    (hop : tableOp insn = SW_DOUBLE) (hP : OnCurve curve (leftPair insn s curve.coordBytes))
    (hne : ¬(leftPair insn s curve.coordBytes).2 ≡ 0 [MOD curve.modulus]) :
    ∃ r, IsSum curve (leftPair insn s curve.coordBytes) (leftPair insn s curve.coordBytes) r ∧
      WritesPair host insn s curve.coordBytes r := by
  have hm := handleSw_double host insn s he hop
  generalize leftPair insn s curve.coordBytes = p1 at hm hP hne ⊢
  have hy : (p1.2 : ZMod curve.modulus) ≠ 0 := by
    rw [← Nat.cast_zero]
    exact mt (ZMod.natCast_eq_natCast_iff _ _ _).mp hne
  have htwo : (2 : ZMod curve.modulus) * p1.2 ≠ 0 := mul_ne_zero (two_ne_zero_of_odd hodd) hy
  have hneg : (p1.2 : ZMod curve.modulus) ≠ curve.weierstrass.negY p1.1 p1.2 := by
    intro h
    rw [negY, CurveEntry.weierstrass] at h
    refine htwo ?_
    linear_combination h
  have hsum := isSum_thirdPoint hP hP fun h => hneg h.2
  refine ⟨_, hsum, writesPair_of_stored (hsum.x_lt.trans hlt) (hsum.y_lt.trans hlt) ?_⟩
  refine yields_stored (calls_sw h1) hm ?_
  rw [double_eq rfl htwo, tangentSlope_eq hneg]
  rfl

end Words

/-- **The group law.** For every curve entry with an odd prime modulus below `256 ^ n` and all
operands on the curve, reduced or not, AddNe of points that differ in `x` and Double of a point
with `y` not zero store canonical coordinates that are on the curve and are those of the sum. -/
theorem curve_group_law (host : Host) (insn : Word) (s : Machine) {curve : CurveEntry}
    [Fact curve.modulus.Prime] (hodd : curve.modulus ≠ 2)
    (hlt : curve.modulus < 256 ^ curve.coordBytes) (h1 : IsCustom1 insn F3_SW)
    (he : s.handler.curves[tableIdx insn]? = some curve)
    (hP : OnCurve curve (leftPair insn s curve.coordBytes)) :
    (tableOp insn = SW_ADD_NE → OnCurve curve (rightPair insn s curve.coordBytes) →
      ¬(leftPair insn s curve.coordBytes).1 ≡ (rightPair insn s curve.coordBytes).1
        [MOD curve.modulus] →
      ∃ r, IsSum curve (leftPair insn s curve.coordBytes) (rightPair insn s curve.coordBytes) r ∧
        WritesPair host insn s curve.coordBytes r) ∧
    (tableOp insn = SW_DOUBLE → ¬(leftPair insn s curve.coordBytes).2 ≡ 0 [MOD curve.modulus] →
      ∃ r, IsSum curve (leftPair insn s curve.coordBytes) (leftPair insn s curve.coordBytes) r ∧
        WritesPair host insn s curve.coordBytes r) :=
  ⟨fun hop hQ hne => addNe_writes hlt h1 he hop hP hQ hne,
    fun hop hne => double_writes hlt h1 he hodd hop hP hne⟩

/-! ### A generator -/

/-- Double of the point at address zero on the first curve of the default table. -/
def doubleWord : Word := SW_DOUBLE <<< 25 ||| F3_SW <<< 12 ||| OPCODE_CUSTOM_1

/-- A machine with the generator `(1, 2)` at address zero. -/
def generatorMachine : Machine := Sim.blank.store 0#32 (pairBytes 32 (1, 2))

theorem leftPair_generatorMachine : leftPair doubleWord generatorMachine 32 = (1, 2) := by
  have hload : generatorMachine.cpu.mem.readVec 0#32 64 = pairBytes 32 (1, 2) := by
    rw [Memory.readVec_eq_load, generatorMachine, Sim.mem_store, Memory.bytes_writeSlice]
    exact Flat.load_overlay _ _ _ (by rw [length_pairBytes]; decide)
  have hptr : generatorMachine.cpu.readReg (rs1 doubleWord) = 0#32 := rfl
  rw [leftPair, hptr, readPair_eq, hload, pairOf_pairBytes (by decide) (by decide)]

theorem curve_group_law_generator : ∃ r, IsSum bn254G1 (1, 2) (1, 2) r ∧
    WritesPair Host.constant doubleWord generatorMachine 32 r := by
  have he : generatorMachine.handler.curves[tableIdx doubleWord]? = some bn254G1 := rfl
  have hleft : leftPair doubleWord generatorMachine bn254G1.coordBytes = (1, 2) :=
    leftPair_generatorMachine
  have hP : OnCurve bn254G1 (leftPair doubleWord generatorMachine bn254G1.coordBytes) := by
    rw [hleft]
    decide
  have hy : ¬(leftPair doubleWord generatorMachine bn254G1.coordBytes).2 ≡ 0
      [MOD bn254G1.modulus] := by
    rw [hleft]
    decide
  have h := (curve_group_law Host.constant doubleWord generatorMachine (by decide)
    (by decide) (by decide) he hP).2 (by decide) hy
  rw [hleft] at h
  exact h

end OpenvmSim.Precompiles
