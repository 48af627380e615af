import OpenvmSim.Precompiles.FieldWords
import OpenvmSim.Precompiles.SquareRoots

/-! The searches for a non-residue.

HintNonQr of a curve and `tonelli_shanks` count up from two until Euler's criterion says that
they have found a non-residue. They stop at the least one, which is below the modulus, so that
it fits wherever the modulus does. -/
namespace OpenvmSim.Precompiles
open Rv32im

/-- The coordinates of a shipped curve have room for its modulus. -/
theorem fits_of_mem_defaultCurves {curve : CurveEntry} (h : curve ∈ defaultCurves) :
    curve.modulus ≤ 256 ^ curve.coordBytes := by
  revert curve
  decide

section Word
variable {p z : ℕ} [Fact p.Prime] {insn : Word} {s : Machine} {curve : CurveEntry}

/-- HintNonQr writes the least non-residue as it is. -/
theorem swNonQr_writes (host : Host) (hodd : p ≠ 2) (hz : IsLeastNonresidue p z) (hlt : z < p)
    (h1 : IsCustom1 insn F3_SW) (he : s.handler.curves[tableIdx insn]? = some curve)
    (hp : curve.modulus = p) (hop : tableOp insn = SW_HINT_NON_QR)
    (hfits : p ≤ 256 ^ curve.coordBytes) : Writes host insn s curve.coordBytes z := by
  refine writes_of_stored (hlt.trans_le hfits) ?_
  refine yields_stored (calls_sw h1) (handleSw_nonQr host insn s he hop) ?_
  rw [hp, leastNonQr_least hodd hz hlt]
  rfl

end Word

/-- **For every odd prime both searches end, at a number below it that is the least non-residue
from two on: the one of `tonelli_shanks` whenever it is reached, and the one of HintNonQr, which
writes it without loss wherever the modulus fits the coordinates, as it does for the shipped
curves.** -/
theorem least_nonresidue {p : ℕ} (hp : p.Prime) (hodd : p ≠ 2) :
    ∃ z < p, IsLeastNonresidue p z ∧ leastNonQr p = .ok z ∧
      nonResidueLoop p ((p - 1) >>> 1) (p - 1) p 2 = .ok z ∧
      (∀ (host : Host) (n : ℕ), (n : ZMod p) ≠ 0 → IsSquare (n : ZMod p) →
        tonelliShanks host n p = (do
          let (q, s) ← splitTwos (p - 1) (p - 1) 0
          tonelliLoop host p (s + p + 2) s (powMod p z q) (powMod p n q)
            (powMod p n ((q + 1) >>> 1)))) ∧
      (∀ (host : Host) (insn : Word) (s : Machine) (curve : CurveEntry),
        IsCustom1 insn F3_SW → s.handler.curves[tableIdx insn]? = some curve →
        curve.modulus = p → tableOp insn = SW_HINT_NON_QR → p ≤ 256 ^ curve.coordBytes →
        Writes host insn s curve.coordBytes z) ∧
      ∀ curve ∈ defaultCurves, curve.modulus = p → p ≤ 256 ^ curve.coordBytes := by
  have : Fact p.Prime := ⟨hp⟩
  obtain ⟨z, hlt, hz⟩ := exists_isLeastNonresidue hodd
  exact ⟨z, hlt, hz, leastNonQr_least hodd hz hlt, nonResidueLoop_least hodd hz hlt,
    fun host n hn0 hsq => tonelliShanks_of_square host hodd hn0 hsq hz hlt,
    fun host insn s curve h1 he hm hop => swNonQr_writes host hodd hz hlt h1 he hm hop,
    fun curve hc hm => hm ▸ fits_of_mem_defaultCurves hc⟩

/-- Two is a square modulo seven, three is not. -/
theorem least_nonresidue_seven : ∃ z, leastNonQr 7 = .ok z ∧ z = 3 := by
  obtain ⟨z, -, -, hz, -⟩ := least_nonresidue (by decide : Nat.Prime 7) (by decide)
  have hthree : leastNonQr 7 = .ok 3 := by decide +kernel
  cases hz.symm.trans hthree
  exact ⟨3, hz, rfl⟩

end OpenvmSim.Precompiles
