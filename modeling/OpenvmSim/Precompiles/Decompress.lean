import OpenvmSim.Precompiles.CurveArith
import OpenvmSim.Precompiles.SquareRoots

/-! Point decompression.

The right side of the curve equation is reduced, and a root of it is kept or negated for
its parity. -/
namespace OpenvmSim.Precompiles

section ParityRoot
variable {p y parity : ℕ}

/-- The root of the parity asked for. -/
def parityRoot (p y parity : ℕ) : ℕ := if y % 2 = parity then y else p - y

theorem parityRoot_le (hy : y < p) : parityRoot p y parity ≤ p := by
  rw [parityRoot]
  split
  · exact hy.le
  · exact Nat.sub_le p y

/-- The root is reduced, unless it is the zero of the wrong parity. -/
theorem parityRoot_lt_iff (hy : y < p) (hpar : parity < 2) :
    parityRoot p y parity < p ↔ ¬(y = 0 ∧ parity = 1) := by
  rw [parityRoot]
  split
  · omega
  · omega

theorem parityRoot_mod (hodd : p % 2 = 1) (hy : y < p) (hpar : parity < 2) :
    parityRoot p y parity % 2 = parity := by
  rw [parityRoot]
  split
  · assumption
  · omega

theorem parityRoot_sq (hy : y < p) : (parityRoot p y parity : ZMod p) ^ 2 = (y : ZMod p) ^ 2 := by
  rw [parityRoot]
  split
  · rfl
  · rw [Nat.cast_sub hy.le, ZMod.natCast_self, zero_sub, neg_sq]

end ParityRoot

section Rhs
variable {p : ℕ} [Fact p.Prime] {curve : CurveEntry}

/-- The right side of the curve equation. -/
def curveRhs (p : ℕ) (curve : CurveEntry) (x : ZMod p) : ZMod p := x ^ 3 + curve.a * x + curve.b

/-- The right side of the curve equation over a number. -/
theorem natCast_rhs (curve : CurveEntry) (x : ℕ) :
    ((x ^ 3 + curve.a * x + curve.b : ℕ) : ZMod curve.modulus) = curveRhs curve.modulus curve x := by
  rw [curveRhs]
  push_cast
  rfl

/-- Reduced roots of one number that is not zero have different parities. -/
theorem root_unique (hodd : p % 2 = 1) {y y' : ℕ} (hy : y < p) (hy' : y' < p)
    (hsq : (y' : ZMod p) ^ 2 = (y : ZMod p) ^ 2) (hpar : y' % 2 = y % 2) : y' = y := by
  obtain heq | hneg := sq_eq_sq_iff_eq_or_eq_neg.mp hsq
  · exact (natCast_eq_iff hy' hy).mp heq
  · -- the sum is a multiple of the odd modulus and even, hence zero
    have hsum : ((y' + y : ℕ) : ZMod p) = 0 := by rw [Nat.cast_add, hneg, neg_add_cancel]
    rw [ZMod.natCast_eq_zero_iff] at hsum
    obtain ⟨k, hk⟩ := hsum
    have hk2 : k < 2 := by
      by_contra hge
      have := Nat.mul_le_mul_left p (Nat.not_lt.mp hge)
      omega
    interval_cases k
    · omega
    · omega

/-- Decompression's choice between a root and its negative. -/
def chooseRoot (p parity : ℕ) : Option ℕ → Calc (Option ℕ)
  | none => pure none
  | some y => if y % 2 = parity then pure (some y) else some <$> BigUint.sub p y

omit [Fact p.Prime] in
theorem chooseRoot_some {y : ℕ} (hy : y ≤ p) (parity : ℕ) :
    chooseRoot p parity (some y) = .ok (some (parityRoot p y parity)) := by
  rw [chooseRoot, parityRoot]
  split
  · rfl
  · rw [BigUint.sub_of_le hy]
    rfl

theorem decompress_rhs (host : Host) (hp : curve.modulus = p) (x parity : ℕ) :
    decompress host curve x parity =
      tonelliShanks host (curveRhs p curve x).val p >>= chooseRoot p parity := by
  have hrhs : (x : ZMod p) * x * x + curve.a * x + curve.b = curveRhs p curve x := by
    rw [curveRhs]
    ring
  unfold decompress
  simp only [hp, rem_eq_val, Nat.cast_mul, Nat.cast_add, ZMod.natCast_zmod_val, ok_bind, hrhs]
  rfl

/-- Decompression over a square gives a root of the parity asked for. -/
theorem decompress_square (host : Host) (hp : curve.modulus = p) (hodd : p ≠ 2)
    (hs : SmallTwoPart p) {x : ℕ} (parity : ℕ) (hsq : IsSquare (curveRhs p curve x)) :
    ∃ y < p, decompress host curve x parity = .ok (some (parityRoot p y parity)) ∧
      (y : ZMod p) ^ 2 = curveRhs p curve x := by
  have hcast : ((curveRhs p curve x).val : ZMod p) = curveRhs p curve x := ZMod.natCast_zmod_val _
  rw [← hcast] at hsq
  obtain ⟨y, hy, hrun, hroot⟩ := tonelliShanks_square host hodd hs (ZMod.val_lt _) hsq
  refine ⟨y, hy, ?_, hroot.trans hcast⟩
  rw [decompress_rhs host hp, hrun, ok_bind, chooseRoot_some hy.le]

/-- Decompression over anything else finds nothing. -/
theorem decompress_nonsquare (host : Host) (hp : curve.modulus = p) (hodd : p ≠ 2) {x : ℕ}
    (parity : ℕ) (hsq : ¬IsSquare (curveRhs p curve x)) :
    decompress host curve x parity = .ok none := by
  rw [← ZMod.natCast_zmod_val (curveRhs p curve x)] at hsq
  rw [decompress_rhs host hp, tonelliShanks_nonsquare host hodd hsq]
  rfl

/-- What a decompression returns is a root of the parity asked for, which is reduced unless the
right side is zero and the parity odd. -/
theorem decompress_some {host : Host} (hp : curve.modulus = p) (hodd : p ≠ 2) {x parity v : ℕ}
    (hpar : parity < 2) (h : decompress host curve x parity = .ok (some v)) :
    v ≤ p ∧ (v < p ↔ ¬(curveRhs p curve x = 0 ∧ parity = 1)) := by
  rw [decompress_rhs host hp] at h
  cases ht : tonelliShanks host (curveRhs p curve x).val p with
  | error e =>
    rw [ht] at h
    cases h
  | ok root =>
    rw [ht] at h
    cases root with
    | none => cases h
    | some y =>
      obtain ⟨hy, hzero⟩ := tonelliShanks_some hodd (ZMod.val_lt _) ht
      rw [ZMod.val_eq_zero] at hzero
      have hv : v = parityRoot p y parity := by
        rw [ok_bind, chooseRoot_some hy.le] at h
        cases h
        rfl
      rw [hv, parityRoot_lt_iff hy hpar, hzero]
      exact ⟨parityRoot_le hy, Iff.rfl⟩

end Rhs

end OpenvmSim.Precompiles
