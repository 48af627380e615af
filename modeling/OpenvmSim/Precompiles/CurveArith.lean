import OpenvmSim.Precompiles.FieldArith

/-! The curve operations in the field `ZMod p`.

Both operations draw a line through the point and find its third intersection with the
curve: they differ in the slope, and panic when it has no denominator. -/
namespace OpenvmSim.Precompiles

section Line
variable {p : ℕ}

/-- The element a pair of coordinates stands for. -/
def castPoint (p : ℕ) (a : Point) : ZMod p × ZMod p := (a.1, a.2)

/-- The canonical coordinates of a point. -/
def pointOf (a : ZMod p × ZMod p) : Point := (a.1.val, a.2.val)

/-- The reflected third point on the line of slope `lam` through `a` and a point over `x`. -/
def thirdPoint (lam : ZMod p) (a : ZMod p × ZMod p) (x : ZMod p) : ZMod p × ZMod p :=
  (lam ^ 2 - a.1 - x, lam * (a.1 - (lam ^ 2 - a.1 - x)) - a.2)

end Line

section Slopes
variable {F : Type} [Field F]

/-- The slope of a chord. -/
def chordSlope (a b : F × F) : F := (b.2 - a.2) * (b.1 - a.1)⁻¹

/-- The slope of a tangent to the curve with the given linear coefficient. -/
def tangentSlope (coeff : F) (a : F × F) : F := (3 * (a.1 * a.1) + coeff) * (2 * a.2)⁻¹

end Slopes

section Operations
variable {p : ℕ} [Fact p.Prime] {curve : CurveEntry} {p1 p2 : Point}

theorem addNe_eq (hp : curve.modulus = p) (h : (p1.1 : ZMod p) ≠ p2.1) :
    addNe curve p1 p2 = .ok (pointOf (thirdPoint (chordSlope (castPoint p p1) (castPoint p p2))
      (castPoint p p1) p2.1)) := by
  have hne : (p2.1 : ZMod p) - p1.1 ≠ 0 := sub_ne_zero.mpr h.symm
  unfold addNe
  simp only [hp, modpSub_eq, rem_eq_val, modInv_eq, ZMod.natCast_zmod_val, Nat.cast_mul, ok_bind,
    if_neg hne, expect_some]
  show Except.ok (_, _) = Except.ok (_, _)
  simp only [thirdPoint, chordSlope, castPoint, pow_two]

theorem addNe_panics (hp : curve.modulus = p) (h : (p1.1 : ZMod p) = p2.1) :
    addNe curve p1 p2 = .error (.panic "AddNe with equal x") := by
  have hzero : (p2.1 : ZMod p) - p1.1 = 0 := sub_eq_zero.mpr h.symm
  unfold addNe
  simp only [hp, modpSub_eq, modInv_eq, ZMod.natCast_zmod_val, ok_bind, if_pos hzero]
  rfl

theorem addNe_panicsWhen (hp : curve.modulus = p) :
    PanicsWhen ((p1.1 : ZMod p) = p2.1) (addNe curve p1 p2) where
  panics h := ⟨_, addNe_panics hp h⟩
  value h := ⟨_, addNe_eq hp h⟩

theorem two_ne_zero_of_odd (hodd : p ≠ 2) : (2 : ZMod p) ≠ 0 := by
  rw [← Nat.cast_ofNat, ne_eq, ZMod.natCast_eq_zero_iff]
  exact fun h => hodd ((Nat.prime_dvd_prime_iff_eq Fact.out Nat.prime_two).mp h)

theorem double_eq (hp : curve.modulus = p) (h : (2 : ZMod p) * p1.2 ≠ 0) :
    double curve p1 = .ok (pointOf (thirdPoint (tangentSlope (curve.a : ZMod p) (castPoint p p1))
      (castPoint p p1) p1.1)) := by
  have hden : (((2 : ℕ) : ZMod p) * p1.2) ≠ 0 := by
    rw [Nat.cast_ofNat]
    exact h
  unfold double
  simp only [hp, modpSub_eq, rem_eq_val, modInv_eq, ZMod.natCast_zmod_val, Nat.cast_mul,
    Nat.cast_add, ok_bind, if_neg hden, expect_some]
  show Except.ok (_, _) = Except.ok (_, _)
  simp only [thirdPoint, tangentSlope, castPoint, pow_two, Nat.cast_ofNat, two_mul, sub_sub]

theorem double_panics (hp : curve.modulus = p) (h : (2 : ZMod p) * p1.2 = 0) :
    double curve p1 = .error (.panic "Double of point with y=0") := by
  have hden : (((2 : ℕ) : ZMod p) * p1.2) = 0 := by
    rw [Nat.cast_ofNat]
    exact h
  unfold double
  simp only [hp, rem_eq_val, modInv_eq, ZMod.natCast_zmod_val, Nat.cast_mul, ok_bind, if_pos hden]
  rfl

theorem double_panicsWhen (hp : curve.modulus = p) (hodd : p ≠ 2) :
    PanicsWhen ((p1.2 : ZMod p) = 0) (double curve p1) := by
  exact
    { panics := fun h => ⟨_, double_panics hp (by rw [h, mul_zero])⟩
      value := fun h => ⟨_, double_eq hp (mul_ne_zero (two_ne_zero_of_odd hodd) h)⟩ }

end Operations

end OpenvmSim.Precompiles
