import Mathlib.Data.Fintype.Prod
import Mathlib.Data.Fintype.Card
import Mathlib.Tactic.LinearCombination
import Mathlib.Tactic.Ring
import OpenvmSim.Base.Inverse

/-! Pure cubic extensions.

`CubicAlgebra R d` is `R[X]/(X^3 - d)` on three coefficients. Over a field in which
`d` is no cube the norm of a nonzero element is nonzero, and the adjugate divided by
the norm is its inverse. -/
namespace OpenvmSim

/-- `c0 + c1 X + c2 X²` with `X³ = d`. -/
@[ext]
structure CubicAlgebra (R : Type) (d : R) where
  c0 : R
  c1 : R
  c2 : R
  deriving DecidableEq

namespace CubicAlgebra

section Card
variable {R : Type} {d : R}

/-- The elements are the triples of coefficients. -/
def equivProd (R : Type) (d : R) : CubicAlgebra R d ≃ R × R × R where
  toFun x := (x.c0, x.c1, x.c2)
  invFun t := ⟨t.1, t.2.1, t.2.2⟩

instance [Fintype R] : Fintype (CubicAlgebra R d) := Fintype.ofEquiv _ (equivProd R d).symm

theorem card_eq [Fintype R] : Fintype.card (CubicAlgebra R d) = Fintype.card R ^ 3 := by
  rw [Fintype.card_congr (equivProd R d), Fintype.card_prod, Fintype.card_prod]
  ring

end Card

/-! ### The ring -/

section Ring
variable {R : Type} [CommRing R] {d : R}

instance : Zero (CubicAlgebra R d) := ⟨⟨0, 0, 0⟩⟩
instance : One (CubicAlgebra R d) := ⟨⟨1, 0, 0⟩⟩
instance : Add (CubicAlgebra R d) := ⟨fun x y => ⟨x.c0 + y.c0, x.c1 + y.c1, x.c2 + y.c2⟩⟩
instance : Neg (CubicAlgebra R d) := ⟨fun x => ⟨-x.c0, -x.c1, -x.c2⟩⟩
instance : Sub (CubicAlgebra R d) := ⟨fun x y => ⟨x.c0 - y.c0, x.c1 - y.c1, x.c2 - y.c2⟩⟩
instance : Mul (CubicAlgebra R d) :=
  ⟨fun x y =>
    ⟨x.c0 * y.c0 + d * (x.c1 * y.c2 + x.c2 * y.c1),
      x.c0 * y.c1 + x.c1 * y.c0 + d * (x.c2 * y.c2),
      x.c0 * y.c2 + x.c1 * y.c1 + x.c2 * y.c0⟩⟩

variable (x y : CubicAlgebra R d)

@[simp] theorem c0_zero : (0 : CubicAlgebra R d).c0 = 0 := rfl
@[simp] theorem c1_zero : (0 : CubicAlgebra R d).c1 = 0 := rfl
@[simp] theorem c2_zero : (0 : CubicAlgebra R d).c2 = 0 := rfl
@[simp] theorem c0_one : (1 : CubicAlgebra R d).c0 = 1 := rfl
@[simp] theorem c1_one : (1 : CubicAlgebra R d).c1 = 0 := rfl
@[simp] theorem c2_one : (1 : CubicAlgebra R d).c2 = 0 := rfl
@[simp] theorem c0_add : (x + y).c0 = x.c0 + y.c0 := rfl
@[simp] theorem c1_add : (x + y).c1 = x.c1 + y.c1 := rfl
@[simp] theorem c2_add : (x + y).c2 = x.c2 + y.c2 := rfl
@[simp] theorem c0_neg : (-x).c0 = -x.c0 := rfl
@[simp] theorem c1_neg : (-x).c1 = -x.c1 := rfl
@[simp] theorem c2_neg : (-x).c2 = -x.c2 := rfl
@[simp] theorem c0_sub : (x - y).c0 = x.c0 - y.c0 := rfl
@[simp] theorem c1_sub : (x - y).c1 = x.c1 - y.c1 := rfl
@[simp] theorem c2_sub : (x - y).c2 = x.c2 - y.c2 := rfl
@[simp] theorem c0_mul : (x * y).c0 = x.c0 * y.c0 + d * (x.c1 * y.c2 + x.c2 * y.c1) := rfl
@[simp] theorem c1_mul : (x * y).c1 = x.c0 * y.c1 + x.c1 * y.c0 + d * (x.c2 * y.c2) := rfl
@[simp] theorem c2_mul : (x * y).c2 = x.c0 * y.c2 + x.c1 * y.c1 + x.c2 * y.c0 := rfl

instance : CommRing (CubicAlgebra R d) where
  add_assoc x y z := by ext <;> simp [add_assoc]
  zero_add x := by ext <;> simp
  add_zero x := by ext <;> simp
  add_comm x y := by ext <;> simp [add_comm]
  neg_add_cancel x := by ext <;> simp
  sub_eq_add_neg x y := by ext <;> simp [sub_eq_add_neg]
  mul_assoc x y z := by ext <;> simp <;> ring
  one_mul x := by ext <;> simp
  mul_one x := by ext <;> simp
  zero_mul x := by ext <;> simp
  mul_zero x := by ext <;> simp
  mul_comm x y := by ext <;> simp <;> ring
  left_distrib x y z := by ext <;> simp <;> ring
  right_distrib x y z := by ext <;> simp <;> ring
  nsmul := nsmulRec
  zsmul := zsmulRec

/-- A coefficient as an element. -/
def C (r : R) : CubicAlgebra R d := ⟨r, 0, 0⟩

@[simp] theorem c0_C (r : R) : (C r : CubicAlgebra R d).c0 = r := rfl
@[simp] theorem c1_C (r : R) : (C r : CubicAlgebra R d).c1 = 0 := rfl
@[simp] theorem c2_C (r : R) : (C r : CubicAlgebra R d).c2 = 0 := rfl

/-- The generator `X`. -/
def root : CubicAlgebra R d := ⟨0, 1, 0⟩

instance [Nontrivial R] : Nontrivial (CubicAlgebra R d) :=
  ⟨0, 1, fun h => zero_ne_one (congrArg c0 h)⟩

/-! ### Norm and adjugate -/

def norm : R :=
  x.c0 ^ 3 + d * x.c1 ^ 3 + d ^ 2 * x.c2 ^ 3 - (3 : ℕ) * d * (x.c0 * x.c1 * x.c2)

def adj : CubicAlgebra R d :=
  ⟨x.c0 ^ 2 - d * (x.c1 * x.c2), d * x.c2 ^ 2 - x.c0 * x.c1, x.c1 ^ 2 - x.c0 * x.c2⟩

theorem mul_adj : x * adj x = C (norm x) := by
  ext <;> simp [adj, norm] <;> ring

theorem adj_adj : adj (adj x) = C (norm x) * x := by
  ext <;> simp [adj, norm] <;> ring

theorem norm_mul : norm (x * y) = norm x * norm y := by
  simp only [norm, c0_mul, c1_mul, c2_mul]
  ring

theorem norm_root : norm (root : CubicAlgebra R d) = d := by
  simp [norm, root]

/-! ### Inverses -/

/-- The inverse, from an inverse on coefficients. -/
def inverse (inv : R → Option R) : Option (CubicAlgebra R d) :=
  (inv (norm x)).map fun n => C n * adj x

variable {x} {inv : R → Option R} (hinv : IsInverse inv) (hd : ∀ r : R, r ^ 3 ≠ d)
include hinv hd

/-- The adjugate of an element that is not zero does not vanish: the ratio of two
coefficients would be a cube root of `d`. -/
theorem eq_zero_of_adj_eq_zero (h : adj x = 0) : x = 0 := by
  have h0 : x.c0 ^ 2 - d * (x.c1 * x.c2) = 0 := congrArg c0 h
  have h1 : d * x.c2 ^ 2 - x.c0 * x.c1 = 0 := congrArg c1 h
  have h2 : x.c1 ^ 2 - x.c0 * x.c2 = 0 := congrArg c2 h
  by_cases hc : x.c2 = 0
  · rw [hc] at h0 h2
    have ha : x.c0 = 0 := hinv.eq_zero_of_sq (by linear_combination h0)
    have hb : x.c1 = 0 := hinv.eq_zero_of_sq (by linear_combination h2)
    ext
    · exact ha
    · exact hb
    · exact hc
  · obtain ⟨z, -, hz⟩ := hinv.of_ne_zero hc
    refine absurd ?_ (hd (x.c1 * z))
    have hcube : (x.c2 * z) ^ 3 = 1 := by rw [hz, one_pow]
    linear_combination z ^ 3 * (x.c1 * h2 - x.c2 * h1) + d * hcube

theorem norm_eq_zero_iff : norm x = 0 ↔ x = 0 := by
  constructor
  · intro h
    refine eq_zero_of_adj_eq_zero hinv hd (eq_zero_of_adj_eq_zero hinv hd ?_)
    rw [adj_adj, h]
    ext <;> simp
  · rintro rfl
    simp [norm]

theorem isInverse : IsInverse fun x : CubicAlgebra R d => inverse x inv where
  zero := by
    have hzero : norm (0 : CubicAlgebra R d) = 0 := (norm_eq_zero_iff hinv hd).mpr rfl
    rw [inverse, hzero, hinv.zero]
    rfl
  of_ne_zero {x} hx := by
    obtain ⟨n, hn, hone⟩ := hinv.of_ne_zero (mt (norm_eq_zero_iff hinv hd).mp hx)
    refine ⟨C n * adj x, by rw [inverse, hn]; rfl, ?_⟩
    rw [mul_left_comm, mul_adj]
    ext
    · simpa [mul_comm] using hone
    · simp
    · simp

end Ring

end CubicAlgebra

end OpenvmSim
