import Mathlib.Algebra.QuadraticAlgebra.Basic
import Mathlib.Data.ZMod.Basic
import OpenvmSim.Base.Bytes
import OpenvmSim.Base.CubicAlgebra
import OpenvmSim.Base.Power

/-! The extension towers of the pairing curves.

`Fq2 = Fq[i]/(i² + 1)`, `Fq6 = Fq2[v]/(v³ - ξ)` and `Fq12 = Fq6[w]/(w² - v)`, for any
modulus and any `ξ`. The arithmetic is that of the rings; they are only fields when
the modulus is a suitable prime, and `inverse` is computed from norms down to the
base field, as a call that finds no inverse of zero. An `Fq12` is written out with
its six `Fq2` coefficients in the order of the powers of `w`. -/
namespace OpenvmSim.Ark

abbrev Fq (p : ℕ) : Type := ZMod p

abbrev Fq2 (p : ℕ) : Type := QuadraticAlgebra (Fq p) (-1) 0

abbrev Fq6 (p : ℕ) (ξ : Fq2 p) : Type := CubicAlgebra (Fq2 p) ξ

abbrev Fq12 (p : ℕ) (ξ : Fq2 p) : Type :=
  QuadraticAlgebra (Fq6 p ξ) (CubicAlgebra.root : CubicAlgebra (Fq2 p) ξ) 0

/-- The inverse in a quadratic extension, from an inverse below. -/
def quadInverse {R : Type} [CommRing R] {a b : R} (inv : R → Option R)
    (x : QuadraticAlgebra R a b) : Option (QuadraticAlgebra R a b) :=
  (inv (QuadraticAlgebra.norm x)).map fun n => n • star x

variable {p : ℕ} {ξ : Fq2 p}

def Fq.inverse (x : Fq p) : Option (Fq p) := if x = 0 then none else some x⁻¹

def Fq2.inverse (x : Fq2 p) : Option (Fq2 p) := quadInverse Fq.inverse x

def Fq6.inverse (x : Fq6 p ξ) : Option (Fq6 p ξ) := CubicAlgebra.inverse x Fq2.inverse

def Fq12.inverse (x : Fq12 p ξ) : Option (Fq12 p ξ) := quadInverse Fq6.inverse x

/-! ### Bytes -/

def fromLeBytesModOrder (bs : List (BitVec 8)) : Fq p := (LittleEndian.toNat bs : ZMod p)

/-- The canonical value in `n` bytes. -/
def fqToLeBytes (n : ℕ) (x : Fq p) : List (BitVec 8) := LittleEndian.ofNat n x.val

def fq2ToLeBytes (n : ℕ) (x : Fq2 p) : List (BitVec 8) := fqToLeBytes n x.re ++ fqToLeBytes n x.im

/-- `[c0.c0, c1.c0, c0.c1, c1.c1, c0.c2, c1.c2]` where `Fq12 = Fq6 + Fq6·w` and
`Fq6 = Fq2 + Fq2·v + Fq2·v²`. -/
def fq12ToBytes (n : ℕ) (f : Fq12 p ξ) : List (BitVec 8) :=
  [f.re.c0, f.im.c0, f.re.c1, f.im.c1, f.re.c2, f.im.c2].flatMap (fq2ToLeBytes n)

@[simp] theorem length_fq12ToBytes (n : ℕ) (f : Fq12 p ξ) : (fq12ToBytes n f).length = 12 * n := by
  simp [fq12ToBytes, fq2ToLeBytes, fqToLeBytes]
  ring

end OpenvmSim.Ark
