import Mathlib.Algebra.GroupWithZero.Nat
import Mathlib.Data.Fin.VecNotation
import Mathlib.Data.Fintype.Prod
import Mathlib.Tactic.FinCases

/-! The Keccak permutations of FIPS 202.

A state array has `5 × 5` lanes of `w` bits; a bit has the coordinates `x`, `y` and `z`, which
are added modulo `5`, `5` and `w`. The step mappings are written as the standard has them: the
offsets of `rho` come from the walk of its loop, and the round constants from the shift
register. -/
namespace OpenvmSim.Fips202

abbrev StateArray (w : ℕ) := Fin 5 → Fin 5 → Fin w → Bool

section StepMappings
variable {w : ℕ} [NeZero w] (A : StateArray w)

def columnParity (x : Fin 5) (z : Fin w) : Bool :=
  A x 0 z ^^ A x 1 z ^^ A x 2 z ^^ A x 3 z ^^ A x 4 z

def theta : StateArray w := fun x y z =>
  A x y z ^^ (columnParity A (x - 1) z ^^ columnParity A (x + 1) (z - 1))

/-- The lane visited in step `t` of the loop of `rho`. -/
def walk : ℕ → Fin 5 × Fin 5
  | 0 => (1, 0)
  | t + 1 => ((walk t).2, 2 * (walk t).1 + 3 * (walk t).2)

def offset (t : ℕ) : ℕ := (t + 1) * (t + 2) / 2

/-- The array after `t` steps of the loop of `rho`, which begins with the lane `(0, 0)`. -/
def rhoLoop : ℕ → StateArray w
  | 0 => fun x y z => if (x, y) = (0, 0) then A x y z else false
  | t + 1 => fun x y z =>
    if (x, y) = walk t then A x y (z - Fin.ofNat w (offset t)) else rhoLoop t x y z

def rho : StateArray w := rhoLoop A 24

def pi : StateArray w := fun x y z => A (x + 3 * y) x z

def chi : StateArray w := fun x y z =>
  A x y z ^^ ((A (x + 1) y z ^^ true) && A (x + 2) y z)

end StepMappings

/-- A step of the shift register: a bit is put in front, the ninth bit is added to the bits 0,
4, 5 and 6, and dropped. -/
def lfsrStep (r : BitVec 8) : BitVec 8 :=
  let shifted := r.setWidth 9 <<< 1
  (if shifted.getLsbD 8 then shifted ^^^ 0b001110001#9 else shifted).setWidth 8

def lfsr : ℕ → BitVec 8
  | 0 => 1#8
  | i + 1 => lfsrStep (lfsr i)

def rc (t : ℕ) : Bool := if t % 255 = 0 then true else (lfsr (t % 255)).getLsbD 0

section Rounds
variable {w : ℕ} [NeZero w]

/-- The bits `2 ^ j - 1` of a round constant are taken from the shift register. -/
def roundConstant (w ir : ℕ) (z : Fin w) : Bool :=
  (List.range (Nat.log2 w + 1)).any fun j => z.val == 2 ^ j - 1 && rc (j + 7 * ir)

def iota (A : StateArray w) (ir : ℕ) : StateArray w := fun x y z =>
  if (x, y) = (0, 0) then A x y z ^^ roundConstant w ir z else A x y z

def round (A : StateArray w) (ir : ℕ) : StateArray w := iota (chi (pi (rho (theta A)))) ir

/-- The first `n` rounds. -/
def rounds (A : StateArray w) : ℕ → StateArray w
  | 0 => A
  | n + 1 => round (rounds A n) n

/-- Keccak-f, which has `12 + 2 l` rounds for lanes of `2 ^ l` bits. -/
def keccakF (A : StateArray w) : StateArray w := rounds A (12 + 2 * Nat.log2 w)

end Rounds

/-! ### The sponge -/

section Sponge
variable {w : ℕ} [NeZero w]

/-- Bit `k` of a string of bytes, low bits first; zero behind its end. -/
def bitOf (bytes : List (BitVec 8)) (k : ℕ) : Bool := (bytes.getD (k / 8) 0#8).getLsbD (k % 8)

/-- The bytes added to the front of the state, which is written out lane by lane. -/
def xorBlock (A : StateArray w) (bytes : List (BitVec 8)) : StateArray w := fun x y z =>
  A x y z ^^ bitOf bytes (w * (5 * y.val + x.val) + z.val)

/-- The sponge takes in one block. -/
def absorb (A : StateArray w) (bytes : List (BitVec 8)) : StateArray w :=
  keccakF (xorBlock A bytes)

end Sponge

/-! ### The offsets of rho -/

section Walk

/-- The walk does not come back before its end. -/
theorem walk_injective {t t' : ℕ} (h : t < 24) (h' : t' < 24) (heq : walk t = walk t') :
    t = t' := by
  have hall : ∀ t t' : Fin 24, walk t = walk t' → t = t' := by decide
  exact congrArg Fin.val (hall ⟨t, h⟩ ⟨t', h'⟩ heq)

theorem walk_ne_origin {t : ℕ} (h : t < 24) : walk t ≠ (0, 0) := by
  have hall : ∀ t : Fin 24, walk t ≠ (0, 0) := by decide
  exact hall ⟨t, h⟩

/-- Every other lane is visited, the first one once more at the end. -/
theorem exists_walk_succ {x y : Fin 5} (h : (x, y) ≠ (0, 0)) :
    ∃ t < 24, walk (t + 1) = (x, y) := by
  have hall : ∀ x y : Fin 5, (x, y) ≠ (0, 0) → ∃ t : Fin 24, walk (t + 1) = (x, y) := by decide
  obtain ⟨t, ht⟩ := hall x y h
  exact ⟨t, t.isLt, ht⟩

/-- `pi` moves each lane of the walk one step along it. -/
theorem pi_source {t : ℕ} {x y : Fin 5} (h : walk (t + 1) = (x, y)) : walk t = (x + 3 * y, x) := by
  have hall : ∀ a b : Fin 5, b + 3 * (2 * a + 3 * b) = a := by decide
  obtain ⟨rfl, rfl⟩ := Prod.mk.inj h
  exact Prod.ext (hall _ _).symm rfl

variable {w : ℕ} [NeZero w] (A : StateArray w)

theorem rhoLoop_succ (n : ℕ) (x y : Fin 5) (z : Fin w) : rhoLoop A (n + 1) x y z =
    if (x, y) = walk n then A x y (z - Fin.ofNat w (offset n)) else rhoLoop A n x y z := rfl

theorem rhoLoop_origin {n : ℕ} (hn : n ≤ 24) (z : Fin w) : rhoLoop A n 0 0 z = A 0 0 z := by
  induction n with
  | zero => rfl
  | succ n ih =>
    rw [rhoLoop_succ, if_neg (walk_ne_origin hn).symm]
    exact ih (Nat.le_of_succ_le hn)

theorem rhoLoop_walk {n t : ℕ} (hn : n ≤ 24) (ht : t < n) {x y : Fin 5} (h : walk t = (x, y))
    (z : Fin w) : rhoLoop A n x y z = A x y (z - Fin.ofNat w (offset t)) := by
  induction n with
  | zero => exact absurd ht (Nat.not_lt_zero t)
  | succ n ih =>
    rw [rhoLoop_succ]
    split
    · next hlast =>
      rw [walk_injective (Nat.lt_of_lt_of_le ht hn) hn (h.trans hlast)]
    · next hlast =>
      have hne : t ≠ n := by
        rintro rfl
        exact hlast h.symm
      exact ih (Nat.le_of_succ_le hn) (by omega)

theorem rho_origin (z : Fin w) : rho A 0 0 z = A 0 0 z := rhoLoop_origin A le_rfl z

theorem rho_walk {t : ℕ} (ht : t < 24) {x y : Fin 5} (h : walk t = (x, y)) (z : Fin w) :
    rho A x y z = A x y (z - Fin.ofNat w (offset t)) := rhoLoop_walk A le_rfl ht h z

theorem pi_rho_origin (z : Fin w) : pi (rho A) 0 0 z = A 0 0 z := rho_origin A z

/-- The lanes of the walk after `rho` and `pi`. -/
theorem pi_rho_walk {t : ℕ} (ht : t < 24) {x y x' y' : Fin 5} (h : walk t = (x', y'))
    (h' : walk (t + 1) = (x, y)) (z : Fin w) :
    pi (rho A) x y z = A x' y' (z - Fin.ofNat w (offset t)) := by
  have hsrc := pi_source h'
  obtain ⟨rfl, rfl⟩ := Prod.mk.inj (h.symm.trans hsrc)
  rw [pi, rho_walk A ht hsrc]

end Walk

end OpenvmSim.Fips202
