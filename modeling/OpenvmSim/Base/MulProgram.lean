import Mathlib.Algebra.Group.Nat.Hom
import Mathlib.Data.List.Induction

/-! Programs of multiplications.

A program multiplies values in slots and moves them between slots, over any type with a
multiplication. A homomorphism of the values carries over to runs of programs, so that a run on
powers of one element is a run on their exponents, whatever the order of the multiplications.
Square-and-multiply from the most significant bit on is one such program. -/
namespace OpenvmSim

/-- One operation of a program on the slots `ι`. -/
inductive MulOp (ι : Type) where
  /-- The product of two slots goes to the slot `d`. -/
  | mul (d x y : ι)
  /-- Every slot `i` takes the value of the slot `f i`. -/
  | move (f : ι → ι)

namespace MulOp

section Run
variable {ι M N : Type} [DecidableEq ι]

def apply [Mul M] (v : ι → M) : MulOp ι → ι → M
  | mul d x y => Function.update v d (v x * v y)
  | move f => v ∘ f

def run [Mul M] (ops : List (MulOp ι)) (v : ι → M) : ι → M := ops.foldl apply v

@[simp] theorem run_nil [Mul M] (v : ι → M) : run [] v = v := rfl

@[simp] theorem run_cons [Mul M] (op : MulOp ι) (ops : List (MulOp ι)) (v : ι → M) :
    run (op :: ops) v = run ops (op.apply v) := rfl

theorem run_append [Mul M] (ops ops' : List (MulOp ι)) (v : ι → M) :
    run (ops ++ ops') v = run ops' (run ops v) := List.foldl_append

theorem apply_map [Mul M] [Mul N] (φ : M →ₙ* N) (op : MulOp ι) (v : ι → M) :
    op.apply (φ ∘ v) = φ ∘ op.apply v := by
  cases op with
  | mul d x y =>
    funext i
    by_cases hi : i = d
    · subst hi
      simp [apply]
    · simp [apply, hi]
  | move f => rfl

theorem run_map [Mul M] [Mul N] (φ : M →ₙ* N) (ops : List (MulOp ι)) (v : ι → M) :
    run ops (φ ∘ v) = φ ∘ run ops v := by
  induction ops generalizing v with
  | nil => rfl
  | cons op ops ih => rw [run_cons, run_cons, apply_map, ih]

end Run

section Powers
variable {ι M : Type} [DecidableEq ι] [Monoid M]

/-- The exponents a program leaves when it starts with powers of the exponents `e`. -/
def exponents (ops : List (MulOp ι)) (e : ι → ℕ) (i : ι) : ℕ :=
  (run ops (fun i => Multiplicative.ofAdd (e i)) i).toAdd

/-- A run on powers of `base` ends in powers of it. -/
theorem run_pow (ops : List (MulOp ι)) (base : M) (e : ι → ℕ) :
    run ops (fun i => base ^ e i) = fun i => base ^ exponents ops e i :=
  run_map (powersHom M base : Multiplicative ℕ →ₙ* M) ops fun i => Multiplicative.ofAdd (e i)

/-! ### Square and multiply -/

/-- The operations for one bit: a squaring and, if the bit is set, a multiplication. -/
def bitOps (acc b : ι) (bit : Bool) : List (MulOp ι) :=
  mul acc acc acc :: if bit then [mul acc acc b] else []

/-- Square-and-multiply over the bits of an exponent, the most significant first. -/
def squareMultiply (acc b : ι) (bits : List Bool) : List (MulOp ι) := bits.flatMap (bitOps acc b)

/-- The number whose bits are read after those of `e`. -/
def readBits (e : ℕ) (bits : List Bool) : ℕ := bits.foldl (fun e bit => 2 * e + bit.toNat) e

/-- Every number is read from some bits. -/
theorem exists_readBits (e : ℕ) : ∃ bits, readBits 0 bits = e := by
  induction e using Nat.strongRecOn with
  | ind e ih =>
    obtain rfl | hpos := Nat.eq_zero_or_pos e
    · exact ⟨[], rfl⟩
    · obtain ⟨bits, hbits⟩ := ih (e / 2) (by omega)
      obtain ⟨bit, hbit⟩ : ∃ bit : Bool, bit.toNat = e % 2 := by
        obtain h | h := Nat.mod_two_eq_zero_or_one e
        · exact ⟨false, h.symm⟩
        · exact ⟨true, h.symm⟩
      refine ⟨bits ++ [bit], ?_⟩
      have hread : readBits 0 (bits ++ [bit]) = 2 * readBits 0 bits + bit.toNat :=
        List.foldl_append
      rw [hread, hbits, hbit, Nat.div_add_mod]

variable {acc b : ι} {v : ι → M}

theorem run_bitOps (hne : acc ≠ b) {e : ℕ} (h : v acc = v b ^ e) (bit : Bool) :
    run (bitOps acc b bit) v acc = v b ^ (2 * e + bit.toNat) ∧ run (bitOps acc b bit) v b = v b := by
  have hb : Function.update v acc (v acc * v acc) b = v b := Function.update_of_ne hne.symm _ _
  have hsq : v acc * v acc = v b ^ (2 * e) := by rw [h, ← pow_add, Nat.two_mul]
  cases bit with
  | false => exact ⟨(Function.update_self acc _ v).trans hsq, hb⟩
  | true =>
    refine ⟨?_, (Function.update_of_ne hne.symm _ _).trans hb⟩
    have hmul : (v acc * v acc) * v b = v b ^ (2 * e + 1) := by rw [hsq, ← pow_succ]
    have hacc : Function.update v acc (v acc * v acc) acc = v acc * v acc :=
      Function.update_self acc _ v
    rw [← hacc, ← hb] at hmul
    exact (Function.update_self acc _ _).trans (hmul.trans (by rw [hb]; rfl))

/-- After the bits read so far the accumulator holds the power with their number. -/
theorem run_squareMultiply (hne : acc ≠ b) {e : ℕ} (h : v acc = v b ^ e) (bits : List Bool) :
    run (squareMultiply acc b bits) v acc = v b ^ readBits e bits := by
  induction bits generalizing e v with
  | nil => exact h
  | cons bit bits ih =>
    obtain ⟨hacc, hb⟩ := run_bitOps hne h bit
    rw [squareMultiply, List.flatMap_cons, run_append]
    rw [← hb] at hacc
    exact (ih hacc).trans (by rw [hb]; rfl)

omit [DecidableEq ι] in
/-- A program of square-and-multiply that does anything ends with a multiplication into the
accumulator. -/
theorem squareMultiply_concat (acc b : ι) (bits : List Bool) (bit : Bool) :
    ∃ ops x y, squareMultiply acc b (bits ++ [bit]) = ops ++ [mul acc x y] := by
  rw [squareMultiply, List.flatMap_append, List.flatMap_singleton]
  cases bit with
  | false => exact ⟨_, acc, acc, rfl⟩
  | true => exact ⟨_ ++ [mul acc acc acc], acc, b, by rw [List.append_assoc]; rfl⟩

end Powers
end MulOp

end OpenvmSim
