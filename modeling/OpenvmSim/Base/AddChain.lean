import Mathlib.Algebra.Group.Basic
import OpenvmSim.Base.MulProgram
import OpenvmSim.Base.SlotProgram

/-! Addition chains.

Programs of additions and doublings, over any commutative group. A run on multiples of an element
is a run on the coefficients (`run_smul`). The formulas for points of a curve have exceptions: they
do not add an element to itself or to its negative, and do not double one of order two. Double-and-add
meets none of them as long as its result is below the order (`free_doubleAdd`). -/
namespace OpenvmSim

inductive AddOp where
  | add | double
  deriving DecidableEq

namespace AddOp

section Group
variable {ι G : Type*} [DecidableEq ι]

def value [Add G] : AddOp → G → G → G
  | add, a, b => a + b
  | double, a, _ => a + a

/-- The operands of an exception. -/
def Stuck [AddGroup G] : AddOp → G → G → Prop
  | add, a, b => a = b ∨ a = -b
  | double, a, _ => a + a = 0

/-- A run on multiples of `P` adds up the coefficients. -/
theorem run_smul [AddCommGroup G] (P : G) (ops : List (SlotOp ι AddOp)) (k : ι → ℤ) :
    SlotOp.run value ops (fun i => k i • P) = fun i => SlotOp.run value ops k i • P := by
  refine (SlotOp.run_map (φ := fun k : ℤ => k • P) (fun op x y => ?_) ops k).symm
  cases op with
  | add => exact add_zsmul P x y
  | double => exact add_zsmul P x x

end Group

/-! ### Double and add -/

section DoubleAdd
variable {ι G : Type*} [DecidableEq ι] [AddCommGroup G] {acc b : ι}

/-- The operations for one bit: a doubling and, if the bit is set, an addition. -/
def bitOps (acc b : ι) (bit : Bool) : List (SlotOp ι AddOp) :=
  ⟨double, acc, acc, acc⟩ :: if bit then [⟨add, acc, acc, b⟩] else []

/-- Double-and-add over bits, the most significant first. -/
def doubleAdd (acc b : ι) : List Bool → List (SlotOp ι AddOp)
  | [] => []
  | bit :: bits => bitOps acc b bit ++ doubleAdd acc b bits

omit [DecidableEq ι] in
/-- All results go to the accumulator. -/
theorem dest_doubleAdd {acc b : ι} {bits : List Bool} {o : SlotOp ι AddOp}
    (h : o ∈ doubleAdd acc b bits) : o.dest = acc := by
  induction bits with
  | nil => cases h
  | cons bit bits ih =>
    obtain hbit | hrest := List.mem_append.mp h
    · cases bit <;> simp [bitOps] at hbit
      · rw [hbit]
      · obtain rfl | rfl := hbit <;> rfl
    · exact ih hrest

theorem le_readBits (e : ℕ) (bits : List Bool) : e ≤ MulOp.readBits e bits := by
  induction bits generalizing e with
  | nil => exact Nat.le_refl _
  | cons bit bits ih => exact Nat.le_trans (by omega) (ih (2 * e + bit.toNat))

/-- Every positive number is one followed by some bits. -/
theorem exists_readBits_one {k : ℕ} (h : 0 < k) : ∃ bits, MulOp.readBits 1 bits = k := by
  induction k using Nat.strongRecOn with
  | ind k ih =>
    obtain rfl | hlt := Nat.eq_or_lt_of_le (Nat.succ_le_of_lt h)
    · exact ⟨[], rfl⟩
    · obtain ⟨bits, hbits⟩ := ih (k / 2) (by omega) (by omega)
      obtain ⟨bit, hbit⟩ : ∃ bit : Bool, bit.toNat = k % 2 := by
        obtain h | h := Nat.mod_two_eq_zero_or_one k
        · exact ⟨false, h.symm⟩
        · exact ⟨true, h.symm⟩
      refine ⟨bits ++ [bit], ?_⟩
      have hread : MulOp.readBits 1 (bits ++ [bit]) = 2 * MulOp.readBits 1 bits + bit.toNat :=
        List.foldl_append
      rw [hread, hbits, hbit, Nat.div_add_mod]

variable {P : G} {v : ι → G} {e : ℕ}

/-- One bit. -/
theorem run_bitOps (hne : acc ≠ b) (hacc : v acc = e • P) (hb : v b = P) (bit : Bool) :
    SlotOp.run value (bitOps acc b bit) v acc = (2 * e + bit.toNat) • P ∧
      SlotOp.run value (bitOps acc b bit) v b = P := by
  have hdouble : v acc + v acc = (2 * e) • P := by rw [hacc, Nat.two_mul, add_nsmul]
  cases bit with
  | false =>
    refine ⟨?_, ?_⟩
    · simpa [bitOps, SlotOp.apply, value] using hdouble
    · simpa [bitOps, SlotOp.apply, value, hne.symm] using hb
  | true =>
    refine ⟨?_, ?_⟩
    · have hadd : v acc + v acc + v b = (2 * e + 1) • P := by rw [hdouble, hb, succ_nsmul]
      simpa [bitOps, SlotOp.apply, value, hne.symm] using hadd
    · simpa [bitOps, SlotOp.apply, value, hne.symm] using hb

/-- Double-and-add leaves the multiple in the accumulator. -/
theorem run_doubleAdd (hne : acc ≠ b) (hacc : v acc = e • P) (hb : v b = P) (bits : List Bool) :
    SlotOp.run value (doubleAdd acc b bits) v acc = MulOp.readBits e bits • P := by
  induction bits generalizing e v with
  | nil => exact hacc
  | cons bit bits ih =>
    obtain ⟨hacc', hb'⟩ := run_bitOps hne hacc hb bit
    rw [doubleAdd, SlotOp.run_append]
    exact ih hacc' hb'

/-- One bit meets no exception if the multiples up to the new one are not zero. -/
theorem free_bitOps (hne : acc ≠ b) (he : 0 < e) (hacc : v acc = e • P) (hb : v b = P) (bit : Bool)
    (hord : ∀ m, 0 < m → m ≤ 2 * e + bit.toNat → m • P ≠ 0) :
    SlotOp.Free value Stuck (bitOps acc b bit) v := by
  have hdouble : v acc + v acc = (2 * e) • P := by rw [hacc, Nat.two_mul, add_nsmul]
  have hfirst : ¬Stuck double (v acc) (v acc) := by
    intro hzero
    exact hord (2 * e) (by omega) (by omega) (hdouble.symm.trans hzero)
  cases bit with
  | false => exact ⟨hfirst, trivial⟩
  | true =>
    refine ⟨hfirst, ?_, trivial⟩
    have hleft : SlotOp.apply value v ⟨double, acc, acc, acc⟩ acc = (2 * e) • P := by
      rw [SlotOp.apply, Function.update_self]
      exact hdouble
    have hright : SlotOp.apply value v ⟨double, acc, acc, acc⟩ b = P := by
      rw [SlotOp.apply, Function.update_of_ne hne.symm, hb]
    rw [hleft, hright]
    rintro (heq | heq)
    · refine hord (2 * e - 1) (by omega) (by simp; omega) ?_
      have hsplit : (2 * e) • P = (2 * e - 1) • P + P := by
        rw [← succ_nsmul]
        congr 1
        omega
      rwa [hsplit, add_eq_right] at heq
    · refine hord (2 * e + 1) (by omega) (Nat.le_refl _) ?_
      rw [succ_nsmul, heq, neg_add_cancel]

/-- Double-and-add meets no exception if no multiple up to its result is zero. -/
theorem free_doubleAdd (hne : acc ≠ b) (he : 0 < e) (hacc : v acc = e • P) (hb : v b = P)
    {bits : List Bool} (hord : ∀ m, 0 < m → m ≤ MulOp.readBits e bits → m • P ≠ 0) :
    SlotOp.Free value Stuck (doubleAdd acc b bits) v := by
  induction bits generalizing e v with
  | nil => trivial
  | cons bit bits ih =>
    obtain ⟨hacc', hb'⟩ := run_bitOps hne hacc hb bit
    have hle := le_readBits (2 * e + bit.toNat) bits
    refine SlotOp.free_append (free_bitOps hne he hacc hb bit fun m hm hm' => hord m hm (Nat.le_trans hm' hle)) ?_
    exact ih (by omega) hacc' hb' hord

end DoubleAdd

end AddOp

end OpenvmSim
