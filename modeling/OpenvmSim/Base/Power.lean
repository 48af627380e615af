import Mathlib.Algebra.Group.Basic
import Mathlib.Algebra.Ring.Nat
import Mathlib.Data.Nat.Log

/-! Square and multiply.

`powBy mul` raises to a power with any multiplication. It computes the power of a
monoid (`pow_eq`) and, with multiplication modulo `m`, the power modulo `m`
(`powMod_eq`), in as many steps as the exponent has bits. -/
namespace OpenvmSim

variable {α β : Type}

/-- `acc * b ^ e` for an exponent of at most `bits` bits. -/
def powBy (mul : α → α → α) : ℕ → α → ℕ → α → α
  | 0, _, _, acc => acc
  | bits + 1, b, e, acc =>
    powBy mul bits (mul b b) (e / 2) (if e % 2 = 1 then mul acc b else acc)

theorem powBy_eq {M : Type} [Monoid M] (bits : ℕ) (b : M) (e : ℕ) (acc : M) (h : e < 2 ^ bits) :
    powBy (· * ·) bits b e acc = acc * b ^ e := by
  induction bits generalizing b e acc with
  | zero =>
    obtain rfl : e = 0 := Nat.lt_one_iff.mp h
    rw [pow_zero, mul_one, powBy]
  | succ bits ih =>
    have hhalf : e / 2 < 2 ^ bits := Nat.div_lt_of_lt_mul (by rwa [pow_succ'] at h)
    have hsq : (b * b) ^ (e / 2) = b ^ (2 * (e / 2)) := by rw [← pow_two, pow_mul]
    rw [powBy, ih _ _ _ hhalf, hsq]
    split
    · next hodd =>
      rw [mul_assoc, ← pow_succ', show 2 * (e / 2) + 1 = e by omega]
    · next heven =>
      rw [show 2 * (e / 2) = e by omega]

/-- A homomorphism carries one multiplication's powers to the other's. -/
theorem map_powBy {mul : α → α → α} {mul' : β → β → β} (f : α → β)
    (hf : ∀ x y, f (mul x y) = mul' (f x) (f y)) (bits : ℕ) (b : α) (e : ℕ) (acc : α) :
    f (powBy mul bits b e acc) = powBy mul' bits (f b) e (f acc) := by
  induction bits generalizing b e acc with
  | zero => rfl
  | succ bits ih =>
    rw [powBy, powBy, ih, hf]
    split
    · rw [hf]
    · rfl

/-- Power by square and multiply. -/
def power {M : Type} [Monoid M] (b : M) (e : ℕ) : M := powBy (· * ·) (e.log2 + 1) b e 1

theorem lt_two_pow_bits (e : ℕ) : e < 2 ^ (e.log2 + 1) := Nat.lt_log2_self

@[simp] theorem power_eq {M : Type} [Monoid M] (b : M) (e : ℕ) : power b e = b ^ e := by
  rw [power, powBy_eq _ _ _ _ (lt_two_pow_bits e), one_mul]

/-- Power modulo `m` by square and multiply. -/
def powMod (m b e : ℕ) : ℕ := powBy (fun x y => x * y % m) (e.log2 + 1) (b % m) e (1 % m)

theorem powMod_eq (m b e : ℕ) : powMod m b e = b ^ e % m := by
  have h : powBy (· * ·) (e.log2 + 1) b e 1 % m = powMod m b e :=
    map_powBy (· % m) (fun x y => Nat.mul_mod x y m) (e.log2 + 1) b e 1
  rw [powBy_eq _ _ _ _ (lt_two_pow_bits e), one_mul] at h
  exact h.symm

end OpenvmSim
