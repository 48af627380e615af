import Mathlib.Data.Int.GCD
import OpenvmSim.Base.Bytes
import OpenvmSim.Base.Power
import OpenvmSim.Rv32im.Cpu

/-! Arbitrary-precision numbers.

A `BigUint` is a natural number and a `BigInt` an integer. The operations that
panic in the program are calls that may stop: subtraction below zero, and any
remainder or power with modulus zero. -/
namespace OpenvmSim.Precompiles

/-- A calculation on numbers: it reads and writes no state. -/
abbrev Calc (α : Type) := Exec Rv32im.CpuError α

def expect {α : Type} (message : String) : Option α → Calc α
  | some a => pure a
  | none => throw (.panic message)

@[simp] theorem expect_some {α : Type} (message : String) (a : α) :
    expect message (some a) = .ok a := rfl

namespace BigUint

def sub (a b : ℕ) : Calc ℕ :=
  if b ≤ a then pure (a - b)
  else throw (.panic "Cannot subtract b from a because b is larger than a.")

def rem (a m : ℕ) : Calc ℕ :=
  if m = 0 then throw (.panic "attempt to divide by zero") else pure (a % m)

def modpow (base exp m : ℕ) : Calc ℕ :=
  if m = 0 then throw (.panic "attempt to calculate with zero modulus!")
  else pure (powMod m base exp)

def divCeil (a b : ℕ) : Calc ℕ :=
  if b = 0 then throw (.panic "attempt to divide by zero") else pure ((a + b - 1) / b)

/-- The library's own modular inverse, reduced. -/
def modinv (a m : ℕ) : Calc (Option ℕ) :=
  if m = 0 then throw (.panic "attempt to calculate with zero modulus!")
  else if Nat.gcd a m = 1 then pure (some (Nat.gcdA a m % m).toNat)
  else pure none

/-- `to_bytes_le`, then `resize` to `n` bytes. -/
def bytesLe (val n : ℕ) : List (BitVec 8) := LittleEndian.resize (LittleEndian.ofBig val) n

@[simp] theorem sub_of_le {a b : ℕ} (h : b ≤ a) : (sub a b : Calc ℕ) = .ok (a - b) := if_pos h

@[simp] theorem rem_of_ne {a m : ℕ} (h : m ≠ 0) : (rem a m : Calc ℕ) = .ok (a % m) := if_neg h

@[simp] theorem modpow_of_ne {base exp m : ℕ} (h : m ≠ 0) :
    (modpow base exp m : Calc ℕ) = .ok (base ^ exp % m) := by
  rw [modpow, if_neg h, powMod_eq]
  rfl

@[simp] theorem divCeil_of_ne {a b : ℕ} (h : b ≠ 0) :
    (divCeil a b : Calc ℕ) = .ok ((a + b - 1) / b) := if_neg h

theorem bytesLe_eq (val n : ℕ) : bytesLe val n = LittleEndian.ofNat n val :=
  LittleEndian.resize_ofBig val n

@[simp] theorem length_bytesLe (val n : ℕ) : (bytesLe val n).length = n := by
  rw [bytesLe_eq, LittleEndian.length_ofNat]

end BigUint

/-! ### Modular inverse -/

/-- `extended_gcd` of the modular precompile. Division of a `BigInt` truncates. -/
def extendedGcd (a b : ℤ) : ℤ × ℤ × ℤ :=
  if _h : b = 0 then (a, 1, 0)
  else
    let (g, x1, y1) := extendedGcd b (a.tmod b)
    (g, y1, x1 - a.tdiv b * y1)
termination_by b.natAbs
decreasing_by
  rw [Int.natAbs_tmod]
  exact Nat.mod_lt _ (Int.natAbs_pos.mpr _h)

/-- `BigInt` remainder. -/
def intRem (a b : ℤ) : Calc ℤ :=
  if b = 0 then throw (.panic "attempt to divide by zero") else pure (a.tmod b)

/-- Modular inverse via the extended Euclidean algorithm. The curve precompile has its own
copies of both functions (`Ecc`), with the same text; the model calls these. -/
def modInv (a p : ℕ) : Calc (Option ℕ) :=
  if a = 0 then pure none
  else
    let (g, x, _) := extendedGcd a p
    if g ≠ 1 then pure none
    else do
      let r ← intRem x p
      let inv ← intRem (r + p) p
      if inv < 0 then throw (.panic "called Option::unwrap() on a None value")
      else pure (some inv.toNat)

namespace Ecc

/-- `ext_gcd` of the curve precompile. -/
def extGcd (a b : ℤ) : ℤ × ℤ × ℤ :=
  if _h : b = 0 then (a, 1, 0)
  else
    let (g, x1, y1) := extGcd b (a.tmod b)
    (g, y1, x1 - a.tdiv b * y1)
termination_by b.natAbs
decreasing_by
  rw [Int.natAbs_tmod]
  exact Nat.mod_lt _ (Int.natAbs_pos.mpr _h)

/-- `mod_inv` of the curve precompile. -/
def modInv (a p : ℕ) : Calc (Option ℕ) :=
  if a = 0 then pure none
  else
    let (g, x, _) := extGcd a p
    if g ≠ 1 then pure none
    else do
      let r ← intRem x p
      let inv ← intRem (r + p) p
      if inv < 0 then throw (.panic "called Option::unwrap() on a None value")
      else pure (some inv.toNat)

end Ecc

end OpenvmSim.Precompiles
