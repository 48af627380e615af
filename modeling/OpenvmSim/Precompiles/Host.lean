import OpenvmSim.Ark.Tower
import OpenvmSim.Precompiles.BigUint
import OpenvmSim.Precompiles.Config

/-! What the handlers take from outside the repository.

A `Host` gives the code its third-party functions: the random generator behind
quadratic non-residues, the SHA-256 compression function and the two Miller loops.
It also says how the program was built, and bounds the loops that no argument in
the source bounds; a loop that reaches the bound is reported as such and is no
result. -/
namespace OpenvmSim.Precompiles
open Rv32im (Byte Word)

/-! ### The pairing fields -/

namespace Bn254

abbrev Fq : Type := Ark.Fq bn254Fp
abbrev Fq2 : Type := Ark.Fq2 bn254Fp

/-- `9 + i` -/
def xi : Fq2 := ⟨9, 1⟩

abbrev Fq12 : Type := Ark.Fq12 bn254Fp xi

end Bn254

namespace Bls12381

abbrev Fq : Type := Ark.Fq bls12381Fp
abbrev Fq2 : Type := Ark.Fq2 bls12381Fp

/-- `1 + i` -/
def xi : Fq2 := ⟨1, 1⟩

abbrev Fq12 : Type := Ark.Fq12 bls12381Fp xi

end Bls12381

structure Host where
  /-- Debug assertions and arithmetic overflow checks are on. -/
  debugBuild : Bool
  /-- How often an open-ended loop may go round. -/
  fuel : ℕ
  /-- The `k`-th fill of a buffer of `len` bytes by the freshly seeded generator. -/
  rngFill : (len k : ℕ) → Vector Byte len
  compress256 : Vector Word 8 → Vector Byte 64 → Vector Word 8
  bn254MillerLoop : List (Bn254.Fq × Bn254.Fq) → List (Bn254.Fq2 × Bn254.Fq2) → Bn254.Fq12
  bls12381MillerLoop :
    List (Bls12381.Fq × Bls12381.Fq) → List (Bls12381.Fq2 × Bls12381.Fq2) → Bls12381.Fq12

/-- A debug build whose generator fills every buffer with the big-endian number five, and
whose other functions are constant. -/
def Host.constant : Host where
  debugBuild := true
  fuel := 16
  rngFill len _ := Vector.ofFn fun i => if i.val + 1 = len then 5#8 else 0#8
  compress256 state _ := state
  bn254MillerLoop _ _ := 1
  bls12381MillerLoop _ _ := 1

/-! ### Steps that may panic -/

/-- `assert!` under `debug_assertions`. -/
def debugAssert (host : Host) (c : Prop) [Decidable c] : Calc Unit :=
  if host.debugBuild ∧ ¬c then throw (.panic "assertion failed") else pure ()

/-- `a + b` on a `w`-bit unsigned type. -/
def addUnsigned (host : Host) (w a b : ℕ) : Calc ℕ :=
  if a + b < 2 ^ w then pure (a + b)
  else if host.debugBuild then throw (.panic "attempt to add with overflow")
  else pure ((a + b) % 2 ^ w)

/-- `a * b` on a `w`-bit unsigned type. -/
def mulUnsigned (host : Host) (w a b : ℕ) : Calc ℕ :=
  if a * b < 2 ^ w then pure (a * b)
  else if host.debugBuild then throw (.panic "attempt to multiply with overflow")
  else pure (a * b % 2 ^ w)

theorem debugAssert_of {host : Host} {c : Prop} [Decidable c] (h : c) :
    debugAssert host c = .ok () := if_neg fun hc => hc.2 h

theorem addUnsigned_of_lt {host : Host} {w a b : ℕ} (h : a + b < 2 ^ w) :
    addUnsigned host w a b = .ok (a + b) := if_pos h

theorem mulUnsigned_of_lt {host : Host} {w a b : ℕ} (h : a * b < 2 ^ w) :
    mulUnsigned host w a b = .ok (a * b) := if_pos h

end OpenvmSim.Precompiles
