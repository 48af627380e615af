import Mathlib.Data.Nat.Notation

/-! Compile-time configuration of moduli, curves and pairings.

The index of an entry is the `mod_idx` or `curve_idx` the guest encodes in funct7. -/
namespace OpenvmSim.Precompiles

/-- One modulus registered at boot. -/
structure ModulusEntry where
  name : String
  /-- operand width in bytes -/
  limbBytes : ℕ
  modulus : ℕ
  deriving DecidableEq

/-- Short-Weierstrass curve `y^2 = x^3 + a x + b mod p`. -/
structure CurveEntry where
  name : String
  /-- one coordinate's byte width -/
  coordBytes : ℕ
  /-- `p` (coordinate field) -/
  modulus : ℕ
  a : ℕ
  b : ℕ
  deriving DecidableEq

/-! ### The primes of the tables -/

def bn254Fp : ℕ := 21888242871839275222246405745257275088696311157297823662689037894645226208583
def bn254Fr : ℕ := 21888242871839275222246405745257275088548364400416034343698204186575808495617
def secp256k1Fp : ℕ := 115792089237316195423570985008687907853269984665640564039457584007908834671663
def secp256k1Fr : ℕ := 115792089237316195423570985008687907852837564279074904382605163141518161494337
def p256Fp : ℕ := 115792089210356248762697446949407573530086143415290314195533631308867097853951
def p256Fr : ℕ := 115792089210356248762697446949407573529996955224135760342422259061068512044369
def bls12381Fp : ℕ :=
  4002409555221667393417789825735904156556882819939007885332058136124031650490837864442687629129015664037894272559787
def bls12381Fr : ℕ := 52435875175126190479447740508185965837690552500527637822603658699938581184513

/-! ### The tables -/

def defaultModuli : List ModulusEntry :=
  [ { name := "bn254_fp", limbBytes := 32, modulus := bn254Fp },
    { name := "bn254_fr", limbBytes := 32, modulus := bn254Fr },
    { name := "secp256k1_fp", limbBytes := 32, modulus := secp256k1Fp },
    { name := "secp256k1_fr", limbBytes := 32, modulus := secp256k1Fr },
    { name := "p256_fp", limbBytes := 32, modulus := p256Fp },
    { name := "p256_fr", limbBytes := 32, modulus := p256Fr },
    { name := "bls12_381_fp", limbBytes := 48, modulus := bls12381Fp },
    { name := "bls12_381_fr", limbBytes := 32, modulus := bls12381Fr } ]

def defaultCurves : List CurveEntry :=
  [ { name := "bn254_g1", coordBytes := 32, modulus := bn254Fp, a := 0, b := 3 },
    { name := "secp256k1", coordBytes := 32, modulus := secp256k1Fp, a := 0, b := 7 },
    { name := "p256"
      coordBytes := 32
      modulus := p256Fp
      a := 115792089210356248762697446949407573530086143415290314195533631308867097853948
      b := 41058363725152142129326129780047268409114441015993725554835256314039467401291 },
    { name := "bls12_381_g1", coordBytes := 48, modulus := bls12381Fp, a := 0, b := 4 } ]

def defaultComplex : List ModulusEntry :=
  [ { name := "bn254_fp2", limbBytes := 32, modulus := bn254Fp },
    { name := "bls12_381_fp2", limbBytes := 48, modulus := bls12381Fp } ]

def defaultPairings : List String := ["bn254", "bls12_381"]

end OpenvmSim.Precompiles
