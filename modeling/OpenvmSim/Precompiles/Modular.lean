import OpenvmSim.Precompiles.State

/-! Modular arithmetic (opcode 0x2b funct3=0b000) and complex-extension Fp2 (opcode
0x2b funct3=0b010) precompiles.

Encoding: funct7 = mod_idx * 8 + base_op. All operands are little-endian byte arrays
of length `limbBytes`. The two HINT operations push values into the hint stream
instead of writing memory. -/
namespace OpenvmSim.Precompiles
open Rv32im

/-! ### Non-residues and square roots -/

/-- The rejection-sampling loop: the `k`-th fill and those after it. -/
def nonQrLoop (host : Host) (modulus range len exponent pm1 : ℕ) : ℕ → ℕ → Calc ℕ
  | 0, _ => throw .diverge
  | fuel + 1, k =>
    let val := LittleEndian.toNat (host.rngFill len k).toList.reverse
    if val ≥ range then nonQrLoop host modulus range len exponent pm1 fuel (k + 1)
    else
      let nonQr := val + 2
      if powMod modulus nonQr exponent = pm1 then pure nonQr
      else nonQrLoop host modulus range len exponent pm1 fuel (k + 1)

/-- Fast paths for `p ≡ 3 (mod 4)` and `p ≡ 5 (mod 8)`, otherwise rejection-samples
with a deterministic generator. -/
def findNonQrOpenvm (host : Host) (modulus : ℕ) : Calc ℕ :=
  if modulus % 4 = 3 then BigUint.sub modulus 1
  else if modulus % 8 = 5 then pure 2
  else do
    let range ← BigUint.sub modulus 3
    let len := (LittleEndian.ofBig modulus).length
    -- the modulus is at least 3 from here on
    let exponent := (modulus - 1) >>> 1
    let pm1 := modulus - 1
    nonQrLoop host modulus range len exponent pm1 host.fuel 0

/-- `while q % 2 == 0 { s += 1; q /= 2 }`: a positive `q` is odd before `q` rounds are
over, and for `q = 0` the loop does not end. -/
def splitTwos : ℕ → ℕ → ℕ → Calc (ℕ × ℕ)
  | 0, _, _ => throw .diverge
  | fuel + 1, q, s => if q % 2 = 0 then splitTwos fuel (q / 2) (s + 1) else pure (q, s)

/-- `while tmp != 1 && i < m { tmp = tmp * tmp % modulus; i += 1 }`, with `m - i`
rounds left. -/
def orderLoop (modulus : ℕ) : ℕ → ℕ → ℕ → ℕ
  | 0, _, i => i
  | left + 1, tmp, i =>
    if tmp ≠ 1 then orderLoop modulus left (tmp * tmp % modulus) (i + 1) else i

/-- `b` squared `k` times. -/
def squareTimes (modulus : ℕ) : ℕ → ℕ → ℕ
  | 0, b => b
  | k + 1, b => squareTimes modulus k (b * b % modulus)

/-- The main loop of `mod_sqrt`. `m` gets smaller in every round. -/
def modSqrtLoop (modulus : ℕ) : ℕ → (m c t r : ℕ) → Calc (Option ℕ)
  | 0, _, _, _, _ => throw .diverge
  | fuel + 1, m, c, t, r =>
    if t = 0 then pure (some 0)
    else if t = 1 then pure (some r)
    else
      let i := orderLoop modulus m t 0
      if i = m then pure none
      else
        let b := squareTimes modulus (m - i - 1) c
        modSqrtLoop modulus fuel i (b * b % modulus) (t * b % modulus * b % modulus)
          (r * b % modulus)

/-- Direct port of `mod_sqrt` from openvm-circuit's algebra extension. -/
def modSqrtOpenvm (x modulus nonQr : ℕ) : Calc (Option ℕ) :=
  if modulus % 4 = 3 then do
    -- x^(1/2) = x^((p+1)/4) when p = 3 mod 4
    let exponent := (modulus + 1) >>> 2
    let ret ← BigUint.modpow x exponent modulus
    let lhs ← BigUint.rem (ret * ret) modulus
    let rhs ← BigUint.rem x modulus
    if lhs = rhs then pure (some ret) else pure none
  else do
    -- Tonelli-Shanks
    let q ← BigUint.sub modulus 1
    let (q, s) ← splitTwos q q 0
    let z := nonQr
    let c ← BigUint.modpow z q modulus
    let t ← BigUint.modpow x q modulus
    let r ← BigUint.modpow x ((q + 1) >>> 1) modulus
    modSqrtLoop modulus (s + 1) s c t r

/-! ### Modular operations -/

/-- `(a - b) % p` for `a >= b`, otherwise `(p + a - b) % p`. -/
def subOnce (a b p : ℕ) : Calc ℕ := do
  let diff ← if a ≥ b then BigUint.sub a b else BigUint.sub (p + a) b
  BigUint.rem diff p

/-- The quotient, or `none` when `b` has no inverse. -/
def modDiv (a b p : ℕ) : Calc (Option ℕ) := do
  match ← modInv b p with
  | none => pure none
  | some inv => some <$> BigUint.rem (a * inv) p

def modIsEq (a b p : ℕ) : Calc Bool := do
  let ra ← BigUint.rem a p
  let rb ← BigUint.rem b p
  pure (ra == rb)

def doModOp (insn : Word) (entry : ModulusEntry) (op : Word) : HandlerM Unit := do
  let st ← get
  let out := st.cpu.readReg (rd insn)
  let aPtr := st.cpu.readReg (rs1 insn)
  let bPtr := st.cpu.readReg (rs2 insn)
  let n := entry.limbBytes
  let a := readLe st.cpu.mem aPtr n
  let b := readLe st.cpu.mem bPtr n
  let p := entry.modulus
  if op = MOD_ADD then do
    let r ← BigUint.rem (a + b) p
    writeLe out r n
  else if op = MOD_SUB then do
    let r ← subOnce a b p
    writeLe out r n
  else if op = MOD_MUL then do
    let r ← BigUint.rem (a * b) p
    writeLe out r n
  else if op = MOD_DIV then do
    match ← modDiv a b p with
    | none =>
      customOp s!"modular inverse of zero/non-coprime b in {entry.name} divmod at pc=0x{hex8 st.cpu.pc}"
    | some r => writeLe out r n
  else if op = MOD_ISEQ then do
    -- IsEqMod writes directly to register `rd`, not to memory at [rd].
    let eq ← modIsEq a b p
    writeReg (rd insn) ((BitVec.ofBool eq).setWidth 32)
  else if op = MOD_SETUP then
    -- No-op: moduli are static in our config.
    pure ()
  else
    customOp s!"unknown modular op={dec op} for modulus {entry.name} at pc=0x{hex8 st.cpu.pc}"

/-- The root of `x` or, if it has none, of `x * non_qr`, and which of the two. -/
def hintSqrtOf (x modulus nonQr : ℕ) : Calc (Bool × ℕ) := do
  match ← modSqrtOpenvm x modulus nonQr with
  | some s => pure (true, s)
  | none => do
    let prod ← BigUint.rem (x * nonQr) modulus
    let s ← expect "either x or x*non_qr should be a square" (← modSqrtOpenvm prod modulus nonQr)
    pure (false, s)

def handleModular (host : Host) (insn : Word) : HandlerM Unit := do
  let st ← get
  let f7 := funct7 insn
  let modIdx := (f7 / MODULAR_MAX_KINDS).toNat
  let op := f7 % MODULAR_MAX_KINDS
  match st.handler.moduli[modIdx]? with
  | none =>
    customOp s!"modular: mod_idx {modIdx} out of range (have {st.handler.moduli.length}) at pc=0x{hex8 st.cpu.pc}"
  | some entry =>
    if op = MOD_HINT_NON_QR then do
      let nonQr ← findNonQrOpenvm host entry.modulus
      replaceHintStream (BigUint.bytesLe nonQr entry.limbBytes)
    else if op = MOD_HINT_SQRT then do
      let xPtr := st.cpu.readReg (rs1 insn)
      let x := readLe st.cpu.mem xPtr entry.limbBytes
      let nonQr ← findNonQrOpenvm host entry.modulus
      let (success, sqrt) ← hintSqrtOf x entry.modulus nonQr
      -- Wire layout: 4 bytes flag (u32 LE, 0=non-QR, 1=QR) + `limbBytes` bytes of sqrt.
      replaceHintStream ((BitVec.ofBool success).setWidth 8 :: List.replicate 3 0#8 ++
        BigUint.bytesLe sqrt entry.limbBytes)
    else doModOp insn entry op

/-! ### Complex operations -/

/-- `(pre - neg) % p`, with as many multiples of `p` added as it takes. -/
def subCeil (pre neg p : ℕ) : Calc ℕ :=
  if pre ≥ neg then do
    let diff ← BigUint.sub pre neg
    BigUint.rem diff p
  else do
    let diff ← BigUint.sub neg pre
    let k ← BigUint.divCeil diff p
    let lifted ← BigUint.sub (k * p + pre) neg
    BigUint.rem lifted p

/-- An Fp2 element `c0 + c1 * X` by its coefficients. -/
abbrev Pair := ℕ × ℕ

def complexAdd (a b : Pair) (p : ℕ) : Calc Pair := do
  let r0 ← BigUint.rem (a.1 + b.1) p
  let r1 ← BigUint.rem (a.2 + b.2) p
  pure (r0, r1)

def complexSub (a b : Pair) (p : ℕ) : Calc Pair := do
  let r0 ← subOnce a.1 b.1 p
  let r1 ← subOnce a.2 b.2 p
  pure (r0, r1)

/-- (a0 + a1*X)(b0 + b1*X) = (a0 b0 - a1 b1) + (a0 b1 + a1 b0) X -/
def complexMul (a b : Pair) (p : ℕ) : Calc Pair := do
  let r0 ← subCeil (a.1 * b.1) (a.2 * b.2) p
  let r1 ← BigUint.rem (a.1 * b.2 + a.2 * b.1) p
  pure (r0, r1)

/-- The quotient, or `none` when the norm of `b` has no inverse. -/
def complexDiv (a b : Pair) (p : ℕ) : Calc (Option Pair) := do
  -- Need inverse of (b0 + b1 X). norm = b0^2 + b1^2.
  let norm ← BigUint.rem (b.1 * b.1 + b.2 * b.2) p
  match ← modInv norm p with
  | none => pure none
  | some inv => do
    -- b^{-1} = (b0 - b1 X) / norm
    let conj0 := b.1
    let conj1 ← if b.2 = 0 then pure 0 else do BigUint.rem (← BigUint.sub p b.2) p
    let inv0 ← BigUint.rem (conj0 * inv) p
    let inv1 ← BigUint.rem (conj1 * inv) p
    -- Multiply a by b^{-1}.
    let r0 ← subCeil (a.1 * inv0) (a.2 * inv1) p
    let r1 ← BigUint.rem (a.1 * inv1 + a.2 * inv0) p
    pure (some (r0, r1))

def complexIsEq (a b : Pair) (p : ℕ) : Calc Bool := do
  let ra0 ← BigUint.rem a.1 p
  let rb0 ← BigUint.rem b.1 p
  let ra1 ← BigUint.rem a.2 p
  let rb1 ← BigUint.rem b.2 p
  pure (ra0 == rb0 && ra1 == rb1)

/-- Two numbers at `ptr`, `n` bytes each. -/
def readPair (mem : Memory) (ptr : Word) (n : ℕ) : Pair :=
  (readLe mem ptr n, readLe mem (ptr + BitVec.ofNat 32 n) n)

def writePair (ptr : Word) (r : Pair) (n : ℕ) : HandlerM Unit := do
  writeLe ptr r.1 n
  writeLe (ptr + BitVec.ofNat 32 n) r.2 n

/-- Complex Fp2 arithmetic over c0 + c1 * X where X^2 = -1. Each Fp2 element is
encoded as `c0 || c1`. -/
def handleComplex (insn : Word) : HandlerM Unit := do
  let st ← get
  let f7 := funct7 insn
  let idx := (f7 / MODULAR_MAX_KINDS).toNat
  let op := f7 % MODULAR_MAX_KINDS
  match st.handler.complex[idx]? with
  | none =>
    customOp s!"complex: idx {idx} out of range (have {st.handler.complex.length}) at pc=0x{hex8 st.cpu.pc}"
  | some entry =>
    let n := entry.limbBytes
    let out := st.cpu.readReg (rd insn)
    let p := entry.modulus
    let a := readPair st.cpu.mem (st.cpu.readReg (rs1 insn)) n
    let b := readPair st.cpu.mem (st.cpu.readReg (rs2 insn)) n
    if op = MOD_ADD then do
      let r ← complexAdd a b p
      writePair out r n
    else if op = MOD_SUB then do
      let r ← complexSub a b p
      writePair out r n
    else if op = MOD_MUL then do
      let r ← complexMul a b p
      writePair out r n
    else if op = MOD_DIV then do
      match ← complexDiv a b p with
      | none => customOp s!"complex div: non-invertible norm at pc=0x{hex8 st.cpu.pc}"
      | some r => writePair out r n
    else if op = MOD_ISEQ then do
      -- Same convention as modular IsEq: destination is the register file, not memory.
      let eq ← complexIsEq a b p
      writeReg (rd insn) ((BitVec.ofBool eq).setWidth 32)
    else if op = MOD_SETUP then pure ()
    else customOp s!"unknown complex op={dec op} for {entry.name} at pc=0x{hex8 st.cpu.pc}"

end OpenvmSim.Precompiles
