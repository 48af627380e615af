import OpenvmSim.Precompiles.Modular

/-! Short-Weierstrass ECC precompiles (opcode 0x2b, funct3=0b001).

Encoding: `funct7 = curve_idx * 8 + base_op`. Each affine point on the wire is
`coordBytes` × 2 bytes, little-endian: `x_le || y_le`. -/
namespace OpenvmSim.Precompiles
open Rv32im

/-- An affine point `(x, y)`. -/
abbrev Point := Pair

def readPoint (mem : Memory) (ptr : Word) (n : ℕ) : Point := readPair mem ptr n

def writePoint (ptr : Word) (p : Point) (n : ℕ) : HandlerM Unit := writePair ptr p n

def modpSub (a b p : ℕ) : Calc ℕ := do
  let a ← BigUint.rem a p
  let b ← BigUint.rem b p
  subOnce a b p

def addNe (curve : CurveEntry) (p1 p2 : Point) : Calc Point := do
  let p := curve.modulus
  let dx ← modpSub p2.1 p1.1 p
  let dy ← modpSub p2.2 p1.2 p
  let invDx ← expect "AddNe with equal x" (← modInv dx p)
  let lam ← BigUint.rem (dy * invDx) p
  let lamSq ← BigUint.rem (lam * lam) p
  let x3 ← modpSub (← modpSub lamSq p1.1 p) p2.1 p
  let y3 ← modpSub (← BigUint.rem (lam * (← modpSub p1.1 x3 p)) p) p1.2 p
  pure (x3, y3)

def double (curve : CurveEntry) (p1 : Point) : Calc Point := do
  let p := curve.modulus
  let xSq ← BigUint.rem (p1.1 * p1.1) p
  let num ← BigUint.rem (3 * xSq + curve.a) p
  let den ← BigUint.rem (2 * p1.2) p
  let invDen ← expect "Double of point with y=0" (← modInv den p)
  let lam ← BigUint.rem (num * invDen) p
  let lamSq ← BigUint.rem (lam * lam) p
  let twoX ← BigUint.rem (2 * p1.1) p
  let x3 ← modpSub lamSq twoX p
  let y3 ← modpSub (← BigUint.rem (lam * (← modpSub p1.1 x3 p)) p) p1.2 p
  pure (x3, y3)

/-! ### Square roots -/

/-- `while z.modpow(half, p) != pm1 % p { z += 1 }`: whether a residue class passes is
known after `p` rounds. -/
def nonResidueLoop (p half pm1 : ℕ) : ℕ → ℕ → Calc ℕ
  | 0, _ => throw .diverge
  | fuel + 1, z =>
    if powMod p z half ≠ pm1 % p then nonResidueLoop p half pm1 fuel (z + 1) else pure z

/-- Smallest i: 0 < i < m with t^(2^i) == 1, or `none` when `i` reaches `m`. -/
def orderSearch (p m : ℕ) : ℕ → ℕ → ℕ → Calc (Option ℕ)
  | 0, _, _ => throw .diverge
  | fuel + 1, tmp, i =>
    if tmp ≠ 1 then
      if i + 1 = m then pure none else orderSearch p m fuel (tmp * tmp % p) (i + 1)
    else pure (some i)

/-- `1u32 << (m - i - 1)`. -/
def shiftOne (host : Host) (m i : ℕ) : Calc ℕ :=
  if i + 1 ≤ m ∧ m - i - 1 < 32 then pure (2 ^ (m - i - 1))
  else if host.debugBuild then throw (.panic "attempt to shift left with overflow")
  else pure (2 ^ ((m + 2 ^ 32 - (i + 1)) % 32))

/-- The main loop of `tonelli_shanks`. `m` gets smaller in every round but the first. -/
def tonelliLoop (host : Host) (p : ℕ) : ℕ → (m c t r : ℕ) → Calc (Option ℕ)
  | 0, _, _, _, _ => throw .diverge
  | fuel + 1, m, c, t, r =>
    if t = 1 then pure (some r)
    else do
      match ← orderSearch p m (m + p) t 0 with
      | none => pure none -- not a QR
      | some i => do
        let b := powMod p c (← shiftOne host m i)
        let c := b * b % p
        tonelliLoop host p fuel i c (t * c % p) (r * b % p)

/-- Tonelli–Shanks square root mod p. -/
def tonelliShanks (host : Host) (n p : ℕ) : Calc (Option ℕ) :=
  if n = 0 then pure (some 0)
  else do
    -- Euler's criterion: n^((p-1)/2) == 1
    let pm1 ← BigUint.sub p 1
    let half := pm1 >>> 1
    if (← BigUint.modpow n half p) ≠ 1 then pure none
    else do
      -- Factor p-1 = q * 2^s with q odd.
      let (q, s) ← splitTwos pm1 pm1 0
      -- Find a non-residue z.
      let z ← nonResidueLoop p half pm1 p 2
      let c := powMod p z q
      let exp := (q + 1) >>> 1
      let t := powMod p n q
      let r := powMod p n exp
      tonelliLoop host p (s + p + 2) s c t r

/-- `y` with `y^2 = x^3 + a x + b` and the parity asked for, if the right side has a
root. -/
def decompress (host : Host) (curve : CurveEntry) (x parity : ℕ) : Calc (Option ℕ) := do
  let xSq ← BigUint.rem (x * x) curve.modulus
  let xCu ← BigUint.rem (xSq * x) curve.modulus
  let ax ← BigUint.rem (curve.a * x) curve.modulus
  let rhs ← BigUint.rem (xCu + ax + curve.b) curve.modulus
  match ← tonelliShanks host rhs curve.modulus with
  | none => pure none
  | some y => if y % 2 = parity then pure (some y) else some <$> BigUint.sub curve.modulus y

/-- The search of HintNonQr. -/
def leastNonQr (p : ℕ) : Calc ℕ := do
  let pm1 ← BigUint.sub p 1
  let half := pm1 >>> 1
  nonResidueLoop p half pm1 p 2

/-! ### The handler -/

def handleSw (host : Host) (insn : Word) : HandlerM Unit := do
  let st ← get
  let f7 := funct7 insn
  let idx := (f7 / SW_MAX_KINDS).toNat
  let op := f7 % SW_MAX_KINDS
  match st.handler.curves[idx]? with
  | none =>
    customOp s!"SW: curve_idx {idx} out of range (have {st.handler.curves.length}) at pc=0x{hex8 st.cpu.pc}"
  | some curve => do
    let n := curve.coordBytes
    let mem := st.cpu.mem
    let out := st.cpu.readReg (rd insn)
    let aPtr := st.cpu.readReg (rs1 insn)
    let bPtr := st.cpu.readReg (rs2 insn)
    if op = SW_ADD_NE then do
      let p1 := readPoint mem aPtr n
      let p2 := readPoint mem bPtr n
      let r ← addNe curve p1 p2
      writePoint out r n
    else if op = SW_DOUBLE then do
      let p1 := readPoint mem aPtr n
      let r ← double curve p1
      writePoint out r n
    else if op = SW_SETUP then pure ()
    else if op = SW_HINT_DECOMPRESS then do
      -- Input: x (n bytes) at rs1, parity at rs2. Output: y (n bytes) at rd.
      let x := readLe mem aPtr n
      let parity := (st.cpu.readReg (rs2 insn) &&& 1#32).toNat
      match ← decompress host curve x parity with
      | none =>
        customOp s!"SW HintDecompress: no sqrt for x on {curve.name} at pc=0x{hex8 st.cpu.pc}"
      | some finalY => writeLe out finalY n
    else if op = SW_HINT_NON_QR then do
      -- Output a non-quadratic residue mod p.
      let z ← leastNonQr curve.modulus
      writeLe out z n
    else customOp s!"unknown SW op={dec op} curve={curve.name} at pc=0x{hex8 st.cpu.pc}"

end OpenvmSim.Precompiles
