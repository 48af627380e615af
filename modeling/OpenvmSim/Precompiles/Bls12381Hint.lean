import OpenvmSim.Precompiles.State

/-! BLS12-381 `HintFinalExp`.

Wire ABI mirrors BN254's, with 48-byte field elements; the residue witness is
`(c, s)`. -/
namespace OpenvmSim.Precompiles.Bls12381
open Rv32im
open Ark (fromLeBytesModOrder)

/-! ### Bytes and field elements -/

def readFq (mem : Memory) (addr : Word) : Fq := fromLeBytesModOrder (mem.readVec addr 48)

def readFq2 (mem : Memory) (addr : Word) : Fq2 := ⟨readFq mem addr, readFq mem (addr + 48#32)⟩

def fq12ToOpenvmBytes (f : Fq12) : List Byte := Ark.fq12ToBytes 48 f

/-! ### The residue-witness algorithm -/

def polyFactor : ℕ := 5044125407647214251

def finalExpFactor : ℕ :=
  2366356426548243601069753987687709088104621721678962410379583120840019275952471579477684846670499039076873213559162845121989217658133790336552276567078487633052653005423051750848782286407340332979263075575489766963251914185767058009683318020965829271737924625612375201545022326908440428522712877494557944965298566001441468676802477524234094954960009227631543471415676620753242466901942121887152806837594306028649150255258504417829961387165043999299071444887652375514277477719817175923289019181393803729926249507024121957184340179467502106891835144220611408665090353102353194448552304429530104218473070114105759487413726485729058069746063140422361472585604626055492939586602274983146215294625774144156395553405525711143696689756441298365274341189385646499074862712688473936093315628166094221735056483459332831845007196600723053356837526749543765815988577005929923802636375670820616189737737304893769679803809426304143627363860243558537831172903494450556755190448279875942974830469855835666815454271389438587399739607656399812689280234103023464545891697941661992848552456326290792224091557256350095392859243101357349751064730561345062266850238821755009430903520645523345000326783803935359711318798844368754833295302563158150573540616830138810935344206231367357992991289265295323280

def lambda : ℕ :=
  4002409555221667393417789825735904156556882819939007885332058136124031650490837864442687629129030796414117214202539

def powBu (base : Fq12) (exp : ℕ) : Fq12 := power base exp

def invPowBu (base : Fq12) (exp : ℕ) : Calc Fq12 := do
  let inv ← expect "nonzero" (Ark.Fq12.inverse base)
  pure (power inv exp)

@[irreducible] def finalExpHint (f : Fq12) : Calc (Fq12 × Fq12) := do
  let p := finalExpFactor
  let poly := polyFactor
  -- FINAL_EXP_TIMES_27 = p * 27;  FINAL_EXP_TIMES_27_MOD_POLY = (p*27)^(-1) mod poly_factor
  let times27 := p * 27
  let inv ← BigUint.modinv times27 poly
  let inv ← expect "inverse exists" inv
  let times27ModPoly ← BigUint.rem inv poly
  let fFinalExp := powBu f p
  -- 1. p-th root inverse
  let root := powBu fFinalExp 27
  let rootPthInv ← if root = 1 then pure 1 else invPowBu root times27ModPoly
  -- 2. 27-th root inverse
  let root := powBu fFinalExp poly
  let root27thInv ← if powBu root 27 = 1 then invPowBu root 10 else pure 1
  let s := rootPthInv * root27thInv
  let fShifted := f * s
  -- 3. residue witness: c = f_shifted ^ (1/lambda mod final_exp_factor)
  let inv ← BigUint.modinv lambda p
  let lambdaInv ← expect "inverse exists" inv
  let c := powBu fShifted lambdaInv
  pure (c, s)

/-! ### The handler -/

/-- The `i`-th G1 point of the array at `ptr`. The curve equation is not checked. -/
def readG1 (host : Host) (mem : Memory) (ptr : Word) (i : ℕ) : Calc (Fq × Fq) := do
  let off ← mulUnsigned host 32 i 96
  let base := ptr + BitVec.ofNat 32 off
  pure (readFq mem base, readFq mem (base + 48#32))

/-- The `i`-th G2 point of the array at `ptr`. -/
def readG2 (host : Host) (mem : Memory) (ptr : Word) (i : ℕ) : Calc (Fq2 × Fq2) := do
  let off ← mulUnsigned host 32 i 192
  let base := ptr + BitVec.ofNat 32 off
  pure (readFq2 mem base, readFq2 mem (base + 96#32))

def hintFinalExp (host : Host) (insn : Word) : HandlerM Unit := do
  let st ← get
  let mem := st.cpu.mem
  let d := readDescriptors mem (st.cpu.readReg (rs1 insn)) (st.cpu.readReg (rs2 insn))
  if d.pLen ≠ d.qLen then
    customOp s!"BLS12-381 HintFinalExp: P/Q length mismatch ({dec d.pLen} vs {dec d.qLen}) at pc=0x{hex8 st.cpu.pc}"
  else if d.pLen = 0#32 then do
    let bytes := fq12ToOpenvmBytes 1
    pushHintStream (bytes ++ bytes)
  else do
    let g1Pts ← readPoints d.pLen (readG1 host mem d.pPtr)
    let g2Pts ← readPoints d.qLen (readG2 host mem d.qPtr)
    let (c, s) ← finalExpHint (host.bls12381MillerLoop g1Pts g2Pts)
    -- Push c then s into the hint stream.
    pushHintStream (fq12ToOpenvmBytes c)
    pushHintStream (fq12ToOpenvmBytes s)

end OpenvmSim.Precompiles.Bls12381
