import OpenvmSim.Precompiles.State

/-! BN254 `HintFinalExp`.

Reads G1 and G2 points from guest memory, runs the Miller loop, computes the residue
witness `(c, u)` of its output and pushes both into the hint stream. -/
namespace OpenvmSim.Precompiles.Bn254
open Rv32im
open Ark (fromLeBytesModOrder)

/-! ### Bytes and field elements -/

def readFq (mem : Memory) (addr : Word) : Fq := fromLeBytesModOrder (mem.readVec addr 32)

def readFq2 (mem : Memory) (addr : Word) : Fq2 := ⟨readFq mem addr, readFq mem (addr + 32#32)⟩

def fq12ToOpenvmBytes (f : Fq12) : List Byte := Ark.fq12ToBytes 32 f

/-! ### The residue-witness algorithm -/

/-- EXP1 = (p^12 - 1) / 3 -/
def exp1 : ℕ :=
  4030969696062745741797811005853058291874379204406359442560681893891674450106959530046539719647151210908190211459382793062006703141168852426020468083171325367934590379984666859998399967609544754664110191464072930598755441160008826659219834762354786403012110463250131961575955268597858015384895449311534622125256548620283853223733396368939858981844663598065852816056384933498610930035891058807598891752166582271931875150099691598048016175399382213304673796601585080509443902692818733420199004555566113537482054218823936116647313678747500267068559627206777530424029211671772692598157901876223857571299238046741502089890557442500582300718504160740314926185458079985126192563953772118929726791041828902047546977272656240744693339962973939047279285351052107950250121751682659529260304162131862468322644288196213423232132152125277136333208005221619443705106431645884840489295409272576227859206166894626854018093044908314720

/-- EXP2 = (s + 1) / 3   where p^12 - 1 = 3^3 · s -/
def exp2 : ℕ :=
  149295173928249842288807815031594751550902933496531831205951181255247201855813315927649619246190785589192230054051214557852100116339587126889646966043382421034614458517950624444385183985538694617189266350521219651805757080000326913304438324531658755667115202342597480058368713651772519088329461085612393412046538837788290860138273939590365147475728281409846400594680923462911515927255224400281440435265428973034513894448136725853630228718495637529802733207466114092942366766400693830377740909465411612499335341437923559875826432546203713595131838044695464089778859691547136762894737106526809539677749557286722299625576201574095640767352005953344997266128077036486155280146436004404804695964512181557316554713802082990544197776406442186936269827816744738898152657469728130713344598597476387715653492155415311971560450078713968012341037230430349766855793764662401499603533676762082513303932107208402000670112774382027

/-- r_inv = 1/r mod (p^12 - 1)/r -/
def rInv : ℕ :=
  495819184011867778744231927046742333492451180917315223017345540833046880485481720031136878341141903241966521818658471092566752321606779256340158678675679238405722886654128392203338228575623261160538734808887996935946888297414610216445334190959815200956855428635568184508263913274453942864817234480763055154719338281461936129150171789463489422401982681230261920147923652438266934726901346095892093443898852488218812468761027620988447655860644584419583586883569984588067403598284748297179498734419889699245081714359110559679136004228878808158639412436468707589339209058958785568729925402190575720856279605832146553573981587948304340677613460685405477047119496887534881410757668344088436651291444274840864486870663164657544390995506448087189408281061890434467956047582679858345583941396130713046072603335601764495918026585155498301896749919393

/-- m_inv = 1/m   where m = λ / (3·r) -/
def mInv : ℕ :=
  17840267520054779749190587238017784600702972825655245554504342129614427201836516118803396948809179149954197175783449826546445899524065131269177708416982407215963288737761615699967145070776364294542559324079147363363059480104341231360692143673915822421222230661528586799190306058519400019024762424366780736540525310403098758015600523609594113357130678138304964034267260758692953579514899054295817541844330584721967571697039986079722203518034173581264955381924826388858518077894154909963532054519350571947910625755075099598588672669612434444513251495355121627496067454526862754597351094345783576387352673894873931328099247263766690688395096280633426669535619271711975898132416216382905928886703963310231865346128293216316379527200971959980873989485521004596686352787540034457467115536116148612884807380187255514888720048664139404687086409399

/-- A primitive 27th root of unity in Fq12: its coefficient at `v`. -/
def unityRoot27 : Fq12 :=
  let u0 : ℕ := 9483667112135124394372960210728142145589475128897916459350428495526310884707
  let u1 : ℕ := 4534159768373982659291990808346042891252278737770656686799127720849666919525
  let uCoeffs : Fq2 :=
    ⟨fromLeBytesModOrder (LittleEndian.ofBig u0), fromLeBytesModOrder (LittleEndian.ofBig u1)⟩
  ⟨⟨0, uCoeffs, 0⟩, 0⟩

def powBiguint (base : Fq12) (exp : ℕ) : Fq12 := power base exp

/-- Cube `x3` until it is one, counting the rounds. -/
def tsLoop (host : Host) : ℕ → Fq12 → BitVec 32 → Calc (BitVec 32)
  | 0, _, _ => throw .diverge
  | fuel + 1, x3, t =>
    if x3 ≠ 1 then
      let tmp := x3 * x3
      if host.debugBuild ∧ t = 0x7fffffff#32 then throw (.panic "attempt to add with overflow")
      else tsLoop host fuel (x3 * tmp) (t + 1#32)
    else pure t

/-- Multiply `x` by the 27th root's power until `x * x * x * c_inv` is one. -/
def cubeRootLoop (host : Host) (cInv unityRoot27Exp2 : Fq12) : ℕ → Fq12 → BitVec 32 → Calc Fq12
  | 0, _, _ => throw .diverge
  | fuel + 1, x, t =>
    if t ≠ 0#32 then do
      let x := x * unityRoot27Exp2
      let t ← tsLoop host host.fuel (x * x * x * cInv) 0#32
      cubeRootLoop host cInv unityRoot27Exp2 fuel x t
    else pure x

/-- The scaling of `f` to a cubic residue: the scaled `f` and the factor. -/
def cubicScaling (f : Fq12) : Fq12 × Fq12 :=
  if powBiguint f exp1 = 1 then (f, 1)
  else
    let fu := f * unityRoot27
    if powBiguint fu exp1 = 1 then (fu, unityRoot27)
    else (fu * unityRoot27, unityRoot27 * unityRoot27)

/-- Port of `final_exp_hint` from the openvm halo2curves shim. -/
@[irreducible] def finalExpHint (host : Host) (f : Fq12) : Calc (Fq12 × Fq12) := do
  debugAssert host (powBiguint unityRoot27 27 = 1)
  let (c, u) := cubicScaling f
  -- r-th root, then m-th root.
  let c := powBiguint (powBiguint c rInv) mInv
  -- Modified Tonelli–Shanks for the cube root.
  let unityRoot27Exp2 := powBiguint unityRoot27 exp2
  let x := powBiguint c exp2
  let cInv ← expect "c is nonzero" (Ark.Fq12.inverse c)
  let t ← tsLoop host host.fuel (x * x * x * cInv) 0#32
  let x ← cubeRootLoop host cInv unityRoot27Exp2 host.fuel x t
  debugAssert host (c = x * x * x)
  pure (x, u)

/-! ### The handler -/

/-- The `i`-th G1 point of the array at `ptr`. The curve equation is not checked. -/
def readG1 (host : Host) (mem : Memory) (ptr : Word) (i : ℕ) : Calc (Fq × Fq) := do
  let off ← mulUnsigned host 32 i 64
  let base := ptr + BitVec.ofNat 32 off
  pure (readFq mem base, readFq mem (base + 32#32))

/-- The `i`-th G2 point of the array at `ptr`. -/
def readG2 (host : Host) (mem : Memory) (ptr : Word) (i : ℕ) : Calc (Fq2 × Fq2) := do
  let off ← mulUnsigned host 32 i 128
  let base := ptr + BitVec.ofNat 32 off
  pure (readFq2 mem base, readFq2 mem (base + 64#32))

def hintFinalExp (host : Host) (insn : Word) : HandlerM Unit := do
  let s ← get
  -- rs1/rs2 each holds the address of an 8-byte (ptr, len) descriptor.
  let mem := s.cpu.mem
  let d := readDescriptors mem (s.cpu.readReg (rs1 insn)) (s.cpu.readReg (rs2 insn))
  if d.pLen ≠ d.qLen then
    customOp s!"BN254 HintFinalExp: P/Q length mismatch ({dec d.pLen} vs {dec d.qLen}) at pc=0x{hex8 s.cpu.pc}"
  else if d.pLen = 0#32 then do
    -- Empty multi-miller-loop has f = 1; emit (c=1, u=1).
    let bytes := fq12ToOpenvmBytes 1
    pushHintStream bytes
    pushHintStream bytes
  else do
    let g1Pts ← readPoints d.pLen (readG1 host mem d.pPtr)
    let g2Pts ← readPoints d.qLen (readG2 host mem d.qPtr)
    let (c, u) ← finalExpHint host (host.bn254MillerLoop g1Pts g2Pts)
    -- Push c then u into the hint stream.
    pushHintStream (fq12ToOpenvmBytes c)
    pushHintStream (fq12ToOpenvmBytes u)

end OpenvmSim.Precompiles.Bn254
