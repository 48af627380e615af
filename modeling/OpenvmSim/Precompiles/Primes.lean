import OpenvmSim.Base.Pocklington
import OpenvmSim.Precompiles.Config

/-! The moduli of the default tables are primes. -/
namespace OpenvmSim.Precompiles
open Pocklington

/-- Each step is a prime, its base and prime factors of its predecessor. -/
def certificate : List Step :=
  [ ⟨3, 2, [2]⟩,
    ⟨271, 2, [3, 3, 3]⟩,
    ⟨1627, 2, [271]⟩,
    ⟨41, 3, [2, 2, 2]⟩,
    ⟨83, 2, [41]⟩,
    ⟨2657, 2, [83]⟩,
    ⟨5, 2, [2, 2]⟩,
    ⟨11, 2, [5]⟩,
    ⟨67, 2, [11]⟩,
    ⟨4423, 2, [67]⟩,
    ⟨41201, 3, [2, 2, 2, 2, 5, 5]⟩,
    ⟨101, 2, [5, 5]⟩,
    ⟨96557, 2, [2, 2, 101]⟩,
    ⟨255515944373312847190720520512484175977, 2, [1627, 2657, 4423, 41201, 96557]⟩,
    ⟨205115282021455665897114700593932402728804164701536103180137503955397371, 2,
      [255515944373312847190720520512484175977]⟩,
    ⟨115792089237316195423570985008687907853269984665640564039457584007908834671663, 2,
      [205115282021455665897114700593932402728804164701536103180137503955397371]⟩,
    ⟨631, 2, [3, 3, 5]⟩,
    ⟨16699, 3, [3, 11, 11]⟩,
    ⟨2861, 2, [5, 11]⟩,
    ⟨85831, 2, [2861]⟩,
    ⟨107361793816595537, 2, [16699, 85831]⟩,
    ⟨7, 2, [3]⟩,
    ⟨29, 2, [7]⟩,
    ⟨59, 2, [29]⟩,
    ⟨4051, 3, [3, 3, 3, 3]⟩,
    ⟨19, 2, [3, 3]⟩,
    ⟨120233, 3, [2, 2, 7, 19]⟩,
    ⟨174723607534414371449, 2, [59, 4051, 120233]⟩,
    ⟨115792089237316195423570985008687907852837564279074904382605163141518161494337, 2,
      [631, 107361793816595537, 174723607534414371449]⟩,
    ⟨23, 2, [11]⟩,
    ⟨13, 2, [2, 2]⟩,
    ⟨53, 2, [13]⟩,
    ⟨107, 2, [53]⟩,
    ⟨204061199, 3, [11, 23, 107]⟩,
    ⟨34282281433, 2, [204061199]⟩,
    ⟨43, 2, [7]⟩,
    ⟨173, 2, [43]⟩,
    ⟨197, 2, [7, 7]⟩,
    ⟨66417393611, 2, [53, 173, 197]⟩,
    ⟨11290956913871, 2, [66417393611]⟩,
    ⟨774023187263532362759620327192479577272145303, 2, [34282281433, 11290956913871]⟩,
    ⟨835945042244614951780389953367877943453916927241, 2,
      [774023187263532362759620327192479577272145303]⟩,
    ⟨115792089210356248762697446949407573530086143415290314195533631308867097853951, 2,
      [835945042244614951780389953367877943453916927241]⟩,
    ⟨131, 2, [13]⟩,
    ⟨3407, 2, [131]⟩,
    ⟨727, 2, [11, 11]⟩,
    ⟨17449, 2, [727]⟩,
    ⟨37, 2, [3, 3]⟩,
    ⟨9547, 2, [3, 37]⟩,
    ⟨38189, 2, [9547]⟩,
    ⟨17, 3, [2, 2, 2]⟩,
    ⟨229, 2, [19]⟩,
    ⟨9350987, 2, [17, 229]⟩,
    ⟨187019741, 2, [9350987]⟩,
    ⟨311245691, 2, [7, 17, 29, 29]⟩,
    ⟨622491383, 2, [311245691]⟩,
    ⟨337, 10, [2, 2, 2, 3]⟩,
    ⟨104471, 2, [337]⟩,
    ⟨3969899, 2, [104471]⟩,
    ⟨1002328039319, 2, [3969899]⟩,
    ⟨115792089210356248762697446949407573529996955224135760342422259061068512044369, 2,
      [3407, 17449, 38189, 187019741, 622491383, 1002328039319]⟩,
    ⟨1853641, 17, [2, 2, 2, 3, 3, 19]⟩,
    ⟨109, 3, [3, 3, 3]⟩,
    ⟨4562087, 5, [2, 17, 109]⟩,
    ⟨2221, 2, [2, 2, 3, 5]⟩,
    ⟨13327, 2, [2221]⟩,
    ⟨173171039, 2, [13327]⟩,
    ⟨13427688667394608761327070753331941386769, 2, [1853641, 4562087, 173171039]⟩,
    ⟨21888242871839275222246405745257275088696311157297823662689037894645226208583, 2,
      [13427688667394608761327070753331941386769]⟩,
    ⟨491, 2, [7, 7]⟩,
    ⟨983, 2, [491]⟩,
    ⟨5501, 2, [5, 5, 5]⟩,
    ⟨11003, 2, [5501]⟩,
    ⟨237073, 15, [2, 2, 2, 2, 3, 11]⟩,
    ⟨3691, 2, [2, 3, 3, 5]⟩,
    ⟨405928799, 2, [11, 3691]⟩,
    ⟨661, 2, [2, 3, 5]⟩,
    ⟨12048837557, 2, [2, 2, 7, 7, 661]⟩,
    ⟨5156902474397, 2, [12048837557]⟩,
    ⟨1670836401704629, 2, [5156902474397]⟩,
    ⟨21888242871839275222246405745257275088548364400416034343698204186575808495617, 5,
      [13, 29, 983, 11003, 237073, 405928799, 1670836401704629]⟩,
    ⟨113, 3, [2, 2, 2, 2]⟩,
    ⟨1151, 17, [2, 5, 5]⟩,
    ⟨755057, 2, [1151]⟩,
    ⟨3819663927398918131021, 6, [3, 3, 5, 19, 113, 755057]⟩,
    ⟨1125266252156850182658904441386709967, 2, [3819663927398918131021]⟩,
    ⟨15778400344354997994418419698270088123916926905054652752758194827714659, 2,
      [1125266252156850182658904441386709967]⟩,
    ⟨4002409555221667393417789825735904156556882819939007885332058136124031650490837864442687629129015664037894272559787, 2,
      [15778400344354997994418419698270088123916926905054652752758194827714659]⟩,
    ⟨10177, 7, [2, 2, 2, 2, 2, 2, 3]⟩,
    ⟨523, 2, [29]⟩,
    ⟨20921, 2, [523]⟩,
    ⟨125527, 2, [20921]⟩,
    ⟨47737, 3, [3, 3, 3, 13]⟩,
    ⟨859267, 2, [47737]⟩,
    ⟨73, 2, [3, 3]⟩,
    ⟨1607, 2, [73]⟩,
    ⟨906349, 2, [1607]⟩,
    ⟨52435875175126190479447740508185965837690552500527637822603658699938581184513, 5,
      [2, 2, 2, 2, 2, 2, 2, 2, 2, 2, 2, 2, 2, 2, 2, 2, 2, 2, 2, 2, 2, 2, 2, 2, 2, 2, 2, 2, 2, 2,
      2, 11, 19, 10177, 125527, 859267, 906349, 906349]⟩ ]

theorem certificate_valid : Valid [2] certificate := by decide +kernel

/-- Every modulus of the default tables is a prime. -/
theorem prime_of_mem_defaultModuli {entry : ModulusEntry} (h : entry ∈ defaultModuli) :
    entry.modulus.Prime := by
  have hmem : ∀ e ∈ defaultModuli, ∃ c ∈ certificate, c.p = e.modulus := by decide +kernel
  exact prime_of_certificate certificate certificate_valid (hmem entry h)

theorem prime_bn254Fp : bn254Fp.Prime :=
  prime_of_mem_defaultModuli (defaultModuli.getElem_mem (n := 0) (by decide))

theorem prime_bls12381Fp : bls12381Fp.Prime :=
  prime_of_mem_defaultModuli (defaultModuli.getElem_mem (n := 6) (by decide))

/-- The first entry of the default table of moduli. -/
def bn254FpEntry : ModulusEntry := { name := "bn254_fp", limbBytes := 32, modulus := bn254Fp }

theorem prime_bn254FpEntry : bn254FpEntry.modulus.Prime := prime_bn254Fp

/-- The first entry of the default table of curves. -/
def bn254G1 : CurveEntry :=
  { name := "bn254_g1", coordBytes := 32, modulus := bn254Fp, a := 0, b := 3 }

instance : Fact bn254G1.modulus.Prime := ⟨prime_bn254Fp⟩

end OpenvmSim.Precompiles
