import OpenvmSim.Precompiles.Bls12381Hint
import OpenvmSim.Precompiles.Bn254Hint

/-! Pairing precompiles (opcode 0x2b, funct3=0b011).

The only operation is `HintFinalExp = 0`, for each supported curve. -/
namespace OpenvmSim.Precompiles
open Rv32im

def handlePairing (host : Host) (insn : Word) : HandlerM Unit := do
  let s ← get
  let f7 := funct7 insn
  let idx := (f7 / PAIRING_MAX_KINDS).toNat
  let op := f7 % PAIRING_MAX_KINDS
  let name := s.handler.pairings[idx]?.getD "<out-of-range>"
  if op ≠ 0#32 then
    customOp s!"pairing op={dec op} (only HintFinalExp=0 is defined) for {name} at pc=0x{hex8 s.cpu.pc}"
  else if name = "bn254" then Bn254.hintFinalExp host insn
  else if name = "bls12_381" then Bls12381.hintFinalExp host insn
  else customOp s!"unknown pairing curve {name} at pc=0x{hex8 s.cpu.pc}"

end OpenvmSim.Precompiles
