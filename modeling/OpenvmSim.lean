import OpenvmSim.Rv32im.FlatMemory
import OpenvmSim.Rv32im.Cpu
import OpenvmSim.Rv32im.Fields
import OpenvmSim.Rv32im.Values
import OpenvmSim.Rv32im.Refinement
import OpenvmSim.Base.Loop
import OpenvmSim.Base.Power
import OpenvmSim.Base.MulProgram
import OpenvmSim.Base.CubicRoots
import OpenvmSim.Base.CubicAlgebra
import OpenvmSim.Precompiles.Encoding
import OpenvmSim.Precompiles.BigUint
import OpenvmSim.Precompiles.Config
import OpenvmSim.Precompiles.Pairing
import OpenvmSim.Precompiles.Int256
import OpenvmSim.Precompiles.Hashes
import OpenvmSim.Precompiles.Ecc
import OpenvmSim.Precompiles.Handler
import OpenvmSim.Precompiles.Operations
import OpenvmSim.Rv32im.Atomicity
import OpenvmSim.Rv32im.Run
import OpenvmSim.Precompiles.Effects
import OpenvmSim.Precompiles.Step
import OpenvmSim.Precompiles.ProgramCounter
import OpenvmSim.Precompiles.Exit
import OpenvmSim.Precompiles.Snapshot
import OpenvmSim.Precompiles.HintStream
import OpenvmSim.Precompiles.InputDelivery
import OpenvmSim.Base.Pocklington
import OpenvmSim.Precompiles.Primes
import OpenvmSim.Base.Inverse
import OpenvmSim.Ark.TowerField
import OpenvmSim.Base.Roots
import OpenvmSim.Precompiles.Bn254Residue
import OpenvmSim.Precompiles.Bls12381Residue
import OpenvmSim.Base.Panic
import OpenvmSim.Base.QuadraticResidue
import OpenvmSim.Base.TonelliShanks
import OpenvmSim.Precompiles.ModInverse
import OpenvmSim.Precompiles.FieldArith
import OpenvmSim.Precompiles.CurveArith
import OpenvmSim.Precompiles.SquareRoots
import OpenvmSim.Precompiles.Int256Arith
import OpenvmSim.Precompiles.Decompress
import OpenvmSim.Precompiles.Panics
import OpenvmSim.Rv32im.Reserved
import OpenvmSim.Rv32im.Resume
import OpenvmSim.Precompiles.Budget
import OpenvmSim.Rv32im.SameView
import OpenvmSim.Precompiles.Interference
import OpenvmSim.Rv32im.IsaRun
import OpenvmSim.Base.Actions
import OpenvmSim.Base.SlotProgram
import OpenvmSim.Base.AddChain
import OpenvmSim.Precompiles.SlotRuns
import OpenvmSim.Precompiles.FieldRuns
import OpenvmSim.Precompiles.SlotCode
import OpenvmSim.Precompiles.PairSlots
import OpenvmSim.Precompiles.ComplexRuns
import OpenvmSim.Precompiles.CurvePrograms
import OpenvmSim.Precompiles.CurveRuns
import OpenvmSim.Rv32im.Assemble
import OpenvmSim.Rv32im.Listing
import OpenvmSim.Precompiles.Halting
import OpenvmSim.Rv32im.Frame
import OpenvmSim.Precompiles.Footprint
import OpenvmSim.Precompiles.Outcomes
import OpenvmSim.Precompiles.ModularHints
import OpenvmSim.Precompiles.FieldWords
import OpenvmSim.Precompiles.Congruence
import OpenvmSim.Precompiles.ModularExponent
import OpenvmSim.Precompiles.CurveGroup
import OpenvmSim.Precompiles.ShippedCurves
import OpenvmSim.Precompiles.Canonical
import OpenvmSim.Precompiles.ComplexField
import OpenvmSim.Base.Fips202
import OpenvmSim.Base.Fill
import OpenvmSim.Precompiles.Keccak
import OpenvmSim.Base.InPlace
import OpenvmSim.Precompiles.Xorin
import OpenvmSim.Precompiles.Int256Words
import OpenvmSim.Precompiles.Int256Shift
import OpenvmSim.Precompiles.Int256Order
import OpenvmSim.Base.SparseArray
import OpenvmSim.Precompiles.Output
import OpenvmSim.Precompiles.RevealAddress
import OpenvmSim.Elf.Loader
import OpenvmSim.Elf.LoaderTotal
import OpenvmSim.Rv32im.InitialMemory
import OpenvmSim.Precompiles.NonResidue
import OpenvmSim.Precompiles.RootAgreement
import OpenvmSim.Precompiles.HintReads
import OpenvmSim.Precompiles.HintAlignment
import OpenvmSim.Base.Provenance
import OpenvmSim.Precompiles.HintSources
import OpenvmSim.Rv32im.Alignment
import OpenvmSim.Precompiles.FetchAlignment
import OpenvmSim.Precompiles.Sponge
import OpenvmSim.Base.HexText
import OpenvmSim.Runner.Main
import OpenvmSim.Base.Sponge
import OpenvmSim.Precompiles.HashRuns
import OpenvmSim.Guest.Echo
import OpenvmSim.Precompiles.WitnessReads
