import OpenvmSim.Precompiles.Outcomes
import OpenvmSim.Precompiles.Primes
import OpenvmSim.Precompiles.SquareRoots

/-! The two modular hints.

HintNonQr emits a quadratic non-residue `z`, and HintSqrt a root of `x` or, if there is none,
of `x z`: the guest can check either without trusting the host. -/
namespace OpenvmSim.Precompiles
open Rv32im

/-! ### Non-residues -/

/-- The `k`-th sample of the rejection loop, as a number. -/
def sampleValue (host : Host) (p k : ℕ) : ℕ :=
  LittleEndian.toNat (host.rngFill (LittleEndian.ofBig p).length k).toList.reverse

/-- The loop returns the first sample it accepts, plus two. -/
theorem nonQrLoop_accepted (host : Host) {p fuel k z : ℕ}
    (h : nonQrLoop host p (p - 3) (LittleEndian.ofBig p).length ((p - 1) >>> 1) (p - 1) fuel k =
      .ok z) : ∃ j, Accepted host p j ∧ z = sampleValue host p j + 2 := by
  induction fuel generalizing k with
  | zero => cases h
  | succ fuel ih =>
    rw [nonQrLoop] at h
    dsimp only at h
    split at h
    · exact ih h
    · next hlt =>
      split at h
      · next hpow =>
        obtain rfl := Except.ok.inj h
        exact ⟨k, ⟨Nat.not_le.mp hlt, hpow⟩, rfl⟩
      · exact ih h

/-- **The non-residue.** Whatever `find_non_qr_openvm` returns for an odd prime `p` is a quadratic
non-residue in `[2, p - 1]`, and it never panics: `p - 1` for `p = 3` modulo 4, `2` for `p = 5`
modulo 8, and otherwise an accepted sample. -/
theorem findNonQrOpenvm_nonresidue (host : Host) {p : ℕ} (hp : p.Prime) (hodd : p ≠ 2) :
    (∀ z, findNonQrOpenvm host p = .ok z → 2 ≤ z ∧ z ≤ p - 1 ∧ ¬IsSquare (z : ZMod p)) ∧
    (p % 4 = 3 → findNonQrOpenvm host p = .ok (p - 1)) ∧
    (p % 8 = 5 → findNonQrOpenvm host p = .ok 2) ∧
    (p % 8 = 1 → ∀ z, findNonQrOpenvm host p = .ok z →
      ∃ k, Accepted host p k ∧ z = sampleValue host p k + 2) ∧
    ∀ message, findNonQrOpenvm host p ≠ .error (.panic message) := by
  have : Fact p.Prime := ⟨hp⟩
  refine ⟨fun z hz => ?_, fun h3 => ?_, fun h5 => ?_, fun h1 z hz => ?_, fun message => ?_⟩
  · obtain ⟨h2, hlt, hsq⟩ := findNonQrOpenvm_ok host hodd hz
    exact ⟨h2, Nat.le_sub_one_of_lt hlt, hsq⟩
  · rw [findNonQrOpenvm, if_pos h3, BigUint.sub_of_le hp.one_lt.le]
  · rw [findNonQrOpenvm, if_neg (by omega), if_pos h5]
    rfl
  · rw [findNonQrOpenvm_sampled host hodd (by omega) (by omega)] at hz
    exact nonQrLoop_accepted host hz
  · exact findNonQrOpenvm_ne_panic host hodd message

/-- Seven is the non-residue sampled modulo 17 from the number five. -/
theorem findNonQrOpenvm_nonresidue_17 :
    findNonQrOpenvm Host.constant 17 = .ok 7 ∧ ¬IsSquare ((7 : ℕ) : ZMod 17) := by
  have hrun : findNonQrOpenvm Host.constant 17 = .ok 7 := by decide
  exact ⟨hrun, ((findNonQrOpenvm_nonresidue Host.constant (by decide) (by decide)).1 7 hrun).2.2⟩

/-! ### Square roots -/

/-- The bytes of a HintSqrt: the flag, little-endian in four bytes, and the root. -/
theorem sqrtBytes_eq (n : ℕ) (success : Bool) (r : ℕ) :
    sqrtBytes n (success, r) = LittleEndian.ofNat 4 success.toNat ++ LittleEndian.ofNat n r := by
  rw [sqrtBytes, BigUint.bytesLe_eq]
  cases success with
  | false => rfl
  | true => rfl

/-- **The square-root certificate.** For an odd prime modulus below `256 ^ n` and any `n`-byte
operand `x`, HintSqrt does not panic once a non-residue `z` was found. It leaves the flag one and
a reduced root of `x` in the hint stream if `x` is a square, and the flag zero and a reduced root
of `x z` if not, where `z` is what HintNonQr emits for the modulus. -/
theorem hintSqrt_certificate (host : Host) (s : Machine) {entry : ModulusEntry}
    (hp : entry.modulus.Prime) (hodd : entry.modulus ≠ 2)
    (hlt : entry.modulus < 256 ^ entry.limbBytes) {z : ℕ}
    (hz : findNonQrOpenvm host entry.modulus = .ok z) :
    (∀ insn, IsHintSqrt insn → s.handler.moduli[tableIdx insn]? = some entry →
      let x := leftOperand insn s entry.limbBytes
      (IsSquare (x : ZMod entry.modulus) → ∃ r < entry.modulus, r * r ≡ x [MOD entry.modulus] ∧
        Yields host insn s
          (.hinted (LittleEndian.ofNat 4 1 ++ LittleEndian.ofNat entry.limbBytes r))) ∧
      (¬IsSquare (x : ZMod entry.modulus) →
        ∃ r < entry.modulus, r * r ≡ x * z [MOD entry.modulus] ∧ Yields host insn s
          (.hinted (LittleEndian.ofNat 4 0 ++ LittleEndian.ofNat entry.limbBytes r)))) ∧
    (∀ r < entry.modulus, LittleEndian.toNat (LittleEndian.ofNat entry.limbBytes r) = r) ∧
    (∀ insn, IsHintNonQr insn → s.handler.moduli[tableIdx insn]? = some entry →
      Yields host insn s (.hinted (LittleEndian.ofNat entry.limbBytes z))) := by
  have : Fact entry.modulus.Prime := ⟨hp⟩
  obtain ⟨-, hzlt, hnq⟩ := findNonQrOpenvm_ok host hodd hz
  have hmodEq : ∀ {r y : ℕ}, (r : ZMod entry.modulus) ^ 2 = y → r * r ≡ y [MOD entry.modulus] := by
    intro r y h
    rw [← ZMod.natCast_eq_natCast_iff, Nat.cast_mul, ← pow_two, h]
  refine ⟨fun insn hw he => ⟨fun hsq => ?_, fun hsq => ?_⟩, fun r hr => ?_, fun insn hw he => ?_⟩
  · obtain ⟨r, hr, hrun, hroot⟩ := hintSqrtOf_square hodd hnq hsq
    refine ⟨r, hr, hmodEq hroot, ?_⟩
    have h := handleModular_sqrt host insn s he hw.2 hz hrun
    rw [sqrtBytes_eq] at h
    exact handle_run_ok (calls_modular hw.1) h
  · obtain ⟨r, hr, hrun, hroot⟩ := hintSqrtOf_nonsquare hodd hnq hsq
    rw [← Nat.cast_mul] at hroot
    refine ⟨r, hr, hmodEq hroot, ?_⟩
    have h := handleModular_sqrt host insn s he hw.2 hz hrun
    rw [sqrtBytes_eq] at h
    exact handle_run_ok (calls_modular hw.1) h
  · rw [LittleEndian.toNat_ofNat]
    exact Nat.mod_eq_of_lt (hr.trans hlt)
  · have h := handleModular_nonQr host insn s he hw.2 hz
    rw [BigUint.bytesLe_eq] at h
    exact handle_run_ok (calls_modular hw.1) h

/-- HintSqrt of the operand at address zero modulo the first entry of the default table. -/
def hintSqrtWord : Word := MOD_HINT_SQRT <<< 25 ||| F3_MODULAR <<< 12 ||| OPCODE_CUSTOM_1

/-- A machine with the number four at address zero. -/
def fourMachine : Machine := Sim.blank.store 0#32 [4#8]

theorem hintSqrt_certificate_four :
    ∃ r < bn254Fp, r * r ≡ 4 [MOD bn254Fp] ∧ Yields Host.constant hintSqrtWord fourMachine
      (.hinted (LittleEndian.ofNat 4 1 ++ LittleEndian.ofNat 32 r)) := by
  have hodd : bn254FpEntry.modulus ≠ 2 := by decide
  have hlt : bn254FpEntry.modulus < 256 ^ bn254FpEntry.limbBytes := by decide
  have hz : findNonQrOpenvm Host.constant bn254FpEntry.modulus =
      .ok (bn254FpEntry.modulus - 1) := by decide
  have hx : leftOperand hintSqrtWord fourMachine bn254FpEntry.limbBytes = 4 := by decide
  have hsq : IsSquare ((leftOperand hintSqrtWord fourMachine bn254FpEntry.limbBytes : ℕ) :
      ZMod bn254FpEntry.modulus) := by
    rw [hx]
    exact ⟨((2 : ℕ) : ZMod bn254FpEntry.modulus), by rw [← Nat.cast_mul]⟩
  obtain ⟨r, hr, hroot, hy⟩ := ((hintSqrt_certificate Host.constant fourMachine prime_bn254FpEntry hodd hlt hz).1
    hintSqrtWord (by decide) rfl).1 hsq
  rw [hx] at hroot
  exact ⟨r, hr, hroot, hy⟩

end OpenvmSim.Precompiles
