import OpenvmSim.Precompiles.Bls12381Residue
import OpenvmSim.Precompiles.Bn254Residue
import OpenvmSim.Precompiles.HintAlignment
import OpenvmSim.Precompiles.Panics

/-! Residue witnesses, read back.

A guest that asks for the hint of a final exponentiation reads two elements of the extension field
from the hint stream, as bytes. It gets the elements that the host has found, and its own check on
them decides the pairing equation (`run_witness`). -/
namespace OpenvmSim

namespace Ark
variable {p : ℕ} {ξ : Fq2 p}

/-- The element whose coordinates are written out in `n` bytes each. -/
def fq12OfBytes (n : ℕ) (bs : List (BitVec 8)) : Fq12 p ξ :=
  let x (k : ℕ) : Fq p := fromLeBytesModOrder ((bs.drop (k * n)).take n)
  ⟨⟨⟨x 0, x 1⟩, ⟨x 4, x 5⟩, ⟨x 8, x 9⟩⟩, ⟨⟨x 2, x 3⟩, ⟨x 6, x 7⟩, ⟨x 10, x 11⟩⟩⟩

/-- A coordinate in bytes. -/
theorem fq_roundtrip [NeZero p] {n : ℕ} (hp : p ≤ 256 ^ n) (x : Fq p) :
    fromLeBytesModOrder (fqToLeBytes n x) = x := by
  have hlt : x.val < 256 ^ n := (ZMod.val_lt x).trans_le hp
  rw [fromLeBytesModOrder, fqToLeBytes, LittleEndian.toNat_ofNat, Nat.mod_eq_of_lt hlt,
    ZMod.natCast_zmod_val]

/-- The `k`-th of the coordinates. -/
theorem fqs_roundtrip [NeZero p] {n : ℕ} (hp : p ≤ 256 ^ n) (rest : List (BitVec 8))
    {xs : List (Fq p)} {k : ℕ} {x : Fq p} (h : xs[k]? = some x) :
    fromLeBytesModOrder (((xs.flatMap (fqToLeBytes n) ++ rest).drop (k * n)).take n) = x := by
  have hlen : ∀ y : Fq p, (fqToLeBytes n y).length = n := fun y => LittleEndian.length_ofNat _ _
  induction xs generalizing k with
  | nil => cases h
  | cons y ys ih =>
    rw [List.flatMap_cons, List.append_assoc]
    cases k with
    | zero =>
      obtain rfl := Option.some.inj h
      rw [Nat.zero_mul, List.drop_zero, List.take_left' (hlen y), fq_roundtrip hp]
    | succ k =>
      rw [Nat.succ_mul, Nat.add_comm, ← List.drop_drop, List.drop_left' (hlen y)]
      exact ih h

/-- What is written is read, whatever stands behind it. -/
theorem fq12_roundtrip [NeZero p] {n : ℕ} (hp : p ≤ 256 ^ n) (f : Fq12 p ξ)
    (rest : List (BitVec 8)) : fq12OfBytes n (fq12ToBytes n f ++ rest) = f := by
  obtain ⟨xs, hxs⟩ : ∃ xs, xs = [f.re.c0.re, f.re.c0.im, f.im.c0.re, f.im.c0.im, f.re.c1.re,
    f.re.c1.im, f.im.c1.re, f.im.c1.im, f.re.c2.re, f.re.c2.im, f.im.c2.re, f.im.c2.im] := ⟨_, rfl⟩
  have hbytes : fq12ToBytes n f = xs.flatMap (fqToLeBytes n) := by
    simp [hxs, fq12ToBytes, fq2ToLeBytes]
  have hread (k : ℕ) (x : Fq p) (h : xs[k]? = some x) :
      fromLeBytesModOrder (((xs.flatMap (fqToLeBytes n) ++ rest).drop (k * n)).take n) = x :=
    fqs_roundtrip hp rest h
  subst hxs
  rw [fq12OfBytes, hbytes]
  simp only [hread 0 _ rfl, hread 1 _ rfl, hread 2 _ rfl, hread 3 _ rfl, hread 4 _ rfl,
    hread 5 _ rfl, hread 6 _ rfl, hread 7 _ rfl, hread 8 _ rfl, hread 9 _ rfl, hread 10 _ rfl,
    hread 11 _ rfl]

/-- Two elements, one behind the other. -/
def witnessOfBytes (n : ℕ) (bs : List (BitVec 8)) : Fq12 p ξ × Fq12 p ξ :=
  (fq12OfBytes n bs, fq12OfBytes n (bs.drop (12 * n)))

theorem witness_roundtrip [NeZero p] {n : ℕ} (hp : p ≤ 256 ^ n) (r : Fq12 p ξ × Fq12 p ξ) :
    witnessOfBytes n (fq12ToBytes n r.1 ++ fq12ToBytes n r.2) = r := by
  have hsnd : fq12OfBytes n (fq12ToBytes n r.2) = r.2 := by
    rw [← List.append_nil (fq12ToBytes n r.2), fq12_roundtrip hp]
  rw [witnessOfBytes, fq12_roundtrip hp, List.drop_left' (length_fq12ToBytes n r.1), hsnd]

end Ark

namespace Precompiles
open Rv32im

/-- What both pairings write out is the hint of the value of the Miller loop. -/
theorem payload_hint {F G H : Type} {enc : F → List Byte} {c : Prop} [Decidable c] {one : F}
    {x : Calc G} {y : Calc H} {miller : G → H → F} {hint : F → Calc (F × F)} {bs : List Byte}
    (hone : hint one = .ok (one, one))
    (h : (if c then pure (enc one ++ enc one)
      else do
        let g ← x
        let h ← y
        let r ← hint (miller g h)
        pure (enc r.1 ++ enc r.2)) = .ok bs) :
    ∃ f r, ((if c then pure one
      else do
        let g ← x
        let h ← y
        pure (miller g h)) = .ok f ∧ hint f = .ok r) ∧ bs = enc r.1 ++ enc r.2 := by
  by_cases hc : c
  · rw [if_pos hc] at h ⊢
    exact ⟨one, (one, one), ⟨rfl, hone⟩, (Except.ok.inj h).symm⟩
  · rw [if_neg hc] at h ⊢
    obtain ⟨g1Pts, hg1, h⟩ := calc_bind_ok h
    obtain ⟨g2Pts, hg2, h⟩ := calc_bind_ok h
    obtain ⟨r, hr, h⟩ := calc_bind_ok h
    refine ⟨_, r, ⟨?_, hr⟩, (Except.ok.inj h).symm⟩
    rw [hg1, ok_bind, hg2, ok_bind]
    rfl

/-! ### BN254 -/

namespace Bn254

/-- The value of the Miller loop over the described points, one for no points. -/
def millerValue (host : Host) (mem : Memory) (d : Descriptors) : Calc Fq12 :=
  if d.pLen = 0#32 then pure 1
  else do
    let g1Pts ← readPoints d.pLen (readG1 host mem d.pPtr)
    let g2Pts ← readPoints d.qLen (readG2 host mem d.qPtr)
    pure (host.bn254MillerLoop g1Pts g2Pts)

/-- The guest's check on a witness. -/
def Accepts (f : Fq12) (r : Fq12 × Fq12) : Prop :=
  (r.2 = 1 ∨ r.2 = unityRoot27 ∨ r.2 = unityRoot27 ^ 2) ∧ f * r.2 = r.1 ^ lambda

theorem order_mul_cofactor :
    bn254Fp ^ 12 - 1 = groupOrder * ((bn254Fp ^ 12 - 1) / groupOrder) := by decide

theorem unityRoot27_pow_cofactor (i : ℕ) :
    (unityRoot27 ^ i) ^ ((bn254Fp ^ 12 - 1) / groupOrder) = 1 := by
  rw [pow_right_comm, pow_eq_pow_mod _ isPrimitiveRoot_unityRoot27.pow_eq_one, cofactor_mod,
    pow_zero, one_pow]

/-- Whatever hint is accepted, the pairing equation holds. -/
theorem Accepts.sound {f : Fq12} (hf : f ≠ 0) {r : Fq12 × Fq12} (h : Accepts f r) :
    f ^ ((bn254Fp ^ 12 - 1) / groupOrder) = 1 := by
  have := isTower.isDomain
  obtain ⟨hu, heq⟩ := h
  obtain ⟨i, hi⟩ : ∃ i, r.2 = unityRoot27 ^ i := by
    obtain h0 | h1 | h2 := hu
    · exact ⟨0, by rw [h0, pow_zero]⟩
    · exact ⟨1, by rw [h1, pow_one]⟩
    · exact ⟨2, h2⟩
  have hne : f * r.2 ≠ 0 := by
    rw [hi]
    exact mul_ne_zero hf (pow_ne_zero _ unityRoot27_ne_zero)
  have hc : r.1 ≠ 0 := by
    intro hc
    rw [heq, hc, lambda_eq, zero_pow (by decide)] at hne
    exact hne rfl
  have hexp (r m k : ℕ) : 3 * (r * m) * k = r * k * (3 * m) := by ring
  calc f ^ ((bn254Fp ^ 12 - 1) / groupOrder)
      = (f * r.2) ^ ((bn254Fp ^ 12 - 1) / groupOrder) := by
        rw [mul_pow, hi, unityRoot27_pow_cofactor, mul_one]
    _ = (r.1 ^ (groupOrder * ((bn254Fp ^ 12 - 1) / groupOrder))) ^ (3 * mFactor) := by
        rw [heq, ← pow_mul, ← pow_mul, lambda_eq, hexp]
    _ = 1 := by rw [← order_mul_cofactor, isTower.pow_card hc, one_pow]

/-- If the pairing equation holds, the hint of the host is accepted. -/
theorem accepts_hint {host : Host} (hfuel : 9 ≤ host.fuel) {f : Fq12} (hf : f ≠ 0)
    (hone : f ^ ((bn254Fp ^ 12 - 1) / groupOrder) = 1) {r : Fq12 × Fq12}
    (h : finalExpHint host f = .ok r) : Accepts f r := by
  obtain ⟨i, hi, c, hrun, hc⟩ := finalExpHint_eq host hfuel hf
  obtain rfl := Except.ok.inj (hrun.symm.trans h)
  have hfu : (f * unityRoot27 ^ i) ^ ((bn254Fp ^ 12 - 1) / groupOrder) = 1 := by
    rw [mul_pow, hone, unityRoot27_pow_cofactor, one_mul]
  constructor
  · obtain rfl | rfl | rfl : i = 0 ∨ i = 1 ∨ i = 2 := by omega
    · exact .inl (pow_zero _)
    · exact .inr (.inl (pow_one _))
    · exact .inr (.inr rfl)
  · calc f * unityRoot27 ^ i
        = (f * unityRoot27 ^ i) ^ (groupOrder * mFactor * (rInv * mInv)) :=
          (pow_eq_self_of_mod hfu inverses_mod).symm
      _ = (c ^ 3) ^ (groupOrder * mFactor) := by rw [hc, ← pow_mul, mul_comm (rInv * mInv)]
      _ = c ^ lambda := by rw [← pow_mul, ← lambda_eq]

/-- The payload is a witness for the value of the Miller loop. -/
theorem hintPayload_witness {host : Host} (hfuel : 9 ≤ host.fuel) {mem : Memory} {d : Descriptors}
    {bs : List Byte} (h : hintPayload host mem d = .ok bs) :
    ∃ f r, (millerValue host mem d = .ok f ∧ finalExpHint host f = .ok r) ∧
      bs = fq12ToOpenvmBytes r.1 ++ fq12ToOpenvmBytes r.2 := by
  rw [hintPayload] at h
  exact payload_hint (finalExpHint_one host hfuel) h

/-- A request for as many points of one group as of the other pushes its payload. -/
theorem hintFinalExp_run {host : Host} {insn : Word} {s : Machine} {bs : List Byte}
    (hlen : (descriptors insn s.cpu).pLen = (descriptors insn s.cpu).qLen)
    (h : hintPayload host s.cpu.mem (descriptors insn s.cpu) = .ok bs) :
    (hintFinalExp host insn).run s = .ok () (s.setHint (s.handler.io.hintStream ++ bs)) := by
  show (if (descriptors insn s.cpu).pLen ≠ (descriptors insn s.cpu).qLen then _
    else if (descriptors insn s.cpu).pLen = 0#32 then _ else _ : HandlerM Unit).run s = _
  rw [if_neg (not_not.mpr hlen)]
  rw [hintPayload] at h
  by_cases hzero : (descriptors insn s.cpu).pLen = 0#32
  · rw [if_pos hzero] at h ⊢
    rw [← Except.ok.inj h]
    exact push_push_run s _ _
  · rw [if_neg hzero] at h ⊢
    obtain ⟨g1Pts, hg1, h⟩ := calc_bind_ok h
    obtain ⟨g2Pts, hg2, h⟩ := calc_bind_ok h
    obtain ⟨r, hr, h⟩ := calc_bind_ok h
    rw [← Except.ok.inj h]
    exact (run_lift_bind hg1 s).trans
      ((run_lift_bind hg2 s).trans ((run_lift_bind hr s).trans (push_push_run s _ _)))

end Bn254

theorem handlePairing_bn254 {host : Host} {insn : Word} {s : Machine}
    (hop : funct7 insn % PAIRING_MAX_KINDS = 0#32) (hn : pairingName s.handler insn = "bn254") :
    (handlePairing host insn).run s = (Bn254.hintFinalExp host insn).run s := by
  show (if funct7 insn % PAIRING_MAX_KINDS ≠ 0#32 then _
    else if pairingName s.handler insn = "bn254" then _ else _ : HandlerM Unit).run s = _
  rw [if_neg (not_not.mpr hop), if_pos hn]

/-! ### BLS12-381 -/

namespace Bls12381

/-- The value of the Miller loop over the described points, one for no points. -/
def millerValue (host : Host) (mem : Memory) (d : Descriptors) : Calc Fq12 :=
  if d.pLen = 0#32 then pure 1
  else do
    let g1Pts ← readPoints d.pLen (readG1 host mem d.pPtr)
    let g2Pts ← readPoints d.qLen (readG2 host mem d.qPtr)
    pure (host.bls12381MillerLoop g1Pts g2Pts)

/-- The guest's check on a witness. -/
def Accepts (f : Fq12) (r : Fq12 × Fq12) : Prop :=
  r.2 ^ (27 * polyFactor) = 1 ∧ r.1 ^ lambda = f * r.2

theorem order_mul_cofactor : bls12381Fp ^ 12 - 1 = groupOrder * cofactor := by decide

theorem groupOrder_dvd_lambda : groupOrder ∣ lambda := by decide

theorem lambda_ne_zero : lambda ≠ 0 := by decide

attribute [local irreducible] polyFactor finalExpFactor lambda bls12381Fp cofactor

/-- Whatever hint is accepted, the pairing equation holds. -/
theorem Accepts.sound {f : Fq12} (hf : f ≠ 0) {r : Fq12 × Fq12} (h : Accepts f r) :
    f ^ cofactor = 1 := by
  have := isTower.isDomain
  have := isTower.nontrivial
  obtain ⟨hs, heq⟩ := h
  obtain ⟨k, hk⟩ := groupOrder_dvd_lambda
  have hs' : r.2 ^ cofactor = 1 := by rw [cofactor_eq, pow_mul, hs, one_pow]
  have hne : f * r.2 ≠ 0 := by
    refine mul_ne_zero hf fun h0 => ?_
    rw [h0, zero_pow (mul_ne_zero (by decide) (Nat.ne_zero_of_lt one_lt_polyFactor))] at hs
    exact zero_ne_one hs
  have hc : r.1 ≠ 0 := by
    intro hc
    rw [← heq, hc, zero_pow lambda_ne_zero] at hne
    exact hne rfl
  have hexp (r k n : ℕ) : r * k * n = r * n * k := by ring
  calc f ^ cofactor
      = (f * r.2) ^ cofactor := by rw [mul_pow, hs', mul_one]
    _ = (r.1 ^ (groupOrder * cofactor)) ^ k := by rw [← heq, ← pow_mul, ← pow_mul, hk, hexp]
    _ = 1 := by rw [← order_mul_cofactor, isTower.pow_card hc, one_pow]

/-- If the pairing equation holds, the hint of the host is accepted. -/
theorem accepts_hint {f : Fq12} (hone : f ^ cofactor = 1) {r : Fq12 × Fq12}
    (h : finalExpHint f = .ok r) : Accepts f r := by
  obtain ⟨i, j, hi, hj, hrun⟩ := finalExpHint_eq hone
  obtain ⟨c, s⟩ := r
  obtain ⟨hc, hs⟩ := Prod.mk.inj (Except.ok.inj (h.symm.trans hrun))
  have hlambda : c ^ lambda = f * s := by
    rw [hc, hs, ← pow_mul, Nat.mul_comm]
    exact pow_eq_self_of_mod (shifted_pow hone hi) hj
  have hroot : s ^ (27 * polyFactor) = 1 := by
    rw [hs]
    exact pow_shift_pow hone
  exact ⟨hroot, hlambda⟩

/-- The payload is a witness for the value of the Miller loop. -/
theorem hintPayload_witness {host : Host} {mem : Memory} {d : Descriptors} {bs : List Byte}
    (h : hintPayload host mem d = .ok bs) :
    ∃ f r, (millerValue host mem d = .ok f ∧ finalExpHint f = .ok r) ∧
      bs = fq12ToOpenvmBytes r.1 ++ fq12ToOpenvmBytes r.2 := by
  rw [hintPayload] at h
  exact payload_hint finalExpHint_one h

end Bls12381

/-! ### Reads -/

section Reads
variable {host : Host} {s s₁ s' : Machine} {bs : List Byte} {n : ℕ}

/-- If the hint of a pairing is two elements, a guest that reads as many words as they take gets
the two elements. -/
theorem witness_read {p k : ℕ} {ξ : Ark.Fq2 p} [NeZero p]
    {R : Ark.Fq12 p ξ → Ark.Fq12 p ξ × Ark.Fq12 p ξ → Prop} (hp : p ≤ 256 ^ k)
    (hn : 4 * n = 12 * k + 12 * k) (hwrap : 4 * n ≤ 2 ^ 32)
    (h : Iteration (customOps host) s s₁) (hpairing : IsPairing s.cpu.fetch)
    (hempty : s.handler.io.hintStream = [])
    (hpayload : ∀ bs, pairingPayload host (pairingName s.handler s.cpu.fetch) s.cpu.mem
      (descriptors s.cpu.fetch s.cpu) = some bs →
        ∃ f r, R f r ∧ bs = Ark.fq12ToBytes k r.1 ++ Ark.fq12ToBytes k r.2)
    (hread : Reads host n s₁ bs s') :
    s'.handler.io.hintStream = [] ∧ ∃ f, R f (Ark.witnessOfBytes k bs) := by
  obtain ⟨sent, hsent, hhint⟩ := hint_of_iteration h (.inr (.inr (.inr hpairing)))
  rw [payload_push host s hpairing] at hsent
  obtain ⟨f, r, hr, rfl⟩ := hpayload sent hsent
  have hlen : (Ark.fq12ToBytes k r.1 ++ Ark.fq12ToBytes k r.2).length = 4 * n := by
    rw [List.length_append, Ark.length_fq12ToBytes, Ark.length_fq12ToBytes, hn]
  rw [if_pos hpairing, hempty, List.nil_append] at hhint
  obtain ⟨hbs, hrest, -⟩ := reads_deliver hread (by rw [hhint, hlen]) hwrap
  rw [hhint, ← hlen] at hbs hrest
  rw [List.take_length] at hbs
  rw [List.drop_length] at hrest
  refine ⟨hrest, f, ?_⟩
  rwa [hbs, Ark.witness_roundtrip hp]

theorem pairingPayload_bn254 {name : String} {mem : Memory} {d : Descriptors} (hn : name = "bn254")
    (h : pairingPayload host name mem d = some bs) : Bn254.hintPayload host mem d = .ok bs := by
  rw [pairingPayload, if_pos hn] at h
  exact toOption_ok h

theorem pairingPayload_bls12381 {name : String} {mem : Memory} {d : Descriptors}
    (hn : name = "bls12_381") (h : pairingPayload host name mem d = some bs) :
    Bls12381.hintPayload host mem d = .ok bs := by
  have hne : name ≠ "bn254" := by
    rw [hn]
    decide
  rw [pairingPayload, if_neg hne, if_pos hn] at h
  exact toOption_ok h

end Reads

/-- **A guest that asks for the hint of a final exponentiation, with nothing left to read, and
then reads as many words as two field elements take, gets a witness for the value of the Miller
loop.** If that value is not zero, the witness passes the check of the guest exactly if the pairing
equation holds. Nothing is left in the hint stream. The rounds of the BN254 algorithm are bounded
by the fuel of the host. -/
theorem run_witness (host : Host) {s s₁ : Machine} (h : Iteration (customOps host) s s₁)
    (hp : IsPairing s.cpu.fetch) (hempty : s.handler.io.hintStream = []) :
    (pairingName s.handler s.cpu.fetch = "bn254" → 9 ≤ host.fuel →
      ∀ bs s', Reads host 192 s₁ bs s' → s'.handler.io.hintStream = [] ∧
        ∃ f, Bn254.millerValue host s.cpu.mem (descriptors s.cpu.fetch s.cpu) = .ok f ∧
          Bn254.finalExpHint host f = .ok (Ark.witnessOfBytes 32 bs) ∧
          (f ≠ 0 → (Bn254.Accepts f (Ark.witnessOfBytes 32 bs) ↔
            f ^ ((bn254Fp ^ 12 - 1) / Bn254.groupOrder) = 1))) ∧
    (pairingName s.handler s.cpu.fetch = "bls12_381" →
      ∀ bs s', Reads host 288 s₁ bs s' → s'.handler.io.hintStream = [] ∧
        ∃ f, Bls12381.millerValue host s.cpu.mem (descriptors s.cpu.fetch s.cpu) = .ok f ∧
          Bls12381.finalExpHint f = .ok (Ark.witnessOfBytes 48 bs) ∧
          (f ≠ 0 → (Bls12381.Accepts f (Ark.witnessOfBytes 48 bs) ↔
            f ^ Bls12381.cofactor = 1))) := by
  constructor
  · intro hn hfuel bs s' hread
    have : NeZero bn254Fp := ⟨by decide⟩
    obtain ⟨hrest, f, hf, hr⟩ := witness_read (by decide) rfl (by decide) h hp hempty
      (fun _ hb => Bn254.hintPayload_witness hfuel (pairingPayload_bn254 hn hb)) hread
    exact ⟨hrest, f, hf, hr, fun hne =>
      ⟨fun ha => ha.sound hne, fun hone => Bn254.accepts_hint hfuel hne hone hr⟩⟩
  · intro hn bs s' hread
    have : NeZero bls12381Fp := ⟨by decide⟩
    obtain ⟨hrest, f, hf, hr⟩ := witness_read (by decide) rfl (by decide) h hp hempty
      (fun _ hb => Bls12381.hintPayload_witness (pairingPayload_bls12381 hn hb)) hread
    exact ⟨hrest, f, hf, hr, fun hne =>
      ⟨fun ha => ha.sound hne, fun hone => Bls12381.accepts_hint hone hr⟩⟩

/-! ### Two pairings that cancel -/

/-- A host whose Miller loops give minus one. -/
def Host.minusOne : Host := { Host.constant with bn254MillerLoop := fun _ _ => -1 }

/-- HintFinalExp of the first pairing, with the descriptors at `[x0]` and `[x2]`. -/
def cancelWord : Word := 2#32 <<< 20 ||| finalExpWord

/-- The generator of the first group and its negative. -/
def cancelG1 : List Byte :=
  [1, 2, 1, bn254Fp - 2].flatMap (LittleEndian.ofNat 32)

/-- The generator of the second group, twice. -/
def cancelG2 : List Byte :=
  let q : List ℕ :=
    [10857046999023057135944570762232829481370756359578518086990519993285655852781,
      11559732032986387107991004021392285783925812861821192530917403151452391805634,
      8495653923123431417604973247489272438418190587263600148770280649306958101930,
      4082367875863433681332203403145435568316851327593401208105741076214120093531]
  (q ++ q).flatMap (LittleEndian.ofNat 32)

/-- A machine that asks for the hint of two pairings, with the points at 4096 and 8192, and reads it
to address zero. -/
def asking : Machine :=
  (((((Sim.loaded [cancelWord, bufferWord] []).setReg 1#5 192#32).setReg 2#5 8#32).store 0#32
    ([4096, 2, 8192, 2].flatMap (LittleEndian.ofNat 4))).store 4096#32 cancelG1).store
      8192#32 cancelG2

theorem asking_word : asking.cpu.fetch = cancelWord := by decide +kernel

theorem asking_descriptors :
    descriptors asking.cpu.fetch asking.cpu = ⟨4096#32, 2#32, 8192#32, 2#32⟩ := by
  rw [asking_word, descriptors, readDescriptors, Descriptors.mk.injEq]
  exact ⟨by decide +kernel, by decide +kernel, by decide +kernel, by decide +kernel⟩

/-- Two points can be read anywhere. -/
theorem readPoints_two {P : Type} (host : Host) {size : ℕ} (hsize : size < 2 ^ 32)
    (read : Word → P) (readPoint : ℕ → Calc P)
    (hread : ∀ i, readPoint i = do
      let off ← mulUnsigned host 32 i size
      pure (read (BitVec.ofNat 32 off))) : ∃ points, readPoints 2#32 readPoint = .ok points := by
  refine (readPoints_panicsWhen host size read readPoint (by decide) hread).1.value fun h => ?_
  have htwo : 2 ^ 32 ≤ 1 * size := h.2
  omega

/-- Minus one solves the pairing equation. -/
theorem neg_one_pow_cofactor :
    (-1 : Bn254.Fq12) ^ ((bn254Fp ^ 12 - 1) / Bn254.groupOrder) = 1 :=
  Even.neg_one_pow (by decide)

theorem asking_payload : ∃ bs, Bn254.hintPayload Host.minusOne asking.cpu.mem
    ⟨4096#32, 2#32, 8192#32, 2#32⟩ = .ok bs := by
  have := Bn254.isTower.nontrivial
  obtain ⟨g1Pts, hg1⟩ := readPoints_two Host.minusOne (show 64 < 2 ^ 32 by decide)
    (fun off => (Bn254.readFq asking.cpu.mem (4096#32 + off),
      Bn254.readFq asking.cpu.mem (4096#32 + off + 32#32)))
    (Bn254.readG1 Host.minusOne asking.cpu.mem 4096#32) fun _ => rfl
  obtain ⟨g2Pts, hg2⟩ := readPoints_two Host.minusOne (show 128 < 2 ^ 32 by decide)
    (fun off => (Bn254.readFq2 asking.cpu.mem (8192#32 + off),
      Bn254.readFq2 asking.cpu.mem (8192#32 + off + 64#32)))
    (Bn254.readG2 Host.minusOne asking.cpu.mem 8192#32) fun _ => rfl
  obtain ⟨i, -, c, hhint, -⟩ := Bn254.finalExpHint_eq Host.minusOne (by decide)
    (neg_ne_zero.mpr (one_ne_zero : (1 : Bn254.Fq12) ≠ 0))
  refine ⟨Bn254.fq12ToOpenvmBytes c ++ Bn254.fq12ToOpenvmBytes (Bn254.unityRoot27 ^ i), ?_⟩
  rw [Bn254.hintPayload, if_neg (by decide)]
  exact (calc_bind hg1).trans ((calc_bind hg2).trans (calc_bind hhint))

theorem asking_pairing : IsPairing asking.cpu.fetch ∧
    funct7 asking.cpu.fetch % PAIRING_MAX_KINDS = 0#32 ∧
      pairingName asking.handler asking.cpu.fetch = "bn254" := by
  rw [asking_word]
  decide

/-- The request is granted, and the word after it is next. -/
theorem asking_granted : ∃ s₁, Iteration (customOps Host.minusOne) asking s₁ ∧
    s₁.cpu.fetch = bufferWord ∧ s₁.cpu.readReg 1#5 = asking.cpu.readReg 1#5 := by
  obtain ⟨bs, hbs⟩ := asking_payload
  obtain ⟨hp, hop, hn⟩ := asking_pairing
  have hhint : (handlePairing Host.minusOne asking.cpu.fetch).run asking =
      .ok () (asking.setHint (asking.handler.io.hintStream ++ bs)) := by
    rw [handlePairing_bn254 hop hn]
    refine Bn254.hintFinalExp_run ?_ ?_
    · rw [asking_descriptors]
    · rw [asking_descriptors]
      exact hbs
  have hstep := (step_custom (customOps Host.minusOne) (.inr hp.1)).trans
    (handle_run_ok (calls_pairing hp) hhint)
  have hpc : (advanced asking.cpu.pc (asking.setHint (asking.handler.io.hintStream ++ bs))).cpu.pc =
      68#32 := by
    rw [pc_advanced]
    exact if_pos rfl
  have hword : asking.cpu.mem.readU32 68#32 = bufferWord := by decide +kernel
  refine ⟨_, iteration_iff.mpr ⟨_, hstep, rfl⟩, ?_, Cpu.readReg_of_x _ (x_advanced _ _)⟩
  rw [Cpu.fetch, pc_countStep, hpc, mem_countStep, mem_advanced]
  exact hword

/-- The request is granted, and the buffer is read. -/
theorem asking_reads : ∃ s₁ bs s', Iteration (customOps Host.minusOne) asking s₁ ∧
    Reads Host.minusOne 192 s₁ bs s' := by
  obtain ⟨s₁, hit, hfetch, hreg⟩ := asking_granted
  have hwords : (s₁.cpu.readReg (rs1 s₁.cpu.fetch)).toNat = 192 := by
    have hrs1 : rs1 bufferWord = 1#5 := by decide
    have hasked : asking.cpu.readReg 1#5 = 192#32 := by decide +kernel
    rw [hfetch, hrs1, hreg, hasked]
    rfl
  have hb : IsHintBuffer s₁.cpu.fetch := by
    rw [hfetch]
    decide
  have hlast : Iteration (customOps Host.minusOne) s₁ _ :=
    iteration_iff.mpr ⟨_, hintRead_step (.inr hb), rfl⟩
  have hread := Reads.buffer hlast hb (.done _)
  rw [hwords] at hread
  exact ⟨s₁, _, _, hit, hread⟩

/-- The witness is accepted. -/
theorem run_witness_asking : ∃ s₁ bs s', Iteration (customOps Host.minusOne) asking s₁ ∧
    Reads Host.minusOne 192 s₁ bs s' ∧ Bn254.Accepts (-1) (Ark.witnessOfBytes 32 bs) := by
  have := Bn254.isTower.nontrivial
  obtain ⟨s₁, bs, s', hit, hread⟩ := asking_reads
  obtain ⟨hp, -, hn⟩ := asking_pairing
  have hne : (-1 : Bn254.Fq12) ≠ 0 := neg_ne_zero.mpr one_ne_zero
  obtain ⟨-, f, hf, -, haccepts⟩ :=
    (run_witness Host.minusOne hit hp rfl).1 hn (by decide) bs s' hread
  have hminus : f = -1 := by
    rw [asking_descriptors, Bn254.millerValue, if_neg (by decide)] at hf
    obtain ⟨g1Pts, -, hf⟩ := calc_bind_ok hf
    obtain ⟨g2Pts, -, hf⟩ := calc_bind_ok hf
    exact (Except.ok.inj hf).symm
  subst hminus
  exact ⟨s₁, bs, s', hit, hread, (haccepts hne).mpr neg_one_pow_cofactor⟩

end Precompiles

end OpenvmSim
