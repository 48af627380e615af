import OpenvmSim.Precompiles.Congruence
import OpenvmSim.Precompiles.Decompress

/-! Canonical field elements.

The words that emit field elements, stored at `[rd]` or left in the hint stream, emit them
reduced, whatever the operands: each result is a remainder modulo the prime. The one exception is
the root of HintDecompress, which is negated without reducing it. -/
namespace OpenvmSim.Precompiles
open Rv32im

/-! ### Tables -/

/-- An odd prime that fits `n` bytes. -/
structure IsFieldModulus (p n : ℕ) : Prop where
  prime : p.Prime
  odd : p ≠ 2
  fits : p < 256 ^ n

/-- Every modulus of the tables is an odd prime that fits its width. -/
structure FieldTables (h : PrecompileHandler) : Prop where
  moduli : ∀ entry ∈ h.moduli, IsFieldModulus entry.modulus entry.limbBytes
  complex : ∀ entry ∈ h.complex, IsFieldModulus entry.modulus entry.limbBytes
  curves : ∀ curve ∈ h.curves, IsFieldModulus curve.modulus curve.coordBytes

/-! ### Layouts -/

/-- Where a word emits field elements. -/
structure Layout where
  modulus : ℕ
  /-- the bytes of one element -/
  width : ℕ
  /-- the number of elements -/
  count : ℕ
  /-- the bytes before the first element -/
  skip : ℕ
  /-- what is done with the bytes -/
  outcome : List Byte → Outcome

/-- The words that emit field elements, and where. -/
inductive HasLayout (h : PrecompileHandler) (insn : Word) : Layout → Prop where
  | modular {entry} (h1 : IsCustom1 insn F3_MODULAR) (he : h.moduli[tableIdx insn]? = some entry)
      (hop : IsArith (tableOp insn)) :
      HasLayout h insn ⟨entry.modulus, entry.limbBytes, 1, 0, .stored⟩
  | hintNonQr {entry} (hw : IsHintNonQr insn) (he : h.moduli[tableIdx insn]? = some entry) :
      HasLayout h insn ⟨entry.modulus, entry.limbBytes, 1, 0, .hinted⟩
  | hintSqrt {entry} (hw : IsHintSqrt insn) (he : h.moduli[tableIdx insn]? = some entry) :
      HasLayout h insn ⟨entry.modulus, entry.limbBytes, 1, 4, .hinted⟩
  | complex {entry} (h1 : IsCustom1 insn F3_COMPLEX) (he : h.complex[tableIdx insn]? = some entry)
      (hop : IsArith (tableOp insn)) :
      HasLayout h insn ⟨entry.modulus, entry.limbBytes, 2, 0, .stored⟩
  | swAddNe {curve} (h1 : IsCustom1 insn F3_SW) (he : h.curves[tableIdx insn]? = some curve)
      (hop : tableOp insn = SW_ADD_NE) :
      HasLayout h insn ⟨curve.modulus, curve.coordBytes, 2, 0, .stored⟩
  | swDouble {curve} (h1 : IsCustom1 insn F3_SW) (he : h.curves[tableIdx insn]? = some curve)
      (hop : tableOp insn = SW_DOUBLE) :
      HasLayout h insn ⟨curve.modulus, curve.coordBytes, 2, 0, .stored⟩
  | swDecompress {curve} (h1 : IsCustom1 insn F3_SW) (he : h.curves[tableIdx insn]? = some curve)
      (hop : tableOp insn = SW_HINT_DECOMPRESS) :
      HasLayout h insn ⟨curve.modulus, curve.coordBytes, 1, 0, .stored⟩
  | swNonQr {curve} (h1 : IsCustom1 insn F3_SW) (he : h.curves[tableIdx insn]? = some curve)
      (hop : tableOp insn = SW_HINT_NON_QR) :
      HasLayout h insn ⟨curve.modulus, curve.coordBytes, 1, 0, .stored⟩

/-- The first `k` numbers of `n` bytes in a byte string. -/
def elements (n : ℕ) : ℕ → List Byte → List ℕ
  | 0, _ => []
  | k + 1, bs => LittleEndian.toNat (bs.take n) :: elements n k (bs.drop n)

/-- The bytes the word has emitted, in the given layout. -/
structure Emits (host : Host) (insn : Word) (s : Machine) (l : Layout) (bs : List Byte) : Prop where
  length : bs.length = l.skip + l.count * l.width
  yields : Yields host insn s (l.outcome bs)

/-- The elements in emitted bytes are reduced. -/
def IsCanonical (l : Layout) (bs : List Byte) : Prop :=
  ∀ v ∈ elements l.width l.count (bs.drop l.skip), v < l.modulus

/-- The word decompresses a coordinate over which the right side of the curve equation is zero, and
asks for an odd root. -/
def DecompressesZero (insn : Word) (s : Machine) : Prop :=
  IsCustom1 insn F3_SW ∧ tableOp insn = SW_HINT_DECOMPRESS ∧ parityOperand insn s = 1 ∧
    ∃ curve, s.handler.curves[tableIdx insn]? = some curve ∧
      leftOperand insn s curve.coordBytes ^ 3 + curve.a * leftOperand insn s curve.coordBytes +
        curve.b ≡ 0 [MOD curve.modulus]

section Elements
variable {n : ℕ}

theorem elements_bytesLe {v : ℕ} (h : v < 256 ^ n) : elements n 1 (BigUint.bytesLe v n) = [v] := by
  have htake : (BigUint.bytesLe v n).take n = BigUint.bytesLe v n :=
    List.take_of_length_le (BigUint.length_bytesLe v n).le
  rw [elements, htake, toNat_bytesLe h]
  rfl

theorem elements_pairBytes {v : Pair} (h1 : v.1 < 256 ^ n) (h2 : v.2 < 256 ^ n) :
    elements n 2 (pairBytes n v) = [v.1, v.2] := by
  have hlen := BigUint.length_bytesLe v.1 n
  rw [elements, pairBytes, List.take_left' hlen, List.drop_left' hlen, elements_bytesLe h2,
    toNat_bytesLe h1]

end Elements

/-! ### Outcomes in a field -/

section Outcomes
variable {p : ℕ} [Fact p.Prime] {op : Word} (hop : IsArith op) (n : ℕ)
include hop

theorem modularOutcome_cases (a b : ZMod p) : modularOutcome op n a b = .rejected ∨
    ∃ x : ZMod p, modularOutcome op n a b = .stored (BigUint.bytesLe x.val n) := by
  obtain rfl | rfl | rfl | rfl := hop
  · exact .inr ⟨a + b, rfl⟩
  · exact .inr ⟨a - b, rfl⟩
  · exact .inr ⟨a * b, rfl⟩
  · by_cases hb : b = 0
    · exact .inl (if_pos hb)
    · exact .inr ⟨a / b, if_neg hb⟩

theorem complexOutcome_cases (x y : Ark.Fq2 p) : complexOutcome op n x y = .rejected ∨
    ∃ z : Ark.Fq2 p, complexOutcome op n x y = .stored (pairBytes n (pairOfFq2 z)) := by
  obtain rfl | rfl | rfl | rfl := hop
  · exact .inr ⟨x + y, rfl⟩
  · exact .inr ⟨x - y, rfl⟩
  · exact .inr ⟨x * y, rfl⟩
  · by_cases hy : QuadraticAlgebra.norm y = 0
    · exact .inl (if_pos hy)
    · exact .inr ⟨quotient x y, if_neg hy⟩

end Outcomes

/-! ### The words -/

theorem calc_map_some_ok {α β : Type} {x : Calc α} {f : α → β} {b : β}
    (h : (do let r ← some <$> x; pure (r.map f)) = .ok (some b)) : ∃ a, x = .ok a ∧ f a = b := by
  obtain ⟨r, hr, hb⟩ := calc_option_ok h
  cases x with
  | error e => cases hr
  | ok a =>
    cases hr
    exact ⟨r, rfl, hb⟩

section Words
variable {host : Host} {insn : Word} {s s' : Machine} {o : StepOutcome}
variable (hrun : (handle host insn).run s = .ok o s')

theorem emits_element {p n v : ℕ} (hv : v < p) (hp : p < 256 ^ n)
    (h : Yields host insn s (.stored (BigUint.bytesLe v n))) :
    ∃ bs, Emits host insn s ⟨p, n, 1, 0, .stored⟩ bs ∧ IsCanonical ⟨p, n, 1, 0, .stored⟩ bs := by
  refine ⟨_, ⟨by simp, h⟩, fun w hw => ?_⟩
  rw [List.drop_zero, elements_bytesLe (hv.trans hp), List.mem_singleton] at hw
  exact hw ▸ hv

theorem emits_pair {p n : ℕ} {v : Pair} (h1 : v.1 < p) (h2 : v.2 < p) (hp : p < 256 ^ n)
    (h : Yields host insn s (.stored (pairBytes n v))) :
    ∃ bs, Emits host insn s ⟨p, n, 2, 0, .stored⟩ bs ∧ IsCanonical ⟨p, n, 2, 0, .stored⟩ bs := by
  refine ⟨_, ⟨by simp, h⟩, fun w hw => ?_⟩
  rw [List.drop_zero, elements_pairBytes (h1.trans hp) (h2.trans hp)] at hw
  rcases List.mem_cons.mp hw with rfl | hw
  · exact h1
  · exact List.mem_singleton.mp hw ▸ h2

include hrun

theorem modular_emits {entry : ModulusEntry} (hf : IsFieldModulus entry.modulus entry.limbBytes)
    (h1 : IsCustom1 insn F3_MODULAR) (he : s.handler.moduli[tableIdx insn]? = some entry)
    (hop : IsArith (tableOp insn)) :
    ∃ bs, Emits host insn s ⟨entry.modulus, entry.limbBytes, 1, 0, .stored⟩ bs ∧
      IsCanonical ⟨entry.modulus, entry.limbBytes, 1, 0, .stored⟩ bs := by
  have : Fact entry.modulus.Prime := ⟨hf.prime⟩
  obtain ⟨bs, hbs⟩ :=
    stored_of_ok (calls_modular h1) (handleModular_performs host insn s he hop) hrun
  have hstored := yields_stored (calls_modular h1) (handleModular_performs host insn s he hop) hbs
  have hy := modular_yields host h1 he rfl (.inl hop)
    fun hu => modular_not_yields h1 he hu.1 hu.2 _ hstored
  obtain hrej | ⟨x, hx⟩ := modularOutcome_cases hop entry.limbBytes
    (leftOperand insn s entry.limbBytes : ZMod entry.modulus)
    (rightOperand insn s entry.limbBytes : ZMod entry.modulus)
  · rw [hrej] at hy
    exact absurd hy (not_rejected_of_ok hrun)
  · rw [hx] at hy
    exact emits_element (ZMod.val_lt x) hf.fits hy

theorem complex_emits {entry : ModulusEntry} (hf : IsFieldModulus entry.modulus entry.limbBytes)
    (h1 : IsCustom1 insn F3_COMPLEX) (he : s.handler.complex[tableIdx insn]? = some entry)
    (hop : IsArith (tableOp insn)) :
    ∃ bs, Emits host insn s ⟨entry.modulus, entry.limbBytes, 2, 0, .stored⟩ bs ∧
      IsCanonical ⟨entry.modulus, entry.limbBytes, 2, 0, .stored⟩ bs := by
  have : Fact entry.modulus.Prime := ⟨hf.prime⟩
  have hcalls : Calls host insn (handleComplex insn) := calls_complex h1
  obtain ⟨bs, hbs⟩ := stored_of_ok hcalls (handleComplex_performs insn s he hop) hrun
  have hstored := yields_stored hcalls (handleComplex_performs insn s he hop) hbs
  have hy := complex_yields host h1 he rfl (.inl hop)
    fun hu => complex_not_yields h1 he rfl hu _ hstored
  obtain hrej | ⟨x, hx⟩ := complexOutcome_cases hop entry.limbBytes
    ((leftPair insn s entry.limbBytes).toFq2 entry.modulus)
    ((rightPair insn s entry.limbBytes).toFq2 entry.modulus)
  · rw [hrej] at hy
    exact absurd hy (not_rejected_of_ok hrun)
  · obtain ⟨hx1, hx2⟩ := pairOfFq2_lt x
    rw [hx] at hy
    exact emits_pair hx1 hx2 hf.fits hy

section Curve
variable {curve : CurveEntry} (hf : IsFieldModulus curve.modulus curve.coordBytes)
variable (h1 : IsCustom1 insn F3_SW) (he : s.handler.curves[tableIdx insn]? = some curve)
include hf h1 he

theorem addNe_emits (hop : tableOp insn = SW_ADD_NE) :
    ∃ bs, Emits host insn s ⟨curve.modulus, curve.coordBytes, 2, 0, .stored⟩ bs ∧
      IsCanonical ⟨curve.modulus, curve.coordBytes, 2, 0, .stored⟩ bs := by
  have : Fact curve.modulus.Prime := ⟨hf.prime⟩
  have hm := handleSw_addNe host insn s he hop
  obtain ⟨bs, hbs⟩ := stored_of_ok (calls_sw h1) hm hrun
  have hy := yields_stored (calls_sw h1) hm hbs
  obtain ⟨r, hr, rfl⟩ := calc_map_some_ok hbs
  have hne : ((leftPair insn s curve.coordBytes).1 : ZMod curve.modulus) ≠
      (rightPair insn s curve.coordBytes).1 := by
    intro heq
    rw [addNe_panics rfl heq] at hr
    cases hr
  rw [addNe_eq rfl hne] at hr
  cases hr
  exact emits_pair (ZMod.val_lt _) (ZMod.val_lt _) hf.fits hy

theorem double_emits (hop : tableOp insn = SW_DOUBLE) :
    ∃ bs, Emits host insn s ⟨curve.modulus, curve.coordBytes, 2, 0, .stored⟩ bs ∧
      IsCanonical ⟨curve.modulus, curve.coordBytes, 2, 0, .stored⟩ bs := by
  have : Fact curve.modulus.Prime := ⟨hf.prime⟩
  have hm := handleSw_double host insn s he hop
  obtain ⟨bs, hbs⟩ := stored_of_ok (calls_sw h1) hm hrun
  have hy := yields_stored (calls_sw h1) hm hbs
  obtain ⟨r, hr, rfl⟩ := calc_map_some_ok hbs
  have hne : (2 : ZMod curve.modulus) * (leftPair insn s curve.coordBytes).2 ≠ 0 := by
    intro heq
    rw [double_panics rfl heq] at hr
    cases hr
  rw [double_eq rfl hne] at hr
  cases hr
  exact emits_pair (ZMod.val_lt _) (ZMod.val_lt _) hf.fits hy

theorem swNonQr_emits (hop : tableOp insn = SW_HINT_NON_QR) :
    ∃ bs, Emits host insn s ⟨curve.modulus, curve.coordBytes, 1, 0, .stored⟩ bs ∧
      IsCanonical ⟨curve.modulus, curve.coordBytes, 1, 0, .stored⟩ bs := by
  have : Fact curve.modulus.Prime := ⟨hf.prime⟩
  have hm := handleSw_nonQr host insn s he hop
  obtain ⟨bs, hbs⟩ := stored_of_ok (calls_sw h1) hm hrun
  have hy := yields_stored (calls_sw h1) hm hbs
  obtain ⟨r, hr, rfl⟩ := calc_map_some_ok hbs
  obtain ⟨z, hz, -, hzp, -, -⟩ := leastNonQr_eq hf.odd
  cases hr.symm.trans hz
  exact emits_element hzp hf.fits hy

/-- The root is reduced unless the right side is zero and the parity odd. -/
theorem decompress_emits (hop : tableOp insn = SW_HINT_DECOMPRESS) :
    ∃ bs, Emits host insn s ⟨curve.modulus, curve.coordBytes, 1, 0, .stored⟩ bs ∧
      (IsCanonical ⟨curve.modulus, curve.coordBytes, 1, 0, .stored⟩ bs ↔
        ¬DecompressesZero insn s) := by
  have : Fact curve.modulus.Prime := ⟨hf.prime⟩
  have hm := handleSw_decompress host insn s he hop
  obtain ⟨bs, hbs⟩ := stored_of_ok (calls_sw h1) hm hrun
  have hy := yields_stored (calls_sw h1) hm hbs
  obtain ⟨v, hv, rfl⟩ := calc_option_ok hbs
  obtain ⟨hle, hlt⟩ := decompress_some rfl hf.odd (parityOperand_lt insn s) hv
  have hzero : DecompressesZero insn s ↔
      curveRhs curve.modulus curve (leftOperand insn s curve.coordBytes) = 0 ∧
        parityOperand insn s = 1 := by
    rw [← natCast_rhs, ← Nat.cast_zero, ZMod.natCast_eq_natCast_iff]
    constructor
    · rintro ⟨-, -, hpar, curve', he', hrhs⟩
      cases he.symm.trans he'
      exact ⟨hrhs, hpar⟩
    · exact fun h => ⟨h1, hop, h.2, curve, he, h.1⟩
  refine ⟨_, ⟨by simp, hy⟩, ?_⟩
  rw [hzero, ← hlt, IsCanonical, List.drop_zero, elements_bytesLe (hle.trans_lt hf.fits)]
  exact List.forall_mem_singleton

end Curve

section Hints
variable {entry : ModulusEntry} (hf : IsFieldModulus entry.modulus entry.limbBytes)
variable (he : s.handler.moduli[tableIdx insn]? = some entry)
include he

/-- A modular hint that returned has left what was calculated for it in the hint stream. -/
theorem hinted_of_ok (hw : IsHintNonQr insn ∨ IsHintSqrt insn) :
    ∃ bs, Yields host insn s (.hinted bs) ∧
      modularPayload host entry (tableOp insn) (leftOperand insn s entry.limbBytes) = .ok bs := by
  have hkind : kindOf s.handler insn = .replace :=
    hw.elim (fun h => kindOf_nonQr _ h) fun h => kindOf_sqrt _ h
  have h1 : IsCustom1 insn F3_MODULAR := hw.elim (fun h => h.1) fun h => h.1
  have heffect := (handle_atomic host s insn).of_ok hrun
  obtain ht | ⟨-, heff⟩ := heffect
  · exact absurd ht (custom1_not_custom0 h1)
  · rw [WordEffect, hkind] at heff
    obtain _ | _ | _ | _ | _ | _ | _ | _ | ⟨-, hpay⟩ := heff
    rw [payload, hkind] at hpay
    refine ⟨_, hrun, ?_⟩
    rw [he] at hpay
    have hopt : (modularPayload host entry (tableOp insn)
      (leftOperand insn s entry.limbBytes)).toOption = some _ := hpay
    cases hmod : modularPayload host entry (tableOp insn) (leftOperand insn s entry.limbBytes) with
    | error e =>
      rw [hmod] at hopt
      cases hopt
    | ok bs =>
      rw [hmod] at hopt
      cases hopt
      rfl

include hf

/-- The bytes of either hint, and the non-residue that was found for them. -/
theorem hinted_of_nonQr (hw : IsHintNonQr insn ∨ IsHintSqrt insn) :
    ∃ bs z, Yields host insn s (.hinted bs) ∧ z < entry.modulus ∧
      ¬IsSquare (z : ZMod entry.modulus) ∧
      (if tableOp insn = MOD_HINT_NON_QR then pure (BigUint.bytesLe z entry.limbBytes)
        else do
          let r ← hintSqrtOf (leftOperand insn s entry.limbBytes) entry.modulus z
          pure (sqrtBytes entry.limbBytes r)) = (.ok bs : Calc (List Byte)) := by
  have : Fact entry.modulus.Prime := ⟨hf.prime⟩
  obtain ⟨bs, hy, hpay⟩ := hinted_of_ok hrun he hw
  rw [modularPayload] at hpay
  cases hz : findNonQrOpenvm host entry.modulus with
  | error e =>
    rw [hz] at hpay
    cases hpay
  | ok z =>
    rw [hz] at hpay
    obtain ⟨-, hlt, hsq⟩ := findNonQrOpenvm_ok host hf.odd hz
    exact ⟨bs, z, hy, hlt, hsq, hpay⟩

theorem hintNonQr_emits (hw : IsHintNonQr insn) :
    ∃ bs, Emits host insn s ⟨entry.modulus, entry.limbBytes, 1, 0, .hinted⟩ bs ∧
      IsCanonical ⟨entry.modulus, entry.limbBytes, 1, 0, .hinted⟩ bs := by
  obtain ⟨bs, z, hy, hlt, -, hbs⟩ := hinted_of_nonQr hrun hf he (.inl hw)
  rw [if_pos hw.2] at hbs
  cases hbs
  refine ⟨_, ⟨by simp, hy⟩, ?_⟩
  rw [IsCanonical, List.drop_zero, elements_bytesLe (hlt.trans hf.fits)]
  exact List.forall_mem_singleton.mpr hlt

theorem hintSqrt_emits (hw : IsHintSqrt insn) :
    ∃ bs, Emits host insn s ⟨entry.modulus, entry.limbBytes, 1, 4, .hinted⟩ bs ∧
      IsCanonical ⟨entry.modulus, entry.limbBytes, 1, 4, .hinted⟩ bs := by
  have : Fact entry.modulus.Prime := ⟨hf.prime⟩
  obtain ⟨bs, z, hy, -, hnq, hbs⟩ := hinted_of_nonQr hrun hf he (.inr hw)
  rw [if_neg fun h => absurd (hw.2.symm.trans h) (by decide)] at hbs
  have hroot : ∃ success, ∃ r < entry.modulus,
      hintSqrtOf (leftOperand insn s entry.limbBytes) entry.modulus z = .ok (success, r) := by
    by_cases hx : IsSquare (leftOperand insn s entry.limbBytes : ZMod entry.modulus)
    · obtain ⟨r, hr, hsqrt, -⟩ := hintSqrtOf_square hf.odd hnq hx
      exact ⟨true, r, hr, hsqrt⟩
    · obtain ⟨r, hr, hsqrt, -⟩ := hintSqrtOf_nonsquare hf.odd hnq hx
      exact ⟨false, r, hr, hsqrt⟩
  obtain ⟨success, r, hr, hsqrt⟩ := hroot
  rw [hsqrt] at hbs
  cases hbs
  refine ⟨_, ⟨?_, hy⟩, ?_⟩
  · simp [sqrtBytes]
    omega
  · show ∀ v ∈ elements entry.limbBytes 1 (BigUint.bytesLe r entry.limbBytes), v < entry.modulus
    rw [elements_bytesLe (hr.trans hf.fits)]
    exact List.forall_mem_singleton.mpr hr

end Hints

end Words

/-! ### Every emitted element -/

/-- **Canonical elements.** For any tables of odd primes that fit their widths and every state,
the field elements that a word has emitted when it succeeds are below their modulus, exactly if the
word has not decompressed a coordinate with right side zero to an odd root. -/
theorem emitted_canonical_iff (host : Host) (insn : Word) (s s' : Machine) {l : Layout}
    {o : StepOutcome} (ht : FieldTables s.handler) (hl : HasLayout s.handler insn l)
    (hrun : (handle host insn).run s = .ok o s') :
    ∃ bs, Emits host insn s l bs ∧ (IsCanonical l bs ↔ ¬DecompressesZero insn s) := by
  have hcanonical : ¬DecompressesZero insn s →
      (∃ bs, Emits host insn s l bs ∧ IsCanonical l bs) →
      ∃ bs, Emits host insn s l bs ∧ (IsCanonical l bs ↔ ¬DecompressesZero insn s) := by
    rintro hn ⟨bs, hbs, hc⟩
    exact ⟨bs, hbs, fun _ => hn, fun _ => hc⟩
  have hf3 : ∀ {f3}, IsCustom1 insn f3 → f3 ≠ F3_SW → ¬DecompressesZero insn s :=
    fun h1 hne hz => hne (h1.2.symm.trans hz.1.2)
  have hop' : ∀ {op}, tableOp insn = op → op ≠ SW_HINT_DECOMPRESS → ¬DecompressesZero insn s :=
    fun hop hne hz => hne (hop.symm.trans hz.2.1)
  cases hl with
  | modular h1 he hop =>
    exact hcanonical (hf3 h1 (by decide))
      (modular_emits hrun (ht.moduli _ (List.mem_of_getElem? he)) h1 he hop)
  | hintNonQr hw he =>
    exact hcanonical (hf3 hw.1 (by decide))
      (hintNonQr_emits hrun (ht.moduli _ (List.mem_of_getElem? he)) he hw)
  | hintSqrt hw he =>
    exact hcanonical (hf3 hw.1 (by decide))
      (hintSqrt_emits hrun (ht.moduli _ (List.mem_of_getElem? he)) he hw)
  | complex h1 he hop =>
    exact hcanonical (hf3 h1 (by decide))
      (complex_emits hrun (ht.complex _ (List.mem_of_getElem? he)) h1 he hop)
  | swAddNe h1 he hop =>
    exact hcanonical (hop' hop (by decide))
      (addNe_emits hrun (ht.curves _ (List.mem_of_getElem? he)) h1 he hop)
  | swDouble h1 he hop =>
    exact hcanonical (hop' hop (by decide))
      (double_emits hrun (ht.curves _ (List.mem_of_getElem? he)) h1 he hop)
  | swDecompress h1 he hop =>
    exact decompress_emits hrun (ht.curves _ (List.mem_of_getElem? he)) h1 he hop
  | swNonQr h1 he hop =>
    exact hcanonical (hop' hop (by decide))
      (swNonQr_emits hrun (ht.curves _ (List.mem_of_getElem? he)) h1 he hop)

/-! ### A root that is not reduced -/

/-- The curve `y ^ 2 = x ^ 3 + 6 x` modulo seven, with a point of order two at the origin. -/
def torsionCurve : CurveEntry := { name := "torsion", coordBytes := 1, modulus := 7, a := 6, b := 0 }

/-- A machine with that curve only, and one in `x1`. -/
def torsionMachine : Machine :=
  let s := Sim.blank.setReg 1#5 1#32
  { s with handler := { s.handler with moduli := [], complex := [], curves := [torsionCurve] } }

/-- HintDecompress of the coordinate at address zero, which is zero, to an odd root. -/
def oddRootWord : Word :=
  SW_HINT_DECOMPRESS <<< 25 ||| 1#32 <<< 20 ||| F3_SW <<< 12 ||| OPCODE_CUSTOM_1

theorem torsionMachine_tables : FieldTables torsionMachine.handler where
  moduli _ h := absurd h List.not_mem_nil
  complex _ h := absurd h List.not_mem_nil
  curves curve h := by
    obtain rfl := List.mem_singleton.mp h
    exact ⟨by decide, by decide, by decide⟩

/-- One element of one byte, stored at `[rd]`. -/
def oddRootLayout : Layout := ⟨7, 1, 1, 0, .stored⟩

theorem oddRootWord_layout : HasLayout torsionMachine.handler oddRootWord oddRootLayout := by
  have he : torsionMachine.handler.curves[tableIdx oddRootWord]? = some torsionCurve := rfl
  exact .swDecompress (by decide) he (by decide)

theorem oddRootWord_yields :
    Yields Host.constant oddRootWord torsionMachine (.stored [7#8]) := by
  have he : torsionMachine.handler.curves[tableIdx oddRootWord]? = some torsionCurve := rfl
  have hx : leftOperand oddRootWord torsionMachine torsionCurve.coordBytes = 0 := by decide
  have hpar : parityOperand oddRootWord torsionMachine = 1 := by decide
  refine yields_stored (calls_sw (by decide))
    (handleSw_decompress Host.constant oddRootWord torsionMachine he (by decide)) ?_
  rw [hx, hpar]
  decide

/-- The element stored there is the prime itself. -/
theorem emitted_canonical_iff_torsion : ∃ bs,
    Emits Host.constant oddRootWord torsionMachine oddRootLayout bs ∧
      ¬IsCanonical oddRootLayout bs := by
  obtain ⟨bs, hbs, hiff⟩ := emitted_canonical_iff Host.constant oddRootWord torsionMachine _
    torsionMachine_tables oddRootWord_layout oddRootWord_yields
  refine ⟨bs, hbs, fun hc => hiff.mp hc ?_⟩
  exact ⟨by decide, by decide, by decide, torsionCurve, rfl, by decide⟩

/-- Not every element emitted is reduced. -/
theorem odd_root_of_zero : ¬∀ (host : Host) (insn : Word) (s s' : Machine) (l : Layout)
    (o : StepOutcome) (bs : List Byte), FieldTables s.handler → HasLayout s.handler insn l →
    (handle host insn).run s = .ok o s' → Emits host insn s l bs → IsCanonical l bs := by
  intro h
  have hc := h Host.constant oddRootWord torsionMachine _ oddRootLayout _ [7#8]
    torsionMachine_tables oddRootWord_layout oddRootWord_yields ⟨rfl, oddRootWord_yields⟩
  exact absurd (hc 7 (by decide)) (by decide)

end OpenvmSim.Precompiles
