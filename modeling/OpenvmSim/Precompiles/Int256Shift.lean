import OpenvmSim.Base.Fill
import OpenvmSim.Precompiles.Int256Words

/-! The 256-bit shifts.

The loops index the buffers by offsets that are calculated from the shift amount. They are
written here with the bound checked at every access; no check fails, and what they write is
`shl` and `shrFill`. As bit vectors these are the shifts by the whole amount, whether it is a
multiple of eight or not. -/
namespace OpenvmSim.Precompiles
open Rv32im

namespace Int256

/-! ### The loops -/

/-- `a[k]`. -/
def index (a : U256) (k : ℕ) : Calc Byte :=
  if h : k < 32 then pure a[k] else throw (.panic "index out of bounds")

/-- `r[k] = v`. -/
def setIndex (r : U256) (k : ℕ) (v : Byte) : Calc U256 :=
  if h : k < 32 then pure (r.set k v) else throw (.panic "index out of bounds")

/-- A difference of `usize`, which is an index or the end of a range: in a build that lets it wrap
the index is out of bounds. -/
def usizeSub (a b : ℕ) : Calc ℕ :=
  if b ≤ a then pure (a - b) else throw (.panic "attempt to subtract with overflow")

def shlHi (a : U256) (byteOff i : ℕ) : Calc Byte :=
  if i ≥ byteOff then do index a (← usizeSub i byteOff) else pure 0#8

def shlLo (a : U256) (byteOff i : ℕ) : Calc Byte :=
  if i > byteOff then do index a (← usizeSub (← usizeSub i byteOff) 1) else pure 0#8

def shlByte (a : U256) (byteOff bitOff i : ℕ) : Calc Byte := do
  let hi ← shlHi a byteOff i
  let lo ← shlLo a byteOff i
  pure (hi <<< bitOff ||| lo >>> (8 - bitOff))

def shlLoop (a : U256) (amt : ℕ) : Calc U256 :=
  if amt ≥ 256 then pure (Vector.replicate 32 0#8)
  else
    let byteOff := amt / 8
    let bitOff := amt % 8
    if bitOff = 0 then
      forRange (32 - byteOff) (fun k _ r => do
        let i := byteOff + k
        setIndex r i (← index a (← usizeSub i byteOff))) (Vector.replicate 32 0#8)
    else do
      -- `for i in 32 - 1..0` does nothing
      let r ← forRange (0 - 31) (fun k _ r => do
        setIndex r (31 + k) (← shlByte a byteOff bitOff (31 + k))) (Vector.replicate 32 0#8)
      forRange 32 (fun k _ r => do
        setIndex r (31 - k) (← shlByte a byteOff bitOff (31 - k))) r

def shrRead (fill : Byte) (a : U256) (k : ℕ) : Calc Byte :=
  if k < 32 then index a k else pure fill

def shrByte (fill : Byte) (a : U256) (byteOff bitOff i : ℕ) : Calc Byte := do
  let lo ← shrRead fill a (i + byteOff)
  let hi ← shrRead fill a (i + byteOff + 1)
  pure (lo >>> bitOff ||| hi <<< (8 - bitOff))

/-- The loops of both right shifts. -/
def shrFillLoop (fill : Byte) (a : U256) (amt : ℕ) : Calc U256 :=
  if amt ≥ 256 then pure (Vector.replicate 32 fill)
  else
    let byteOff := amt / 8
    let bitOff := amt % 8
    if bitOff = 0 then do
      forRange (← usizeSub 32 byteOff) (fun i _ r => do
        setIndex r i (← index a (i + byteOff))) (Vector.replicate 32 fill)
    else
      forRange 32 (fun i _ r => do
        setIndex r i (← shrByte fill a byteOff bitOff i)) (Vector.replicate 32 fill)

def shrLogicalLoop (a : U256) (amt : ℕ) : Calc U256 := shrFillLoop 0#8 a amt

def shrArithLoop (a : U256) (amt : ℕ) : Calc U256 := do
  let sign ← index a 31
  shrFillLoop (if sign &&& 0x80#8 ≠ 0#8 then 0xff#8 else 0x00#8) a amt

section Loops
variable {a : U256} {k : ℕ}

theorem index_of_lt (h : k < 32) : index a k = .ok a[k] := dif_pos h

theorem setIndex_of_lt (h : k < 32) (v : Byte) : setIndex a k v = .ok (a.set k v) := dif_pos h

theorem usizeSub_of_le {a b : ℕ} (h : b ≤ a) : usizeSub a b = .ok (a - b) := if_pos h

/-- A loop that writes the bytes of `t`, each at its place. -/
theorem forRange_fill {n : ℕ} {s t : U256} {body : (k : ℕ) → k < n → U256 → Calc U256}
    (place : ℕ → ℕ) (hplace : ∀ k < n, place k < 32)
    (hbody : ∀ k (h : k < n) (_ : place k < 32) r, body k h r = setIndex r (place k) t[place k])
    (hrest : ∀ i (h : i < 32), (∀ k < n, place k ≠ i) → s[i] = t[i]) :
    forRange n body s = .ok t := by
  have hloop := forRange_ok (fun k => Between s t fun i => ∃ j < k, place j = i) body (s := s)
    (.start fun k _ ⟨j, hj, _⟩ => Nat.not_lt_zero j hj) ?_
  · obtain ⟨r, hrun, hr⟩ := hloop
    rw [hrun, hr.eq fun i hi hn => hrest i hi fun k hk heq => hn ⟨k, hk, heq⟩]
  · intro k hk r hr
    refine ⟨_, (hbody k hk (hplace k hk) r).trans (setIndex_of_lt (hplace k hk) _),
      hr.set (hplace k hk) rfl fun i => ?_⟩
    constructor
    · rintro ⟨j, hj, rfl⟩
      rcases Nat.lt_succ_iff_lt_or_eq.mp hj with hlt | rfl
      · exact .inl ⟨j, hlt, rfl⟩
      · exact .inr rfl
    · rintro (⟨j, hj, rfl⟩ | rfl)
      · exact ⟨j, Nat.lt_succ_of_lt hj, rfl⟩
      · exact ⟨k, Nat.lt_succ_self k, rfl⟩

variable (a)

theorem shlHi_eq (byteOff : ℕ) {i : ℕ} (hi : i < 32) :
    shlHi a byteOff i = .ok (byteBelow a i byteOff) := by
  unfold shlHi byteBelow
  split
  · next hle => rw [usizeSub_of_le hle, ok_bind, index_of_lt (by omega), dif_pos ⟨hle, by omega⟩]
  · next hle =>
    rw [dif_neg fun h => hle h.1]
    rfl

theorem shlLo_eq (byteOff : ℕ) {i : ℕ} (hi : i < 32) :
    shlLo a byteOff i = .ok (byteBelow a i (byteOff + 1)) := by
  unfold shlLo byteBelow
  split
  · next hlt =>
    rw [usizeSub_of_le hlt.le, ok_bind, usizeSub_of_le (by omega), ok_bind,
      index_of_lt (by omega), dif_pos ⟨hlt, by omega⟩]
    rfl
  · next hlt =>
    rw [dif_neg fun h => hlt h.1]
    rfl

theorem shlByte_eq (byteOff bitOff : ℕ) {i : ℕ} (hi : i < 32) : shlByte a byteOff bitOff i =
    .ok (byteBelow a i byteOff <<< bitOff ||| byteBelow a i (byteOff + 1) >>> (8 - bitOff)) := by
  rw [shlByte, shlHi_eq a byteOff hi, ok_bind, shlLo_eq a byteOff hi]
  rfl

theorem shlLoop_eq (amt : ℕ) : shlLoop a amt = .ok (shl a amt) := by
  unfold shlLoop shl
  split
  · rfl
  · next hamt =>
    dsimp only
    split
    · refine forRange_fill (amt / 8 + ·) (by omega) (fun k hk _ r => ?_) fun i hi hrest => ?_
      · rw [usizeSub_of_le (Nat.le_add_right _ _), ok_bind, index_of_lt (by omega), ok_bind,
          Vector.getElem_ofFn, byteBelow, dif_pos ⟨Nat.le_add_right _ _, by omega⟩]
      · have hlt : ¬amt / 8 ≤ i := fun hle => hrest (i - amt / 8) (by omega) (by omega)
        rw [Vector.getElem_replicate, Vector.getElem_ofFn, byteBelow, dif_neg fun h => hlt h.1]
    · refine forRange_fill (31 - ·) (by omega) (fun k hk _ r => ?_) fun i hi hrest => ?_
      · rw [shlByte_eq a _ _ (by omega), ok_bind, Vector.getElem_ofFn]
      · exact absurd (by omega) (hrest (31 - i) (by omega))

theorem shrRead_eq (fill : Byte) (k : ℕ) : shrRead fill a k = .ok (byteAt a fill k) := by
  unfold shrRead byteAt
  split
  · next hk => exact index_of_lt hk
  · rfl

theorem shrByte_eq (fill : Byte) (byteOff bitOff i : ℕ) : shrByte fill a byteOff bitOff i =
    .ok (byteAt a fill (i + byteOff) >>> bitOff |||
      byteAt a fill (i + byteOff + 1) <<< (8 - bitOff)) := by
  rw [shrByte, shrRead_eq, ok_bind, shrRead_eq]
  rfl

theorem shrFillLoop_eq (fill : Byte) (amt : ℕ) :
    shrFillLoop fill a amt = .ok (shrFill fill a amt) := by
  unfold shrFillLoop shrFill
  split
  · rfl
  · next hamt =>
    dsimp only
    split
    · rw [usizeSub_of_le (by omega), ok_bind]
      refine forRange_fill id (fun k hk => Nat.lt_of_lt_of_le hk (Nat.sub_le _ _))
        (fun k hk _ r => ?_) fun i hi hrest => ?_
      · have hlt : k + amt / 8 < 32 := by omega
        simp only [id]
        rw [index_of_lt hlt, ok_bind, Vector.getElem_ofFn, byteAt, dif_pos hlt]
      · have hge : ¬i + amt / 8 < 32 := fun hlt => hrest i (by omega) rfl
        rw [Vector.getElem_replicate, Vector.getElem_ofFn, byteAt, dif_neg hge]
    · refine forRange_fill id (fun k hk => hk) (fun k hk _ r => ?_)
        fun i hi hrest => absurd rfl (hrest i hi)
      simp only [id]
      rw [shrByte_eq, ok_bind, Vector.getElem_ofFn]

theorem shrArithLoop_eq (amt : ℕ) : shrArithLoop a amt = .ok (shrArith a amt) := by
  rw [shrArithLoop, index_of_lt (by decide), ok_bind, shrFillLoop_eq]
  rfl

end Loops

/-! ### Shifts of bit vectors -/

/-- The 256 bits of a buffer. -/
def bits (a : U256) : BitVec 256 := BitVec.ofNat 256 (value a)

theorem value_lt_two_pow (a : U256) : value a < 2 ^ 256 := value_lt a

theorem toNat_bits (a : U256) : (bits a).toNat = value a := by
  rw [bits, BitVec.toNat_ofNat, Nat.mod_eq_of_lt (value_lt_two_pow a)]

theorem getLsbD_bits (a : U256) (n : ℕ) :
    (bits a).getLsbD n = (byteAt a 0#8 (n / 8)).getLsbD (n % 8) := by
  have hbyte : a.toList[n / 8]?.getD 0#8 = byteAt a 0#8 (n / 8) := by
    unfold byteAt
    split
    · next h => rw [Vector.getElem?_toList, Vector.getElem?_eq_getElem h, Option.getD_some]
    · next h => rw [Vector.getElem?_toList, Vector.getElem?_eq_none (by omega), Option.getD_none]
  rw [← BitVec.testBit_toNat, toNat_bits, value, LittleEndian.testBit_toNat, hbyte]

/-- A buffer is given by its bits, byte by byte. -/
theorem bits_eq_of_bytes {r : U256} {v : BitVec 256}
    (h : ∀ i (hi : i < 32) j, j < 8 → r[i].getLsbD j = v.getLsbD (8 * i + j)) : bits r = v := by
  apply BitVec.eq_of_getLsbD_eq
  intro n hn
  have hi : n / 8 < 32 := by omega
  have hbyte := h (n / 8) hi (n % 8) (Nat.mod_lt n (by decide))
  rw [Nat.div_add_mod] at hbyte
  rw [getLsbD_bits, byteAt, dif_pos hi, hbyte]

theorem getLsbD_byteBelow (a : U256) {i j : ℕ} (byteOff : ℕ) (hi : i < 32) (hj : j < 8) :
    (byteBelow a i byteOff).getLsbD j =
      (decide (8 * byteOff ≤ 8 * i + j) && (bits a).getLsbD (8 * i + j - 8 * byteOff)) := by
  unfold byteBelow
  split
  · next h =>
    have hdiv : (8 * i + j - 8 * byteOff) / 8 = i - byteOff := by omega
    have hmod : (8 * i + j - 8 * byteOff) % 8 = j := by omega
    rw [getLsbD_bits, hdiv, hmod, byteAt, dif_pos h.2, decide_eq_true (by omega), Bool.true_and]
  · next h => rw [decide_eq_false (by omega), Bool.false_and, BitVec.getLsbD_zero]

/-- The two branches of the left shift merge the bytes in the same way. -/
theorem shl_eq (a : U256) {amt : ℕ} (hamt : amt < 256) :
    shl a amt = Vector.ofFn fun i : Fin 32 => byteBelow a i (amt / 8) <<< (amt % 8) |||
      byteBelow a i (amt / 8 + 1) >>> (8 - amt % 8) := by
  unfold shl
  rw [if_neg (Nat.not_le.mpr hamt)]
  dsimp only
  split
  · next hoff =>
    have hlo : ∀ x : Byte, x >>> 8 = 0#8 := fun x => BitVec.ushiftRight_eq_zero (Nat.le_refl 8)
    simp only [hoff, BitVec.shiftLeft_zero, Nat.sub_zero, hlo, BitVec.or_zero]
  · rfl

theorem bits_shl (a : U256) {amt : ℕ} (hamt : amt < 256) : bits (shl a amt) = bits a <<< amt := by
  refine bits_eq_of_bytes fun i hi j hj => ?_
  have hsplit := Nat.div_add_mod amt 8
  have hmod := Nat.mod_lt amt (show 8 > 0 by decide)
  rw [shl_eq a hamt, Vector.getElem_ofFn, BitVec.getLsbD_or, BitVec.getLsbD_shiftLeft,
    BitVec.getLsbD_ushiftRight, BitVec.getLsbD_shiftLeft, decide_eq_true hj,
    decide_eq_true (show 8 * i + j < 256 by omega), Bool.true_and, Bool.true_and]
  by_cases hlow : j < amt % 8
  · -- the bit comes out of the byte below
    have hidx : 8 * i + (8 - amt % 8 + j) - 8 * (amt / 8 + 1) = 8 * i + j - amt := by omega
    have hiff : 8 * (amt / 8 + 1) ≤ 8 * i + (8 - amt % 8 + j) ↔ ¬8 * i + j < amt := by omega
    rw [getLsbD_byteBelow a (amt / 8 + 1) hi (by omega), hidx, decide_eq_decide.mpr hiff,
      decide_eq_true hlow, Bool.not_true, Bool.false_and, Bool.false_or, decide_not]
  · have hidx : 8 * i + (j - amt % 8) - 8 * (amt / 8) = 8 * i + j - amt := by omega
    have hiff : 8 * (amt / 8) ≤ 8 * i + (j - amt % 8) ↔ ¬8 * i + j < amt := by omega
    rw [getLsbD_byteBelow a (amt / 8) hi (by omega), hidx, decide_eq_decide.mpr hiff,
      decide_eq_false hlow, Bool.not_false, Bool.true_and,
      BitVec.getLsbD_of_ge (byteBelow a i (amt / 8 + 1)) _ (by omega), Bool.or_false, decide_not]

/-- The bits of a buffer, and above it those of `fill`. -/
def extended (fill : Byte) (a : U256) (n : ℕ) : Bool := (byteAt a fill (n / 8)).getLsbD (n % 8)

theorem getLsbD_byteAt (fill : Byte) (a : U256) (k : ℕ) {j : ℕ} (hj : j < 8) :
    (byteAt a fill k).getLsbD j = extended fill a (8 * k + j) := by
  have hdiv : (8 * k + j) / 8 = k := by omega
  have hmod : (8 * k + j) % 8 = j := by omega
  rw [extended, hdiv, hmod]

theorem shrFill_eq (fill : Byte) (a : U256) {amt : ℕ} (hamt : amt < 256) :
    shrFill fill a amt = Vector.ofFn fun i : Fin 32 => byteAt a fill (i + amt / 8) >>> (amt % 8) |||
      byteAt a fill (i + amt / 8 + 1) <<< (8 - amt % 8) := by
  unfold shrFill
  rw [if_neg (Nat.not_le.mpr hamt)]
  dsimp only
  split
  · next hoff =>
    have hhi : ∀ x : Byte, x <<< 8 = 0#8 := fun x => BitVec.shiftLeft_eq_zero (Nat.le_refl 8)
    simp only [hoff, BitVec.ushiftRight_zero, Nat.sub_zero, hhi, BitVec.or_zero]
  · rfl

/-- A right shift moves the extended bits down. -/
theorem bits_shrFill (fill : Byte) (a : U256) {amt : ℕ} (hamt : amt < 256) {v : BitVec 256}
    (hv : ∀ n < 256, v.getLsbD n = extended fill a (n + amt)) : bits (shrFill fill a amt) = v := by
  refine bits_eq_of_bytes fun i hi j hj => ?_
  have hsplit := Nat.div_add_mod amt 8
  have hmod := Nat.mod_lt amt (show 8 > 0 by decide)
  rw [hv _ (by omega), shrFill_eq fill a hamt, Vector.getElem_ofFn, BitVec.getLsbD_or,
    BitVec.getLsbD_shiftLeft, BitVec.getLsbD_ushiftRight, decide_eq_true hj, Bool.true_and]
  by_cases hlow : amt % 8 + j < 8
  · have hidx : 8 * (i + amt / 8) + (amt % 8 + j) = 8 * i + j + amt := by omega
    rw [getLsbD_byteAt fill a _ hlow, hidx, decide_eq_true (show j < 8 - amt % 8 by omega),
      Bool.not_true, Bool.false_and, Bool.or_false]
  · -- the bit comes out of the byte above
    have hidx : 8 * (i + amt / 8 + 1) + (j - (8 - amt % 8)) = 8 * i + j + amt := by omega
    rw [getLsbD_byteAt fill a (i + amt / 8 + 1) (by omega), hidx,
      BitVec.getLsbD_of_ge (byteAt a fill (i + amt / 8)) _ (by omega),
      decide_eq_false (show ¬j < 8 - amt % 8 by omega), Bool.not_false, Bool.true_and, Bool.false_or]

theorem bits_shrLogical (a : U256) {amt : ℕ} (hamt : amt < 256) :
    bits (shrLogical a amt) = bits a >>> amt := by
  refine bits_shrFill 0#8 a hamt fun n hn => ?_
  rw [BitVec.getLsbD_ushiftRight, getLsbD_bits, extended, Nat.add_comm]

/-- The sign bit that is tested. -/
theorem sign_eq (a : U256) (_ : 31 < 32) :
    (a[31] &&& 0x80#8 ≠ 0#8) ↔ (bits a).msb = true := by
  have hbyte : ∀ x : Byte, (x &&& 0x80#8 ≠ 0#8) ↔ x.getLsbD 7 = true := by decide
  rw [hbyte, BitVec.msb_eq_getLsbD_last, getLsbD_bits]
  rfl

theorem bits_shrArith (a : U256) {amt : ℕ} (hamt : amt < 256) :
    bits (shrArith a amt) = (bits a).sshiftRight amt := by
  refine bits_shrFill _ a hamt fun n hn => ?_
  rw [BitVec.getLsbD_sshiftRight, decide_eq_false (Nat.not_le.mpr hn), Bool.not_false,
    Bool.true_and, Nat.add_comm n amt]
  split
  · next h =>
    rw [getLsbD_bits, extended, byteAt, byteAt, dif_pos (by omega), dif_pos (by omega)]
  · next h =>
    rw [extended, byteAt, dif_neg (by omega)]
    by_cases hsign : (bits a).msb = true
    · have hall : ∀ m < 8, (0xff#8).getLsbD m = true := by decide
      rw [if_pos ((sign_eq a (by decide)).mpr hsign), hsign]
      exact (hall _ (Nat.mod_lt _ (by decide))).symm
    · rw [if_neg (mt (sign_eq a (by decide)).mp hsign), BitVec.getLsbD_zero,
        Bool.eq_false_iff.mpr hsign]

/-! ### Values -/

/-- The two's-complement reading of a 256-bit number. -/
def signed (v : ℕ) : ℤ := if v < 2 ^ 255 then v else v - 2 ^ 256

theorem toInt_bits (a : U256) : (bits a).toInt = signed (value a) := by
  rw [BitVec.toInt_eq_toNat_cond, toNat_bits, signed]
  exact if_congr (by omega) rfl rfl

theorem shiftAmount_eq (b : U256) : shiftAmount b = value b % 256 := by
  obtain ⟨rest, hrest⟩ := value_eq_low_add b (show 1 ≤ 32 by decide)
  have hlow := low_succ b (show 0 < 32 by decide)
  have hbyte := b[0].isLt
  rw [low_zero] at hlow
  rw [shiftAmount, hrest, hlow]
  omega

section Values
variable (a : U256) {amt : ℕ} (hamt : amt < 256)
include hamt

theorem value_shl : value (shl a amt) = value a * 2 ^ amt % 2 ^ 256 := by
  rw [← toNat_bits, bits_shl a hamt, BitVec.toNat_shiftLeft, toNat_bits, Nat.shiftLeft_eq]

theorem value_shrLogical : value (shrLogical a amt) = value a / 2 ^ amt := by
  rw [← toNat_bits, bits_shrLogical a hamt, BitVec.toNat_ushiftRight, toNat_bits,
    Nat.shiftRight_eq_div_pow]

theorem value_shrArith :
    value (shrArith a amt) = (signed (value a) / 2 ^ amt % 2 ^ 256).toNat := by
  rw [← toNat_bits, bits_shrArith a hamt, ← BitVec.ofInt_toInt (x := (bits a).sshiftRight amt),
    BitVec.toNat_ofInt, BitVec.toInt_sshiftRight, toInt_bits, Int.shiftRight_eq_div_pow]
  norm_cast

end Values

end Int256

/-! ### The words -/

/-- The shift words store the shifted number, for an amount of `k` bits, and index no buffer out
of bounds. -/
structure Int256Shifts (host : Host) (insn : Word) (s : Machine) (k : ℕ) : Prop where
  sll : funct7 insn = INT256_SLL →
    Writes host insn s 32 (leftOperand insn s 32 * 2 ^ k % 2 ^ 256)
  srl : funct7 insn = INT256_SRL → Writes host insn s 32 (leftOperand insn s 32 / 2 ^ k)
  sra : funct7 insn = INT256_SRA →
    Writes host insn s 32 (Int256.signed (leftOperand insn s 32) / 2 ^ k % 2 ^ 256).toNat
  sllInRange : Int256.shlLoop (leftU256 insn s) k = .ok (Int256.shl (leftU256 insn s) k)
  srlInRange :
    Int256.shrLogicalLoop (leftU256 insn s) k = .ok (Int256.shrLogical (leftU256 insn s) k)
  sraInRange : Int256.shrArithLoop (leftU256 insn s) k = .ok (Int256.shrArith (leftU256 insn s) k)

theorem int256_shifts (host : Host) (insn : Word) (s : Machine) (h0 : IsCustom0 insn F3_INT256) :
    Int256Shifts host insn s (rightOperand insn s 32 % 256) := by
  have hamt : rightOperand insn s 32 % 256 < 256 := Nat.mod_lt _ (by decide)
  have hk : Int256.shiftAmount (rightU256 insn s) = rightOperand insn s 32 % 256 := by
    rw [Int256.shiftAmount_eq, value_rightU256]
  refine ⟨fun hop => ?_, fun hop => ?_, fun hop => ?_, Int256.shlLoop_eq _ _,
    Int256.shrFillLoop_eq _ _ _, Int256.shrArithLoop_eq _ _⟩
  · refine writes_of_yields (int256_yields h0 (r := Int256.shl _ _) ?_)
      ((Int256.value_shl _ hamt).trans (by rw [value_leftU256]))
    rw [hop, ← hk]
    rfl
  · refine writes_of_yields (int256_yields h0 (r := Int256.shrLogical _ _) ?_)
      ((Int256.value_shrLogical _ hamt).trans (by rw [value_leftU256]))
    rw [hop, ← hk]
    rfl
  · refine writes_of_yields (int256_yields h0 (r := Int256.shrArith _ _) ?_)
      ((Int256.value_shrArith _ hamt).trans (by rw [value_leftU256]))
    rw [hop, ← hk]
    rfl

/-- INT256 SRA of the operand at address zero by the amount at `[x1]`. -/
def int256SraWord : Word := INT256_SRA <<< 25 ||| 1#32 <<< 20 ||| F3_INT256 <<< 12 |||
  OPCODE_CUSTOM_0

/-- A machine with the least signed number at address zero, and nine at `[x1]`. -/
def negativeMachine : Machine :=
  ((Sim.blank.setReg 1#5 32#32).store 31#32 [0x80#8]).store 32#32 [9#8]

theorem int256_shifts_negative :
    Writes Host.constant int256SraWord negativeMachine 32 (2 ^ 256 - 2 ^ 246) := by
  have h := (int256_shifts Host.constant int256SraWord negativeMachine (by decide)).sra (by decide)
  have hleft : leftOperand int256SraWord negativeMachine 32 = 2 ^ 255 := by decide
  have hright : rightOperand int256SraWord negativeMachine 32 = 9 := by decide
  rw [hleft, hright] at h
  exact h

end OpenvmSim.Precompiles
