import Mathlib.Data.List.GetD
import OpenvmSim.Base.Fips202

/-! Hashing with the sponge of FIPS 202.

The standard hashes strings of bits: the message is padded by `10*1`, and its blocks of `r` bits are
absorbed one after the other. A program hashes strings of bytes, in whatever pieces it gets them
(`Streams`): it adds each piece to the state behind the one before, permutes the state when `R` bytes
are full, and marks the end of the message by two bytes. That is the same (`Streams.digest`). -/
namespace OpenvmSim.Fips202

abbrev Byte := BitVec 8

/-! ### The hash functions of the standard -/

section Sponge
variable {w : ℕ} [NeZero w]

def zeroState : StateArray w := fun _ _ _ => false

/-- Bits added to the front of the state, which is written out lane by lane. -/
def xorBits (A : StateArray w) (bits : List Bool) : StateArray w := fun x y z =>
  A x y z ^^ bits.getD (w * (5 * y.val + x.val) + z.val) false

/-- Bit `k` of the state. -/
def stateBit (A : StateArray w) (k : ℕ) : Bool :=
  A ⟨k / w % 5, Nat.mod_lt _ (by decide)⟩ ⟨k / w / 5 % 5, Nat.mod_lt _ (by decide)⟩
    ⟨k % w, Nat.mod_lt _ (Nat.pos_of_neZero w)⟩

def trunc (d : ℕ) (A : StateArray w) : List Bool := (List.range d).map (stateBit A)

/-- `pad10*1`, what is put behind `m` bits to make them a multiple of `r`. -/
def pad101 (r m : ℕ) : List Bool :=
  true :: (List.replicate ((-m - 2 : ℤ) % r).toNat false ++ [true])

/-- The first `n` blocks of `r` bits are absorbed. -/
def absorbBlocks (r : ℕ) : ℕ → List Bool → StateArray w → StateArray w
  | 0, _, S => S
  | n + 1, P, S => absorbBlocks r n (P.drop r) (keccakF (xorBits S (P.take r)))

/-- The message is padded and absorbed. -/
def absorbAll (r : ℕ) (N : List Bool) (S : StateArray w) : StateArray w :=
  let P := N ++ pad101 r N.length
  absorbBlocks r (P.length / r) P S

def squeeze (r : ℕ) : ℕ → StateArray w → List Bool
  | 0, _ => []
  | n + 1, S => trunc r S ++ squeeze r n (keccakF S)

def sponge (w : ℕ) [NeZero w] (r : ℕ) (N : List Bool) (d : ℕ) : List Bool :=
  (squeeze r (d / r + 1) (absorbAll r N (zeroState : StateArray w))).take d

end Sponge

/-- `KECCAK[c]`, with the permutation of 1600 bits. -/
def keccak (c : ℕ) (N : List Bool) (d : ℕ) : List Bool := sponge 64 (1600 - c) N d

section Sponge
variable {w : ℕ} [NeZero w]

theorem pad101_add (r m : ℕ) : pad101 r (r + m) = pad101 r m := by
  have hzeros : (-(r + m : ℕ) - 2 : ℤ) % r = (-m - 2 : ℤ) % r := by
    have hshift : (-(r + m : ℕ) - 2 : ℤ) = (-m - 2) - r := by omega
    rw [hshift, Int.sub_emod_right]
  rw [pad101, pad101, hzeros]

/-- The padding of the last block. -/
theorem pad101_last {r m : ℕ} (h : m + 2 ≤ r) :
    pad101 r m = true :: (List.replicate (r - m - 2) false ++ [true]) := by
  have hzeros : (-m - 2 : ℤ) % r = (r - m - 2 : ℕ) := by
    have hshift : (-m - 2 : ℤ) = (r - m - 2 : ℕ) - r := by omega
    rw [hshift, Int.sub_emod_right]
    exact Int.emod_eq_of_lt (by omega) (by omega)
  rw [pad101, hzeros, Int.toNat_natCast]

/-- A whole block is absorbed before the rest. -/
theorem absorbAll_block {r : ℕ} (hr : 0 < r) {B : List Bool} (hB : B.length = r) (N : List Bool)
    (S : StateArray w) : absorbAll r (B ++ N) S = absorbAll r N (keccakF (xorBits S B)) := by
  have hpad : pad101 r (B ++ N).length = pad101 r N.length := by
    rw [List.length_append, hB, pad101_add]
  have hlen : (B ++ N ++ pad101 r N.length).length / r = (N ++ pad101 r N.length).length / r + 1 := by
    rw [List.append_assoc, List.length_append, hB, Nat.add_div_left _ hr]
  simp only [absorbAll, hpad, hlen]
  rw [absorbBlocks, List.append_assoc, List.drop_left' hB, List.take_left' hB]

theorem absorbAll_last {r : ℕ} {N : List Bool} (h : N.length + 2 ≤ r) (S : StateArray w) :
    absorbAll r N S =
      keccakF (xorBits S (N ++ true :: (List.replicate (r - N.length - 2) false ++ [true]))) := by
  have hlen : (N ++ true :: (List.replicate (r - N.length - 2) false ++ [true])).length = r := by
    simp only [List.length_append, List.length_cons, List.length_replicate, List.length_nil]
    omega
  simp only [absorbAll, pad101_last h, hlen]
  rw [Nat.div_self (by omega), absorbBlocks, absorbBlocks, List.take_of_length_le hlen.le]

theorem length_trunc (d : ℕ) (S : StateArray w) : (trunc d S).length = d := by
  rw [trunc, List.length_map, List.length_range]

/-- A digest within the rate is the front of the state. -/
theorem sponge_eq {r d : ℕ} (h : d ≤ r) (N : List Bool) :
    sponge w r N d = trunc d (absorbAll r N (zeroState : StateArray w)) := by
  rw [sponge, squeeze, List.take_append_of_le_length (by rwa [length_trunc]), trunc, trunc,
    ← List.map_take, List.take_range, Nat.min_eq_left h]

end Sponge

/-! ### Strings of bytes -/

/-- The bits of a string of bytes, low bits first. -/
def bitsOf (bytes : List Byte) : List Bool :=
  bytes.flatMap fun b => (List.range 8).map b.getLsbD

theorem bitsOf_cons (b : Byte) (bytes : List Byte) :
    bitsOf (b :: bytes) = (List.range 8).map b.getLsbD ++ bitsOf bytes := rfl

theorem bitsOf_append (xs ys : List Byte) : bitsOf (xs ++ ys) = bitsOf xs ++ bitsOf ys :=
  List.flatMap_append

@[simp] theorem length_bitsOf (bytes : List Byte) : (bitsOf bytes).length = 8 * bytes.length := by
  induction bytes with
  | nil => rfl
  | cons b bytes ih =>
    rw [bitsOf_cons, List.length_append, ih, List.length_map, List.length_range, List.length_cons]
    omega

theorem getD_bitsOf (bytes : List Byte) (k : ℕ) : (bitsOf bytes).getD k false = bitOf bytes k := by
  induction bytes generalizing k with
  | nil => simp [bitsOf, bitOf]
  | cons b bytes ih =>
    rw [bitsOf_cons, bitOf]
    by_cases hk : k < 8
    · rw [List.getD_append _ _ _ _ (by simpa using hk), Nat.div_eq_of_lt hk, Nat.mod_eq_of_lt hk,
        List.getD_cons_zero, List.getD_eq_getElem?_getD, List.getElem?_map, List.getElem?_range hk]
      rfl
    · have hdiv : k / 8 = (k - 8) / 8 + 1 := by omega
      have hmod : k % 8 = (k - 8) % 8 := by omega
      rw [List.getD_append_right _ _ _ _ (by simpa using hk), List.length_map, List.length_range,
        ih, hdiv, hmod, List.getD_cons_succ, bitOf]

theorem bitOf_singleton (b : Byte) (k : ℕ) : bitOf [b] k = b.getLsbD k := by
  by_cases hk : k < 8
  · rw [bitOf, Nat.div_eq_of_lt hk, Nat.mod_eq_of_lt hk, List.getD_cons_zero]
  · have hdiv : k / 8 = (k - 8) / 8 + 1 := by omega
    rw [bitOf, hdiv, List.getD_cons_succ, List.getD_nil, BitVec.getLsbD_zero,
      BitVec.getLsbD_of_ge b k (by omega)]

/-- Bytes behind others. -/
theorem bitOf_append (xs ys : List Byte) (k : ℕ) :
    bitOf (xs ++ ys) k = if k < 8 * xs.length then bitOf xs k else bitOf ys (k - 8 * xs.length) := by
  rw [← getD_bitsOf, bitsOf_append]
  split
  · next hk => rw [List.getD_append _ _ _ _ (by rwa [length_bitsOf]), getD_bitsOf]
  · next hk =>
    rw [List.getD_append_right _ _ _ _ (by rw [length_bitsOf]; omega), length_bitsOf, getD_bitsOf]

theorem bitOf_zeros (n k : ℕ) : bitOf (List.replicate n 0#8) k = false := by
  rw [bitOf, List.getD_eq_getElem?_getD, List.getElem?_getD_replicate_default_eq,
    BitVec.getLsbD_zero]

/-- Bytes behind zeros. -/
theorem bitOf_shift (n : ℕ) (bytes : List Byte) (k : ℕ) :
    bitOf (List.replicate n 0#8 ++ bytes) k = if k < 8 * n then false else bitOf bytes (k - 8 * n) := by
  rw [bitOf_append, List.length_replicate, bitOf_zeros]

/-! ### Hashing in pieces -/

section Pieces
variable {w : ℕ}

theorem xorBlock_eq (A : StateArray w) (bytes : List Byte) :
    xorBlock A bytes = xorBits A (bitsOf bytes) := by
  funext x y z
  rw [xorBlock, xorBits, getD_bitsOf]

/-- What a program does to the state: it adds bytes at an offset, or permutes it. -/
inductive HashOp where
  | xor (offset : ℕ) (bytes : List Byte)
  | permute

def HashOp.apply [NeZero w] (A : StateArray w) : HashOp → StateArray w
  | .xor offset bytes => xorBlock A (List.replicate offset 0#8 ++ bytes)
  | .permute => keccakF A

/-- The byte at the end of the message: the bits of the suffix, and the first bit of the padding. -/
def endByte (suffix : List Bool) : Byte := (BitVec.ofBoolListLE (suffix ++ [true])).setWidth 8

/-- The ends of KECCAK-256 and of SHA3-256. -/
example : endByte [] = 0x01#8 ∧ endByte [false, true] = 0x06#8 := by decide

/-- The bytes behind a message of which `n` are in the last block. -/
def padBytes (R : ℕ) (suffix : List Bool) (n : ℕ) : List Byte :=
  if n + 1 = R then [endByte suffix ^^^ 0x80#8]
  else endByte suffix :: (List.replicate (R - n - 2) 0#8 ++ [0x80#8])

/-- The operations hash a message in blocks of `R` bytes, `n` of which are full. The end of the
message is marked by two bytes, or padding is put behind the message in memory. -/
inductive Streams (R : ℕ) (suffix : List Bool) : ℕ → List Byte → List HashOp → Prop where
  | piece {n : ℕ} {bytes rest : List Byte} {ops : List HashOp} (h : n + bytes.length ≤ R)
      (hs : Streams R suffix (n + bytes.length) rest ops) :
      Streams R suffix n (bytes ++ rest) (.xor n bytes :: ops)
  | full {rest : List Byte} {ops : List HashOp} (hs : Streams R suffix 0 rest ops) :
      Streams R suffix R rest (.permute :: ops)
  | marked {n : ℕ} (h : n < R) :
      Streams R suffix n [] [.xor n [endByte suffix], .xor (R - 1) [0x80#8], .permute]
  | padded {n : ℕ} {bytes : List Byte} (h : n + bytes.length < R) :
      Streams R suffix n bytes
        [.xor n (bytes ++ padBytes R suffix (n + bytes.length)), .permute]

theorem Streams.pos {R : ℕ} {suffix : List Bool} {n : ℕ} {message : List Byte} {ops : List HashOp}
    (h : Streams R suffix n message ops) : 0 < R := by
  induction h with
  | piece _ _ ih => exact ih
  | full _ ih => exact ih
  | marked h => omega
  | padded h => omega

theorem bitOf_end {bytes : List Byte} {k : ℕ} (h : 8 * bytes.length ≤ k) : bitOf bytes k = false := by
  rw [bitOf, List.getD_eq_default _ _ (by omega), BitVec.getLsbD_zero]

theorem xorBlock_nil (A : StateArray w) : xorBlock A [] = A := by
  funext x y z
  rw [xorBlock, bitOf_end (Nat.zero_le _), Bool.xor_false]

theorem xorBlock_xorBlock {A : StateArray w} {xs ys zs : List Byte}
    (h : ∀ k, bitOf zs k = (bitOf xs k ^^ bitOf ys k)) :
    xorBlock (xorBlock A xs) ys = xorBlock A zs := by
  funext x y z
  rw [xorBlock, xorBlock, xorBlock, h, Bool.xor_assoc]

/-- A piece behind the one before. -/
theorem xorBlock_append (A : StateArray w) (xs ys : List Byte) :
    xorBlock (xorBlock A xs) (List.replicate xs.length 0#8 ++ ys) = xorBlock A (xs ++ ys) := by
  refine xorBlock_xorBlock fun k => ?_
  rw [bitOf_append, bitOf_shift]
  split
  · exact (Bool.xor_false _).symm
  · next hk =>
    have hout : bitOf xs k = false := bitOf_end (by omega)
    rw [hout, Bool.false_xor]

end Pieces

/-! ### The end of the message -/

section Padding
variable {R : ℕ} {suffix : List Bool} {n : ℕ}

theorem getLsbD_endByte (h : suffix.length ≤ 6) (k : ℕ) :
    (endByte suffix).getLsbD k = (suffix ++ [true]).getD k false := by
  rw [endByte, BitVec.getLsbD_setWidth, BitVec.getLsbD_ofBoolListLE]
  by_cases hk : k < 8
  · rw [decide_eq_true hk, Bool.true_and]
  · rw [decide_eq_false hk, Bool.false_and, List.getD_eq_default]
    rw [List.length_append, List.length_singleton]
    omega

theorem getLsbD_lastBit (k : ℕ) : (0x80#8).getLsbD k = decide (k = 7) := by
  by_cases hk : k < 8
  · have hall : ∀ k : Fin 8, (0x80#8).getLsbD k.val = decide (k.val = 7) := by decide
    exact hall ⟨k, hk⟩
  · rw [BitVec.getLsbD_of_ge _ _ (by omega), decide_eq_false (by omega)]

/-- The bits that are added to the last block, of which `n` bytes are full. -/
def marks (R : ℕ) (suffix : List Bool) (n k : ℕ) : Bool :=
  (if k < 8 * n then false else (endByte suffix).getLsbD (k - 8 * n)) ^^ decide (k + 1 = 8 * R)

theorem marks_bytes (h : n < R) (k : ℕ) :
    (bitOf (List.replicate n 0#8 ++ [endByte suffix]) k ^^
      bitOf (List.replicate (R - 1) 0#8 ++ [0x80#8]) k) = marks R suffix n k := by
  rw [bitOf_shift, bitOf_shift, bitOf_singleton, bitOf_singleton, getLsbD_lastBit, marks]
  congr 1
  split
  · exact (decide_eq_false (by omega)).symm
  · exact decide_eq_decide.mpr (by omega)

/-- The two marks are the padding bytes. -/
theorem marks_padBytes (h : n < R) (k : ℕ) :
    bitOf (List.replicate n 0#8 ++ padBytes R suffix n) k = marks R suffix n k := by
  rw [← marks_bytes h, bitOf_shift, bitOf_shift, bitOf_shift, bitOf_singleton, bitOf_singleton,
    padBytes]
  by_cases hn : n + 1 = R
  · obtain rfl : n = R - 1 := by omega
    rw [if_pos hn]
    split
    · rfl
    · rw [bitOf_singleton, BitVec.getLsbD_xor]
  · rw [if_neg hn]
    split
    · next hk => rw [if_pos (by omega), Bool.xor_false]
    · next hk =>
      have hcons : ∀ bytes, endByte suffix :: bytes = [endByte suffix] ++ bytes := fun _ => rfl
      rw [hcons, bitOf_append, bitOf_shift, bitOf_singleton, bitOf_singleton, List.length_singleton]
      split
      · next hlow => rw [if_pos (by omega), Bool.xor_false]
      · next hhigh =>
        rw [BitVec.getLsbD_of_ge (endByte suffix) (k - 8 * n) (by omega), Bool.false_xor]
        split
        · next hmid => rw [if_pos (by omega)]
        · next hlast =>
          rw [if_neg (by omega)]
          congr 1
          omega

/-- The last block of the standard. -/
theorem marks_bits (hs : suffix.length ≤ 6) {pre : List Byte} (h : pre.length < R) (k : ℕ) :
    (bitOf pre k ^^ marks R suffix pre.length k) =
      (bitsOf pre ++ suffix ++ true :: (List.replicate
        (8 * R - (bitsOf pre ++ suffix).length - 2) false ++ [true])).getD k false := by
  obtain ⟨e, he⟩ : ∃ e, e = suffix ++ [true] := ⟨_, rfl⟩
  have hlen : e.length = suffix.length + 1 := by rw [he, List.length_append, List.length_singleton]
  have hassoc : ∀ zs : List Bool, bitsOf pre ++ suffix ++ true :: zs = bitsOf pre ++ (e ++ zs) :=
    fun zs => by simp [he]
  rw [marks, getLsbD_endByte hs, ← he, hassoc, List.length_append, length_bitsOf]
  by_cases hpre : k < 8 * pre.length
  · rw [if_pos hpre, decide_eq_false (by omega), List.getD_append _ _ _ _ (by rwa [length_bitsOf]),
      getD_bitsOf, Bool.xor_false, Bool.xor_false]
  · have hout : bitOf pre k = false := bitOf_end (by omega)
    rw [if_neg hpre, hout, Bool.false_xor,
      List.getD_append_right _ _ _ _ (by rw [length_bitsOf]; omega), length_bitsOf]
    generalize hi : k - 8 * pre.length = i
    by_cases hend : i < e.length
    · rw [List.getD_append _ _ _ _ hend, decide_eq_false (by omega), Bool.xor_false]
    · rw [List.getD_append_right _ _ _ _ (by omega), List.getD_eq_default e _ (by omega),
        Bool.false_xor]
      by_cases hzero : k + 1 < 8 * R
      · rw [List.getD_append _ _ _ _ (by rw [List.length_replicate]; omega),
          decide_eq_false (by omega), List.getD_eq_getElem?_getD,
          List.getElem?_getD_replicate_default_eq]
      · rw [List.getD_append_right _ _ _ _ (by rw [List.length_replicate]; omega),
          List.length_replicate]
        by_cases hlast : k + 1 = 8 * R
        · have hidx : i - e.length - (8 * R - (8 * pre.length + suffix.length) - 2) = 0 := by omega
          rw [hidx, decide_eq_true hlast, List.getD_cons_zero]
        · rw [decide_eq_false hlast, List.getD_eq_default _ _ (by rw [List.length_singleton]; omega)]

end Padding

/-! ### The digest -/

section Digest
variable {w : ℕ} {R : ℕ} {suffix : List Bool}

/-- The end of the message is marked. -/
def addMarks (R : ℕ) (suffix : List Bool) (n : ℕ) (A : StateArray w) : StateArray w := fun x y z =>
  A x y z ^^ marks R suffix n (w * (5 * y.val + x.val) + z.val)

theorem addMarks_bytes {n : ℕ} (h : n < R) (A : StateArray w) :
    xorBlock (xorBlock A (List.replicate n 0#8 ++ [endByte suffix]))
      (List.replicate (R - 1) 0#8 ++ [0x80#8]) = addMarks R suffix n A := by
  funext x y z
  rw [addMarks, ← marks_bytes h, ← Bool.xor_assoc]
  rfl

theorem addMarks_padBytes {n : ℕ} (h : n < R) (A : StateArray w) :
    xorBlock A (List.replicate n 0#8 ++ padBytes R suffix n) = addMarks R suffix n A := by
  funext x y z
  rw [addMarks, ← marks_padBytes h]
  rfl

variable [NeZero w]

theorem absorbAll_marks (hs : suffix.length ≤ 6) {pre : List Byte} (h : pre.length < R)
    (A : StateArray w) : absorbAll (8 * R) (bitsOf pre ++ suffix) A =
      keccakF (addMarks R suffix pre.length (xorBlock A pre)) := by
  rw [absorbAll_last (by rw [List.length_append, length_bitsOf]; omega)]
  congr 1
  funext x y z
  rw [addMarks, xorBlock, xorBits, Bool.xor_assoc, marks_bits hs h]

/-- The operations absorb the message, of which `n` bytes have been added to the state before. -/
theorem Streams.absorbs (hs : suffix.length ≤ 6) {n : ℕ} {rest : List Byte} {ops : List HashOp}
    (h : Streams R suffix n rest ops) {pre : List Byte} (hpre : pre.length = n)
    (A : StateArray w) : ops.foldl HashOp.apply (xorBlock A pre) =
      absorbAll (8 * R) (bitsOf (pre ++ rest) ++ suffix) A := by
  induction h generalizing pre A with
  | @piece n bytes rest ops _ _ ih =>
    subst hpre
    rw [List.foldl_cons, HashOp.apply, xorBlock_append, ih (List.length_append ..),
      List.append_assoc]
  | @full rest ops hs' ih =>
    have hR := hs'.pos
    have hblock : (bitsOf pre).length = 8 * R := by rw [length_bitsOf, hpre]
    rw [List.foldl_cons, HashOp.apply, ← xorBlock_nil (keccakF _), ih rfl, List.nil_append,
      bitsOf_append pre, List.append_assoc, absorbAll_block (by omega) hblock, xorBlock_eq]
  | @marked n hn =>
    subst hpre
    rw [List.append_nil, absorbAll_marks hs hn, ← addMarks_bytes hn]
    rfl
  | @padded n bytes hn =>
    subst hpre
    have hlen : (pre ++ bytes).length = pre.length + bytes.length := List.length_append
    rw [absorbAll_marks hs (by rwa [hlen]), hlen, ← addMarks_padBytes hn, ← hlen, xorBlock_append,
      List.append_assoc, ← xorBlock_append A pre]
    rfl

/-- A message that is hashed in pieces has the digest of the standard. -/
theorem Streams.digest (hs : suffix.length ≤ 6) {message : List Byte}
    {ops : List HashOp} (h : Streams R suffix 0 message ops) {d : ℕ} (hd : d ≤ 8 * R) :
    trunc d (ops.foldl HashOp.apply (zeroState : StateArray w)) =
      sponge w (8 * R) (bitsOf message ++ suffix) d := by
  have hstart : ([] : List Byte).length = 0 := rfl
  have habsorbs := h.absorbs hs hstart (zeroState : StateArray w)
  rw [xorBlock_nil, List.nil_append] at habsorbs
  rw [sponge_eq hd, habsorbs]

end Digest

end OpenvmSim.Fips202
