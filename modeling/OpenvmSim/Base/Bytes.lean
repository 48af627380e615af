import Mathlib.Data.List.Basic
import Mathlib.Data.Nat.Digits.Defs
import Mathlib.Tactic.Ring

/-! Little-endian byte strings.

`toNat` reads a byte string as a number, least significant byte first, and `ofNat
k` writes the `k` low bytes of a number. Machine words are converted through them:
`word16`, `word32` and `word64` are the values of two, four and eight bytes. -/
namespace OpenvmSim.LittleEndian

/-- The number a byte string stands for. -/
def toNat : List (BitVec 8) → ℕ
  | [] => 0
  | b :: bs => b.toNat + 256 * toNat bs

/-- The `k` low bytes of a number. -/
def ofNat : ℕ → ℕ → List (BitVec 8)
  | 0, _ => []
  | k + 1, n => BitVec.ofNat 8 n :: ofNat k (n / 256)

@[simp] theorem toNat_nil : toNat [] = 0 := rfl

@[simp] theorem toNat_cons (b : BitVec 8) (bs : List (BitVec 8)) :
    toNat (b :: bs) = b.toNat + 256 * toNat bs := rfl

@[simp] theorem length_ofNat (k n : ℕ) : (ofNat k n).length = k := by
  induction k generalizing n with
  | zero => rfl
  | succ k ih => simp [ofNat, ih]

/-- The `i`-th byte of a number. -/
theorem getElem?_ofNat {k n i : ℕ} (h : i < k) :
    (ofNat k n)[i]? = some (BitVec.ofNat 8 (n / 256 ^ i)) := by
  induction k generalizing n i with
  | zero => exact absurd h (Nat.not_lt_zero i)
  | succ k ih =>
    cases i with
    | zero => simp [ofNat]
    | succ i =>
      rw [ofNat, List.getElem?_cons_succ, ih (Nat.lt_of_succ_lt_succ h), Nat.div_div_eq_div_mul,
        pow_succ']

theorem toNat_lt (bs : List (BitVec 8)) : toNat bs < 256 ^ bs.length := by
  induction bs with
  | nil => simp
  | cons b bs ih =>
    have hb := b.isLt
    rw [toNat_cons, List.length_cons, pow_succ]
    omega

/-- Writing `k` bytes of a number keeps it modulo `256 ^ k`. -/
theorem toNat_ofNat (k n : ℕ) : toNat (ofNat k n) = n % 256 ^ k := by
  induction k generalizing n with
  | zero => simp [ofNat, Nat.mod_one]
  | succ k ih =>
    rw [ofNat, toNat_cons, ih, BitVec.toNat_ofNat, pow_succ' 256 k, Nat.mod_mul]

/-- A byte of a list of words, written out one after the other. -/
theorem getElem?_flatMap_ofNat {w k j : ℕ} (hj : j < k) (l : List (BitVec w)) (i : ℕ) :
    (l.flatMap fun x => ofNat k x.toNat)[i * k + j]? =
      l[i]?.bind fun x => (ofNat k x.toNat)[j]? := by
  induction l generalizing i with
  | nil => rfl
  | cons x l ih =>
    have hlen := length_ofNat k x.toNat
    cases i with
    | zero =>
      rw [Nat.zero_mul, Nat.zero_add, List.flatMap_cons, List.getElem?_append_left (by rwa [hlen])]
      rfl
    | succ i =>
      have hidx : (i + 1) * k + j = k + (i * k + j) := by ring
      have hle : (ofNat k x.toNat).length ≤ k + (i * k + j) := by
        rw [hlen]
        exact Nat.le_add_right _ _
      rw [hidx, List.flatMap_cons, List.getElem?_append_right hle, hlen, Nat.add_sub_cancel_left, ih]
      rfl

/-- A byte string is determined by its length and its number. -/
theorem ofNat_toNat (bs : List (BitVec 8)) : ofNat bs.length (toNat bs) = bs := by
  induction bs with
  | nil => rfl
  | cons b bs ih =>
    have hb := b.isLt
    have hdiv : (b.toNat + 256 * toNat bs) / 256 = toNat bs := by omega
    have hlow : BitVec.ofNat 8 (b.toNat + 256 * toNat bs) = b := by
      apply BitVec.eq_of_toNat_eq
      rw [BitVec.toNat_ofNat]
      omega
    rw [List.length_cons, toNat_cons, ofNat, hdiv, ih, hlow]

/-- Only the `k` low bytes of a number count. -/
theorem ofNat_mod (k n : ℕ) : ofNat k (n % 256 ^ k) = ofNat k n := by
  have h := ofNat_toNat (ofNat k n)
  rwa [length_ofNat, toNat_ofNat] at h

theorem toNat_append (xs ys : List (BitVec 8)) :
    toNat (xs ++ ys) = toNat xs + 256 ^ xs.length * toNat ys := by
  induction xs with
  | nil => simp
  | cons x xs ih =>
    rw [List.cons_append, toNat_cons, ih, toNat_cons, List.length_cons]
    ring

@[simp] theorem toNat_replicate_zero (k : ℕ) : toNat (List.replicate k 0#8) = 0 := by
  induction k with
  | zero => rfl
  | succ k ih => simp [List.replicate_succ, ih]

/-- A bit of a number is a bit of one of its bytes. -/
theorem testBit_toNat (bs : List (BitVec 8)) (i : ℕ) :
    (toNat bs).testBit i = (bs[i / 8]?.getD 0#8).getLsbD (i % 8) := by
  induction bs generalizing i with
  | nil => simp
  | cons b bs ih =>
    have hsplit : toNat (b :: bs) = 2 ^ 8 * toNat bs + b.toNat := Nat.add_comm _ _
    rw [hsplit, Nat.testBit_two_pow_mul_add _ b.isLt]
    by_cases hi : i < 8
    · rw [if_pos hi, Nat.div_eq_of_lt hi, Nat.mod_eq_of_lt hi]
      rfl
    · obtain ⟨j, rfl⟩ := Nat.exists_eq_add_of_le' (Nat.le_of_not_lt hi)
      rw [if_neg hi, Nat.add_sub_cancel, ih, Nat.add_div_right j (by decide), Nat.add_mod_right]
      rfl

/-! ### Numbers of any size -/

/-- The bytes of a number without leading zeros; zero is one zero byte. -/
def ofBig (n : ℕ) : List (BitVec 8) :=
  if n = 0 then [0#8] else (Nat.digits 256 n).map (BitVec.ofNat 8)

/-- Cut or pad a byte string with zeros to `k` bytes. -/
def resize (bs : List (BitVec 8)) (k : ℕ) : List (BitVec 8) :=
  bs.take k ++ List.replicate (k - bs.length) 0#8

theorem toNat_map_digits (n : ℕ) : toNat ((Nat.digits 256 n).map (BitVec.ofNat 8)) = n := by
  induction n using Nat.strong_induction_on with
  | _ n ih =>
    rcases Nat.eq_zero_or_pos n with rfl | hn
    · simp
    · rw [Nat.digits_def' (by decide) hn, List.map_cons, toNat_cons, ih (n / 256) (by omega),
        BitVec.toNat_ofNat]
      omega

theorem toNat_ofBig (n : ℕ) : toNat (ofBig n) = n := by
  unfold ofBig
  split
  · next h => simp [h]
  · exact toNat_map_digits n

/-- The number of a cut or padded string is the number modulo `256 ^ k`. -/
theorem toNat_resize (bs : List (BitVec 8)) (k : ℕ) : toNat (resize bs k) = toNat bs % 256 ^ k := by
  have hsplit := toNat_append (bs.take k) (bs.drop k)
  rw [List.take_append_drop] at hsplit
  have hlt := toNat_lt (bs.take k)
  rw [List.length_take] at hsplit hlt
  have htake : toNat (resize bs k) = toNat (bs.take k) := by
    simp [resize, toNat_append]
  rw [htake, hsplit]
  by_cases hk : k ≤ bs.length
  · rw [min_eq_left hk] at hlt ⊢
    rw [Nat.add_mul_mod_self_left, Nat.mod_eq_of_lt hlt]
  · have hle : bs.length ≤ k := by omega
    rw [min_eq_right hle] at hlt
    rw [List.drop_eq_nil_of_le hle, toNat_nil, Nat.mul_zero, Nat.add_zero,
      Nat.mod_eq_of_lt (lt_of_lt_of_le hlt (Nat.pow_le_pow_right (by decide) hle))]

@[simp] theorem length_resize (bs : List (BitVec 8)) (k : ℕ) : (resize bs k).length = k := by
  simp [resize]
  omega

/-- Writing a number at a fixed width is writing its low bytes. -/
theorem resize_ofBig (n k : ℕ) : resize (ofBig n) k = ofNat k n := by
  have hnum : toNat (resize (ofBig n) k) = toNat (ofNat k n) := by
    rw [toNat_resize, toNat_ofBig, toNat_ofNat]
  have hl := ofNat_toNat (resize (ofBig n) k)
  have hr := ofNat_toNat (ofNat k n)
  rw [length_resize] at hl
  rw [length_ofNat] at hr
  rw [← hl, ← hr, hnum]

/-! ### Machine words -/

/-- The 16-bit word of two bytes. -/
def word16 (b₀ b₁ : BitVec 8) : BitVec 16 := BitVec.ofNat 16 (toNat [b₀, b₁])

/-- The 32-bit word of four bytes. -/
def word32 (b₀ b₁ b₂ b₃ : BitVec 8) : BitVec 32 := BitVec.ofNat 32 (toNat [b₀, b₁, b₂, b₃])

/-- The 64-bit word of eight bytes. -/
def word64 (bs : List (BitVec 8)) : BitVec 64 := BitVec.ofNat 64 (toNat bs)

theorem word16_toNat (b₀ b₁ : BitVec 8) : (word16 b₀ b₁).toNat = toNat [b₀, b₁] := by
  have h₀ := b₀.isLt
  have h₁ := b₁.isLt
  simp only [word16, BitVec.toNat_ofNat, toNat_cons, toNat_nil]
  omega

theorem word32_toNat (b₀ b₁ b₂ b₃ : BitVec 8) :
    (word32 b₀ b₁ b₂ b₃).toNat = toNat [b₀, b₁, b₂, b₃] := by
  have h₀ := b₀.isLt
  have h₁ := b₁.isLt
  have h₂ := b₂.isLt
  have h₃ := b₃.isLt
  simp only [word32, BitVec.toNat_ofNat, toNat_cons, toNat_nil]
  omega

/-- The bytes of a 32-bit word are its octets. -/
theorem getElem?_ofNat_word {v : BitVec 32} {i : ℕ} (h : i < 4) :
    (ofNat 4 v.toNat)[i]? = some (v.extractLsb' (8 * i) 8) := by
  have hpow : 256 ^ i = 2 ^ (8 * i) := (pow_mul 2 8 i).symm
  rw [getElem?_ofNat h, hpow, ← Nat.shiftRight_eq_div_pow]
  rfl

theorem extractLsb'_word32 (b₀ b₁ b₂ b₃ : BitVec 8) {i : ℕ} (h : i < 4) :
    [b₀, b₁, b₂, b₃][i]? = some ((word32 b₀ b₁ b₂ b₃).extractLsb' (8 * i) 8) := by
  rw [← getElem?_ofNat_word h, word32_toNat]
  exact congrArg (·[i]?) (ofNat_toNat [b₀, b₁, b₂, b₃]).symm

theorem getLsbD_word64 {bs : List (BitVec 8)} {i : ℕ} (hi : i < 64) :
    (word64 bs).getLsbD i = (bs[i / 8]?.getD 0#8).getLsbD (i % 8) := by
  rw [word64, BitVec.getLsbD_ofNat, testBit_toNat, decide_eq_true hi, Bool.true_and]

/-- A shifted byte below which nothing is set adds up. -/
private theorem or_shift {x y k : ℕ} (hx : x < 2 ^ k) : x ||| y <<< k = x + 2 ^ k * y := by
  rw [Nat.or_comm, ← Nat.shiftLeft_add_eq_or_of_lt hx, Nat.shiftLeft_eq]
  ring

/-- Two bytes assembled with shifts. -/
theorem or_word16 (b₀ b₁ : BitVec 8) :
    b₀.setWidth 16 ||| b₁.setWidth 16 <<< 8 = word16 b₀ b₁ := by
  have h₀ := b₀.isLt
  have h₁ := b₁.isLt
  apply BitVec.eq_of_toNat_eq
  rw [word16_toNat]
  simp only [BitVec.toNat_or, BitVec.toNat_shiftLeft, BitVec.toNat_setWidth, toNat_cons, toNat_nil]
  rw [Nat.mod_eq_of_lt (a := b₀.toNat) (by omega), Nat.mod_eq_of_lt (a := b₁.toNat) (by omega),
    Nat.shiftLeft_eq, Nat.mod_eq_of_lt (by omega), ← Nat.shiftLeft_eq, or_shift h₀]
  omega

/-- Four bytes assembled with shifts. -/
theorem or_word32 (b₀ b₁ b₂ b₃ : BitVec 8) :
    b₀.setWidth 32 ||| b₁.setWidth 32 <<< 8 ||| b₂.setWidth 32 <<< 16 ||| b₃.setWidth 32 <<< 24 =
      word32 b₀ b₁ b₂ b₃ := by
  have h₀ := b₀.isLt
  have h₁ := b₁.isLt
  have h₂ := b₂.isLt
  have h₃ := b₃.isLt
  apply BitVec.eq_of_toNat_eq
  rw [word32_toNat]
  simp only [BitVec.toNat_or, BitVec.toNat_shiftLeft, BitVec.toNat_setWidth, toNat_cons, toNat_nil]
  have shifted : ∀ (b : BitVec 8) (k : ℕ), k ≤ 24 → (b.toNat % 2 ^ 32) <<< k % 2 ^ 32 = b.toNat <<< k := by
    intro b k hk
    have hb := b.isLt
    have hp : 2 ^ k ≤ 2 ^ 24 := Nat.pow_le_pow_right (by decide) hk
    have hmul : b.toNat * 2 ^ k ≤ 255 * 2 ^ 24 := Nat.mul_le_mul (by omega) hp
    rw [Nat.mod_eq_of_lt (a := b.toNat) (by omega), Nat.shiftLeft_eq, Nat.mod_eq_of_lt (by omega)]
  rw [shifted b₁ 8 (by decide), shifted b₂ 16 (by decide), shifted b₃ 24 (by decide),
    Nat.mod_eq_of_lt (a := b₀.toNat) (by omega), or_shift (k := 8) h₀, or_shift (k := 16) (by omega),
    or_shift (k := 24) (by omega)]
  ring

end OpenvmSim.LittleEndian
