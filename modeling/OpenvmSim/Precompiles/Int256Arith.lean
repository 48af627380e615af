import Mathlib.Algebra.BigOperators.Group.Finset.Basic
import Mathlib.Algebra.BigOperators.Group.Finset.Piecewise
import Mathlib.Data.Nat.ModEq
import Mathlib.Tactic.LinearCombination
import OpenvmSim.Base.Panic
import OpenvmSim.Precompiles.Int256

/-! The 256-bit sum, difference and product.

Each loop goes from the lowest byte up. What it has written so far is right up to a carry,
and the carry is small, so that no intermediate of the loop overflows its type. -/
namespace OpenvmSim.Precompiles.Int256

/-! ### Prefixes of a number -/

/-- The number the `i` lowest bytes stand for. -/
def low (v : U256) (i : ℕ) : ℕ := LittleEndian.toNat (v.toList.take i)

def value (v : U256) : ℕ := LittleEndian.toNat v.toList

section Low
variable (v : U256) (x : BitVec 8) {i : ℕ}

@[simp] theorem low_zero : low v 0 = 0 := rfl

theorem low_eq_value : low v 32 = value v := by
  rw [low, List.take_of_length_le (by rw [Vector.length_toList]), value]

theorem low_succ (hi : i < 32) : low v (i + 1) = low v i + 256 ^ i * v[i].toNat := by
  have hlen : i < v.toList.length := by rwa [Vector.length_toList]
  rw [low, low, ← List.take_append_getElem hlen, LittleEndian.toNat_append, List.length_take,
    Nat.min_eq_left hlen.le, LittleEndian.toNat_cons, LittleEndian.toNat_nil, mul_zero, add_zero,
    Vector.getElem_toList]

theorem low_set (hi : i < 32) : low (v.set i x) i = low v i := by
  rw [low, low, Vector.toList_set, List.take_set_of_le le_rfl]

theorem low_set_succ (hi : i < 32) :
    low (v.set i x) (i + 1) = low v i + 256 ^ i * x.toNat := by
  rw [low_succ _ hi, low_set v x hi, Vector.getElem_set_self]

end Low

/-- A digit and its carry. -/
theorem digit_add_carry (i v : ℕ) :
    256 ^ i * (v % 2 ^ 8) + 256 ^ (i + 1) * (v / 256) = 256 ^ i * v := by
  have hdiv : v % 2 ^ 8 + 256 * (v / 256) = v := Nat.mod_add_div v 256
  rw [pow_succ 256 i, mul_assoc, ← mul_add, hdiv]

theorem value_lt (v : U256) : value v < 256 ^ 32 := by
  have h := LittleEndian.toNat_lt v.toList
  rwa [Vector.length_toList] at h

/-- What is left of a number after its lowest bytes. -/
theorem value_eq_low_add (v : U256) {i : ℕ} (hi : i ≤ 32) :
    ∃ rest, value v = low v i + 256 ^ i * rest := by
  refine ⟨LittleEndian.toNat (v.toList.drop i), ?_⟩
  have hsplit := LittleEndian.toNat_append (v.toList.take i) (v.toList.drop i)
  rwa [List.take_append_drop, List.length_take, Vector.length_toList, Nat.min_eq_left hi] at hsplit

section Loops
variable (host : Host) (a b : U256)

/-! ### The sum -/

/-- What holds before byte `i` of a sum is written. -/
def AddInv (a b : U256) (i : ℕ) (t : U256 × ℕ) : Prop :=
  low t.1 i + 256 ^ i * t.2 = low a i + low b i ∧ t.2 ≤ 1

theorem add_eq : ∃ r, add host a b = .ok r ∧ value r = (value a + value b) % 256 ^ 32 := by
  have hloop := forRange_ok (AddInv a b) (s := (Vector.replicate 32 0#8, 0))
    (fun (i : ℕ) (_ : i < 32) t => do
      let s ← addUnsigned host 16 a[i].toNat b[i].toNat
      let s ← addUnsigned host 16 s t.2
      pure (t.1.set i (BitVec.ofNat 8 s), s / 256)) ⟨by simp, by simp⟩ ?_
  · obtain ⟨⟨r, carry⟩, hrun, hsum, hcarry⟩ := hloop
    have hadd : add host a b = .ok r :=
      congrArg (fun x : Calc (U256 × ℕ) => x >>= fun t => Except.ok t.1) hrun
    refine ⟨r, hadd, ?_⟩
    rw [low_eq_value, low_eq_value, low_eq_value] at hsum
    rw [← hsum, Nat.add_mul_mod_self_left, Nat.mod_eq_of_lt (value_lt r)]
  · rintro i hi ⟨r, carry⟩ ⟨hsum, hcarry⟩
    have ha := a[i].isLt
    have hb := b[i].isLt
    have hle : a[i].toNat + b[i].toNat + carry < 2 ^ 16 := by
      simp only at hcarry
      omega
    refine ⟨(r.set i (BitVec.ofNat 8 (a[i].toNat + b[i].toNat + carry)),
      (a[i].toNat + b[i].toNat + carry) / 256), ?_, ?_, ?_⟩
    · rw [addUnsigned_of_lt (by omega)]
      simp only [ok_bind]
      rw [addUnsigned_of_lt hle]
      rfl
    · have hdigit := digit_add_carry i (a[i].toNat + b[i].toNat + carry)
      rw [mul_add, mul_add] at hdigit
      rw [low_set_succ r _ hi, low_succ a hi, low_succ b hi, BitVec.toNat_ofNat]
      simp only at hsum ⊢
      omega
    · simp only at hcarry ⊢
      omega

/-! ### The difference -/

theorem toI16_of_mem {v : ℤ} (h : -2 ^ 15 ≤ v ∧ v < 2 ^ 15) : toI16 host v = .ok v := if_pos h

/-- What holds before byte `i` of a difference is written. -/
def SubInv (a b : U256) (i : ℕ) (t : U256 × ℤ) : Prop :=
  (low t.1 i : ℤ) = low a i - low b i + 256 ^ i * t.2 ∧ 0 ≤ t.2 ∧ t.2 ≤ 1

/-- The next prefix when the byte is the difference `s` plus `256` times the new borrow. -/
theorem SubInv.step {i : ℕ} (hi : i < 32) {r : U256} {borrow s new : ℤ}
    (h : SubInv a b i (r, borrow)) (hs : s = a[i].toNat - b[i].toNat - borrow + 256 * new)
    (hnew : 0 ≤ new ∧ new ≤ 1) (h0 : 0 ≤ s) (h1 : s < 256) :
    SubInv a b (i + 1) (r.set i (BitVec.ofInt 8 s), new) := by
  obtain ⟨hsum, -⟩ := h
  refine ⟨?_, hnew⟩
  have hbyte : ((BitVec.ofInt 8 s).toNat : ℤ) = s := by
    rw [BitVec.toNat_ofInt]
    omega
  simp only at hsum ⊢
  rw [low_set_succ r _ hi, low_succ a hi, low_succ b hi]
  push_cast
  rw [hbyte, hsum, hs]
  ring

/-- The loop of `sub`, with the borrow that is left after the last byte. -/
def subLoop (host : Host) (a b : U256) : Calc (U256 × ℤ) :=
  forRange 32 (fun i _ (r, borrow) => do
    let s ← toI16 host (a[i].toNat - b[i].toNat)
    let s ← toI16 host (s - borrow)
    if s < 0 then do
      let s ← toI16 host (s + 256)
      pure (r.set i (BitVec.ofInt 8 s), 1)
    else pure (r.set i (BitVec.ofInt 8 s), 0)) (Vector.replicate 32 0#8, (0 : ℤ))

theorem sub_of_loop {r : U256} {borrow : ℤ} (h : subLoop host a b = .ok (r, borrow)) :
    sub host a b = .ok r :=
  congrArg (fun x : Calc (U256 × ℤ) => x >>= fun t => Except.ok t.1) h

theorem subLoop_ok : ∃ t, subLoop host a b = .ok t ∧ SubInv a b 32 t := by
  refine forRange_ok (SubInv a b) _ ⟨by simp, by simp⟩ ?_
  rintro i hi ⟨r, borrow⟩ hinv
  have ha := a[i].isLt
  have hb := b[i].isLt
  obtain ⟨-, h0, h1⟩ := id hinv
  simp only at h0 h1
  simp only [toI16_of_mem host (v := a[i].toNat - b[i].toNat) (by omega), ok_bind,
    toI16_of_mem host (v := a[i].toNat - b[i].toNat - borrow) (by omega)]
  by_cases hneg : (a[i].toNat : ℤ) - b[i].toNat - borrow < 0
  · rw [if_pos hneg, toI16_of_mem host (by omega)]
    exact ⟨_, rfl, hinv.step a b hi (by ring) (by omega) (by omega) (by omega)⟩
  · rw [if_neg hneg]
    exact ⟨_, rfl, hinv.step a b hi (by ring) (by omega) (by omega) (by omega)⟩

/-- The difference is short by the last borrow. -/
theorem SubInv.last {r : U256} {borrow : ℤ} (h : SubInv a b 32 (r, borrow)) :
    (value r : ℤ) = value a - value b + 256 ^ 32 * borrow ∧ 0 ≤ borrow ∧ borrow ≤ 1 := by
  obtain ⟨hsum, hborrow⟩ := h
  rw [low_eq_value, low_eq_value, low_eq_value] at hsum
  exact ⟨hsum, hborrow⟩

theorem sub_eq : ∃ r, sub host a b = .ok r ∧
    (value r : ℤ) = ((value a : ℤ) - value b) % 256 ^ 32 := by
  obtain ⟨⟨r, borrow⟩, hrun, hinv⟩ := subLoop_ok host a b
  have hlt : (value r : ℤ) < 256 ^ 32 := by exact_mod_cast value_lt r
  refine ⟨r, sub_of_loop host a b hrun, ?_⟩
  rw [← Int.emod_eq_of_lt (Int.natCast_nonneg _) hlt, (hinv.last a b).1,
    Int.add_mul_emod_self_left]

/-! ### The product -/

/-- The number the `i` lowest columns stand for. -/
def columns (r : Vector ℕ 32) (i : ℕ) : ℕ := ∑ k ∈ Finset.range i, r[k]?.getD 0 * 256 ^ k

theorem columns_succ (r : Vector ℕ 32) {i : ℕ} (hi : i < 32) :
    columns r (i + 1) = columns r i + 256 ^ i * r[i] := by
  rw [columns, Finset.sum_range_succ, Vector.getElem?_eq_getElem hi, mul_comm (256 ^ i)]
  rfl

/-- Adding to one column. -/
theorem columns_set (r : Vector ℕ 32) {k : ℕ} (hk : k < 32) (t : ℕ) :
    columns (r.set k (r[k] + t)) 32 = columns r 32 + 256 ^ k * t := by
  have hterm : ∀ j, (r.set k (r[k] + t))[j]?.getD 0 * 256 ^ j =
      r[j]?.getD 0 * 256 ^ j + if k = j then 256 ^ k * t else 0 := by
    intro j
    rw [Vector.getElem?_set]
    split
    · next h =>
      subst h
      rw [Vector.getElem?_eq_getElem hk, Option.getD_some, Option.getD_some]
      ring
    · rw [add_zero]
  rw [columns, Finset.sum_congr rfl fun j _ => hterm j, Finset.sum_add_distrib,
    Finset.sum_ite_eq, if_pos (Finset.mem_range.mpr hk)]
  rfl

/-- The largest product of two bytes. -/
def maxProduct : ℕ := 255 * 255

/-- What holds before row `i` of a product is added: every row has added at most one byte
product to each column, and the columns stand for the product of what has been read of `a`
with `b`. -/
def RowInv (a b : U256) (i : ℕ) (r : Vector ℕ 32) : Prop :=
  (∀ k (hk : k < 32), r[k] ≤ i * maxProduct) ∧
    columns r 32 ≡ low a i * value b [MOD 256 ^ 32]

/-- What holds before byte `j` of row `i`, which began with the columns `r₀`. -/
def CellInv (b : U256) (r₀ : Vector ℕ 32) (i : ℕ) (byte : BitVec 8) (j : ℕ) (r : Vector ℕ 32) :
    Prop :=
  (∀ k (hk : k < 32), r[k] ≤ (if k < i + j then i + 1 else i) * maxProduct) ∧
    columns r 32 = columns r₀ 32 + 256 ^ i * byte.toNat * low b j

theorem byteProduct_le (x y : BitVec 8) : x.toNat * y.toNat ≤ maxProduct :=
  Nat.mul_le_mul (Nat.le_of_lt_succ x.isLt) (Nat.le_of_lt_succ y.isLt)

theorem CellInv.step {b : U256} {r₀ r : Vector ℕ 32} {i j : ℕ} {byte : BitVec 8} (hj : i + j < 32)
    (h : CellInv b r₀ i byte j r) :
    CellInv b r₀ i byte (j + 1) (r.set (i + j) (r[i + j] + byte.toNat * b[j].toNat)) := by
  obtain ⟨hbound, hsum⟩ := h
  refine ⟨fun k hk => ?_, ?_⟩
  · have hcell := hbound (i + j) hj
    have hprod := byteProduct_le byte b[j]
    rw [if_neg (Nat.lt_irrefl _)] at hcell
    rw [Vector.getElem_set]
    split
    · next hkj =>
      rw [if_pos (by omega), add_one_mul]
      exact Nat.add_le_add hcell hprod
    · next hkj =>
      refine (hbound k hk).trans (Nat.mul_le_mul_right _ ?_)
      split
      · rw [if_pos (by omega)]
      · split
        · exact Nat.le_succ i
        · exact le_rfl
  · rw [columns_set r hj, hsum, low_succ b (by omega), pow_add]
    ring

/-- The part of a row that lies above the columns is a multiple of the whole. -/
theorem row_modEq {w m x prev left right lower rest : ℕ} (h : prev ≡ left * right [MOD w * m])
    (hright : right = lower + m * rest) :
    prev + w * x * lower ≡ (left + w * x) * right [MOD w * m] := by
  have hsplit : (left + w * x) * right = left * right + w * x * lower + w * m * (x * rest) := by
    rw [add_mul]
    conv_lhs =>
      enter [2]
      rw [hright]
    ring
  rw [hsplit]
  exact (h.add_right _).trans (Nat.add_modEq_left_iff.mpr (dvd_mul_right _ _)).symm

/-- One row. -/
theorem mulRow_ok {i : ℕ} (hi : i ≤ 31) {r₀ : Vector ℕ 32} (h : RowInv a b i r₀) :
    ∃ r, forRange (32 - i) (fun j _ r => do
      let t ← mulUnsigned host 32 a[i].toNat b[j].toNat
      let t ← addUnsigned host 32 r[i + j] t
      pure (r.set (i + j) t)) r₀ = .ok r ∧ RowInv a b (i + 1) r := by
  obtain ⟨hbound, hmod⟩ := h
  have hrow := forRange_ok (CellInv b r₀ i a[i]) (s := r₀)
    (fun (j : ℕ) (_ : j < 32 - i) r => do
      let t ← mulUnsigned host 32 a[i].toNat b[j].toNat
      let t ← addUnsigned host 32 r[i + j] t
      pure (r.set (i + j) t)) ?_ ?_
  · obtain ⟨r, hrun, hcells, hsum⟩ := hrow
    refine ⟨r, hrun, fun k hk => ?_, ?_⟩
    · have hcell := hcells k hk
      rwa [if_pos (by omega)] at hcell
    · obtain ⟨rest, hrest⟩ := value_eq_low_add b (i := 32 - i) (by omega)
      have hpow : (256 : ℕ) ^ 32 = 256 ^ i * 256 ^ (32 - i) := by
        rw [← pow_add, Nat.add_sub_cancel' (hi.trans (by decide))]
      rw [hpow] at hmod ⊢
      rw [hsum, low_succ a (Nat.lt_succ_of_le hi)]
      exact row_modEq hmod hrest
  · refine ⟨fun k hk => (hbound k hk).trans (Nat.mul_le_mul_right _ ?_), by simp⟩
    split
    · exact Nat.le_succ i
    · exact le_rfl
  · intro j hj r hinv
    have hcell := hinv.1 (i + j) (by omega)
    have hprod := byteProduct_le a[i] b[j]
    rw [if_neg (Nat.lt_irrefl _), maxProduct] at hcell
    rw [maxProduct] at hprod
    refine ⟨_, ?_, hinv.step (by omega)⟩
    rw [mulUnsigned_of_lt (by omega)]
    simp only [ok_bind]
    rw [addUnsigned_of_lt (by omega)]
    rfl

/-- What holds before byte `i` of a product is written from its columns. -/
def CarryInv (r : Vector ℕ 32) (i : ℕ) (t : U256 × ℕ) : Prop :=
  low t.1 i + 256 ^ i * t.2 = columns r i ∧ t.2 < 2 ^ 16

theorem columns_zero : columns (Vector.replicate 32 0) 32 = 0 := by
  refine Finset.sum_eq_zero fun k hk => ?_
  rw [Vector.getElem?_replicate, if_pos (Finset.mem_range.mp hk), Option.getD_some, zero_mul]

theorem mul_eq : ∃ r, mul host a b = .ok r ∧ value r = value a * value b % 256 ^ 32 := by
  obtain ⟨r, hrows, hbound, hmod⟩ := forRange_ok (RowInv a b) (s := Vector.replicate 32 0)
    (fun (i : ℕ) (hi : i < 32) r => forRange (32 - i) (fun j _ r => do
      let t ← mulUnsigned host 32 a[i].toNat b[j].toNat
      let t ← addUnsigned host 32 r[i + j] t
      pure (r.set (i + j) t)) r) ⟨by simp, by rw [columns_zero, low_zero, zero_mul]⟩
    fun i hi r hinv => mulRow_ok host a b (Nat.le_of_lt_succ hi) hinv
  have hcarry := forRange_ok (CarryInv r) (s := (Vector.replicate 32 0#8, 0))
    (fun (i : ℕ) (_ : i < 32) t => do
      let v ← addUnsigned host 32 r[i] t.2
      pure (t.1.set i (BitVec.ofNat 8 v), v / 256)) ⟨by simp [columns], by simp⟩ ?_
  · obtain ⟨⟨out, carry⟩, hrun, hsum, -⟩ := hcarry
    have hmul : mul host a b = .ok out := by
      unfold mul
      rw [hrows]
      exact congrArg (fun x : Calc (U256 × ℕ) => x >>= fun t => Except.ok t.1) hrun
    refine ⟨out, hmul, ?_⟩
    rw [low_eq_value] at hsum hmod
    rw [← hmod, ← hsum, Nat.add_mul_mod_self_left, Nat.mod_eq_of_lt (value_lt out)]
  · rintro i hi ⟨out, carry⟩ ⟨hsum, hlt⟩
    have hcell := hbound i hi
    rw [maxProduct] at hcell
    simp only at hlt
    refine ⟨(out.set i (BitVec.ofNat 8 (r[i] + carry)), (r[i] + carry) / 256), ?_, ?_, ?_⟩
    · rw [addUnsigned_of_lt (by omega)]
      rfl
    · have hdigit := digit_add_carry i (r[i] + carry)
      rw [mul_add] at hdigit
      rw [low_set_succ out _ hi, columns_succ r hi, BitVec.toNat_ofNat]
      simp only at hsum ⊢
      omega
    · simp only
      omega

end Loops

end OpenvmSim.Precompiles.Int256
