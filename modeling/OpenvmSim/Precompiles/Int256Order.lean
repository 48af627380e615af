import OpenvmSim.Precompiles.Int256Shift

/-! The 256-bit comparisons.

`cmpUnsigned` scans from the highest byte down and `sub` borrows from the lowest byte up. Both
decide the order of the two numbers: the comparison is that of the values, and the last borrow
is one when the subtrahend is the larger. -/
namespace OpenvmSim.Precompiles
open Rv32im

namespace Int256

/-- The result of SLTU. -/
def sltu (a b : U256) : U256 := boolToU256 (cmpUnsigned a b == .lt)

/-- The result of SLT. -/
def slt (a b : U256) : U256 := boolToU256 (cmpSigned a b == .lt)

theorem value_boolToU256 (c : Bool) : value (boolToU256 c) = if c then 1 else 0 := by
  cases c
  · decide
  · decide

section Compare
variable (a b : U256)

theorem low_lt {i : ℕ} (hi : i ≤ 32) : low a i < 256 ^ i := by
  have h := LittleEndian.toNat_lt (a.toList.take i)
  rwa [List.length_take, Vector.length_toList, Nat.min_eq_left hi] at h

/-- A higher digit decides. -/
theorem add_mul_lt {m x y d e : ℕ} (hx : x < m) (hde : d < e) : x + m * d < y + m * e := by
  have hmul : m * d + m ≤ m * e := by
    rw [← Nat.mul_succ]
    exact Nat.mul_le_mul_left m hde
  omega

theorem compare_add_right (x y c : ℕ) : compare (x + c) (y + c) = compare x y := by
  rcases Nat.lt_trichotomy x y with hlt | rfl | hgt
  · rw [compare_lt_iff_lt.mpr hlt, compare_lt_iff_lt.mpr (Nat.add_lt_add_right hlt c)]
  · rw [compare_eq_iff_eq.mpr rfl, compare_eq_iff_eq.mpr rfl]
  · rw [compare_gt_iff_gt.mpr hgt, compare_gt_iff_gt.mpr (Nat.add_lt_add_right hgt c)]

/-- The `n` lowest bytes are compared as the numbers they stand for. -/
theorem cmpBelow_eq {n : ℕ} (hn : n ≤ 32) : cmpBelow a b n hn = compare (low a n) (low b n) := by
  induction n with
  | zero => rfl
  | succ n ih =>
    have ha := low_lt a (Nat.le_of_succ_le hn)
    have hb := low_lt b (Nat.le_of_succ_le hn)
    rw [cmpBelow, low_succ a hn, low_succ b hn]
    rcases Nat.lt_trichotomy a[n].toNat b[n].toNat with hlt | heq | hgt
    · rw [compare_lt_iff_lt.mpr hlt, compare_lt_iff_lt.mpr (add_mul_lt ha hlt)]
    · rw [compare_eq_iff_eq.mpr heq, ih, heq]
      exact (compare_add_right _ _ _).symm
    · rw [compare_gt_iff_gt.mpr hgt, compare_gt_iff_gt.mpr (add_mul_lt hb hgt)]

theorem cmpUnsigned_eq : cmpUnsigned a b = compare (value a) (value b) := by
  rw [cmpUnsigned, cmpBelow_eq, low_eq_value, low_eq_value]

/-- A number is negative when its highest bit is set. -/
theorem sign_iff (h : 31 < 32) : (a[31] &&& 0x80#8 ≠ 0#8) ↔ 2 ^ 255 ≤ value a := by
  rw [sign_eq a h, BitVec.msb_eq_decide, toNat_bits, decide_eq_true_iff]

theorem cmpSigned_lt_iff : cmpSigned a b = .lt ↔ signed (value a) < signed (value b) := by
  have ha := value_lt_two_pow a
  have hb := value_lt_two_pow b
  unfold cmpSigned signed
  simp only [sign_iff, cmpUnsigned_eq]
  by_cases hna : 2 ^ 255 ≤ value a
  · by_cases hnb : 2 ^ 255 ≤ value b
    · rw [if_neg (fun h => h.2 hnb), if_neg (fun h => h.1 hna), if_neg (Nat.not_lt.mpr hna),
        if_neg (Nat.not_lt.mpr hnb), compare_lt_iff_lt]
      omega
    · rw [if_pos ⟨hna, hnb⟩, if_neg (Nat.not_lt.mpr hna), if_pos (Nat.lt_of_not_le hnb)]
      exact iff_of_true rfl (by omega)
  · by_cases hnb : 2 ^ 255 ≤ value b
    · rw [if_neg (fun h => hna h.1), if_pos ⟨hna, hnb⟩, if_pos (Nat.lt_of_not_le hna),
        if_neg (Nat.not_lt.mpr hnb)]
      exact iff_of_false (by decide) (by omega)
    · rw [if_neg (fun h => hna h.1), if_neg (fun h => hnb h.2), if_pos (Nat.lt_of_not_le hna),
        if_pos (Nat.lt_of_not_le hnb), compare_lt_iff_lt]
      omega

theorem value_sltu : value (sltu a b) = if value a < value b then 1 else 0 := by
  rw [sltu, value_boolToU256, cmpUnsigned_eq]
  exact if_congr (by rw [beq_iff_eq, compare_lt_iff_lt]) rfl rfl

theorem value_slt : value (slt a b) = if signed (value a) < signed (value b) then 1 else 0 := by
  rw [slt, value_boolToU256]
  exact if_congr (by rw [beq_iff_eq, cmpSigned_lt_iff]) rfl rfl

end Compare

/-! ### The order and the subtractor -/

/-- The unsigned order, the last borrow of the subtractor and the test for equality agree. -/
structure OrderAgrees (host : Host) (a b : U256) (diff : U256) (borrow : ℤ) : Prop where
  loop : subLoop host a b = .ok (diff, borrow)
  sub : sub host a b = .ok diff
  borrow_iff : value (sltu a b) = 1 ↔ borrow = 1
  eq_iff_sltu : a = b ↔ value (sltu a b) = 0 ∧ value (sltu b a) = 0
  eq_iff_sub : a = b ↔ value diff = 0

theorem orderAgrees (host : Host) (a b : U256) :
    ∃ diff borrow, OrderAgrees host a b diff borrow := by
  obtain ⟨⟨diff, borrow⟩, hrun, hinv⟩ := subLoop_ok host a b
  obtain ⟨hdiff, h0, h1⟩ := hinv.last a b
  have hlt := value_lt diff
  have ha := value_lt a
  have hb := value_lt b
  have heq : a = b ↔ value a = value b := ⟨congrArg value, value_injective⟩
  have hborrow : borrow = 0 ∨ borrow = 1 := by omega
  refine ⟨diff, borrow, hrun, sub_of_loop host a b hrun, ?_, ?_, ?_⟩
  · rw [value_sltu, ite_eq_left_iff]
    rcases hborrow with rfl | rfl
    · omega
    · omega
  · rw [heq, value_sltu, value_sltu, ite_eq_right_iff, ite_eq_right_iff]
    omega
  · rw [heq]
    rcases hborrow with rfl | rfl
    · omega
    · omega

end Int256

/-! ### The words -/

section Words
variable (host : Host) (insn : Word) (s : Machine)

/-- The comparison words store the flag of the order, and the test of BEQ256 is the equality
that the order and the subtractor decide. -/
structure Int256Order : Prop where
  sltu : IsCustom0 insn F3_INT256 → funct7 insn = INT256_SLTU →
    Writes host insn s 32 (if leftOperand insn s 32 < rightOperand insn s 32 then 1 else 0)
  slt : IsCustom0 insn F3_INT256 → funct7 insn = INT256_SLT → Writes host insn s 32
    (if Int256.signed (leftOperand insn s 32) < Int256.signed (rightOperand insn s 32) then 1
      else 0)
  beq : IsBeq256 insn → Calls host insn (handleBeq256 insn) ∧ (handleBeq256 insn).run s =
    .ok () (s.setPc (if leftU256 insn s = rightU256 insn s then s.cpu.pc + immB insn
      else s.cpu.pc + 4#32))
  agrees : ∀ a b : U256, ∃ diff borrow, Int256.OrderAgrees host a b diff borrow

theorem int256_order : Int256Order host insn s := by
  refine ⟨fun h0 hop => ?_, fun h0 hop => ?_, fun hb => ⟨calls_beq256 hb, rfl⟩,
    Int256.orderAgrees host⟩
  · have hvalue := Int256.value_sltu (leftU256 insn s) (rightU256 insn s)
    rw [value_leftU256, value_rightU256] at hvalue
    refine writes_of_yields (int256_yields h0 ?_) hvalue
    rw [hop]
    rfl
  · have hvalue := Int256.value_slt (leftU256 insn s) (rightU256 insn s)
    rw [value_leftU256, value_rightU256] at hvalue
    refine writes_of_yields (int256_yields h0 ?_) hvalue
    rw [hop]
    rfl

end Words

/-- INT256 SLT of the operand at address zero and the one at `[x1]`. -/
def int256SltWord : Word := INT256_SLT <<< 25 ||| 1#32 <<< 20 ||| F3_INT256 <<< 12 |||
  OPCODE_CUSTOM_0

theorem int256_order_negative : Writes Host.constant int256SltWord negativeMachine 32 1 := by
  have h := (int256_order Host.constant int256SltWord negativeMachine).slt (by decide) (by decide)
  have hleft : leftOperand int256SltWord negativeMachine 32 = 2 ^ 255 := by decide
  have hright : rightOperand int256SltWord negativeMachine 32 = 9 := by decide
  rw [hleft, hright, if_pos (by decide)] at h
  exact h

end OpenvmSim.Precompiles
