import Mathlib.Data.List.Basic
import Mathlib.Tactic.IntervalCases

/-! Bytes as hexadecimal text.

A byte is written with two digits. Text that is written in lines, each with something in front
of an `x` and the digits of a part of the bytes behind it, is read back as the bytes
(`readLines_lines`). -/
namespace OpenvmSim.HexText

/-! ### Digits -/

/-- The value of a digit, in lower case. -/
def digitValue (c : Char) : ℕ := if c.isDigit then c.toNat - 48 else c.toNat - 87

theorem digitValue_digitChar {d : ℕ} (h : d < 16) : digitValue (Nat.digitChar d) = d := by
  interval_cases d <;> decide

/-- No digit is the end of a line. -/
theorem digitChar_ne_newline {d : ℕ} (h : d < 16) : Nat.digitChar d ≠ '\n' := by
  interval_cases d <;> decide

/-- `{:02x}` -/
def byteText (b : BitVec 8) : List Char :=
  [Nat.digitChar (b.toNat / 16), Nat.digitChar (b.toNat % 16)]

def bytesText (bs : List (BitVec 8)) : List Char := bs.flatMap byteText

/-- The byte of two digits. -/
def byteValue (high low : Char) : BitVec 8 := BitVec.ofNat 8 (16 * digitValue high + digitValue low)

theorem byteValue_byteText (b : BitVec 8) :
    byteValue (Nat.digitChar (b.toNat / 16)) (Nat.digitChar (b.toNat % 16)) = b := by
  have hlt := b.isLt
  have hhigh : b.toNat / 16 < 16 := by omega
  have hlow : b.toNat % 16 < 16 := Nat.mod_lt _ (by decide)
  rw [byteValue, digitValue_digitChar hhigh, digitValue_digitChar hlow, Nat.div_add_mod,
    BitVec.ofNat_toNat, BitVec.setWidth_eq]

/-! ### Reading -/

/-- The bytes of a text: digits in pairs up to the end of a line, and then those behind the
next `x`. -/
def readLines : Bool → List Char → List (BitVec 8)
  | _, [] => []
  | false, c :: cs => readLines (c == 'x') cs
  | true, '\n' :: cs => readLines false cs
  | true, high :: low :: cs => byteValue high low :: readLines true cs
  | true, [_] => []

theorem readLines_newline (cs : List Char) : readLines true ('\n' :: cs) = readLines false cs := by
  cases cs <;> rfl

theorem readLines_byte (b : BitVec 8) (cs : List Char) :
    readLines true (byteText b ++ cs) = b :: readLines true cs := by
  have hne : Nat.digitChar (b.toNat / 16) ≠ '\n' := digitChar_ne_newline (by have := b.isLt; omega)
  rw [byteText, List.cons_append, List.cons_append, List.nil_append, readLines,
    byteValue_byteText]
  exact hne

theorem readLines_bytes (bs : List (BitVec 8)) (cs : List Char) :
    readLines true (bytesText bs ++ cs) = bs ++ readLines true cs := by
  induction bs with
  | nil => rfl
  | cons b bs ih =>
    rw [bytesText, List.flatMap_cons, List.append_assoc, readLines_byte, List.cons_append]
    exact congrArg _ ih

/-- What is in front of the first `x` of a line is skipped. -/
theorem readLines_skip {label : List Char} (h : 'x' ∉ label) (cs : List Char) :
    readLines false (label ++ 'x' :: cs) = readLines true cs := by
  induction label with
  | nil => rfl
  | cons c label ih =>
    obtain ⟨hc, hlabel⟩ := not_or.mp (mt List.mem_cons.mpr h)
    rw [List.cons_append, readLines, beq_eq_false_iff_ne.mpr (Ne.symm hc)]
    exact ih hlabel

/-! ### Lines -/

/-- A line with a label. -/
def line (label : List Char) (bs : List (BitVec 8)) : List Char :=
  label ++ 'x' :: (bytesText bs ++ ['\n'])

theorem readLines_line {label : List Char} (h : 'x' ∉ label) (bs : List (BitVec 8))
    (cs : List Char) : readLines false (line label bs ++ cs) = bs ++ readLines false cs := by
  rw [line, List.append_assoc, List.cons_append, readLines_skip h, List.append_assoc,
    readLines_bytes]
  exact congrArg _ (readLines_newline cs)

/-- Lines are read as the bytes in them. -/
theorem readLines_lines {ι : Type} {label : ι → List Char} (h : ∀ i, 'x' ∉ label i)
    (part : ι → List (BitVec 8)) (is : List ι) :
    readLines false (is.flatMap fun i => line (label i) (part i)) = is.flatMap part := by
  induction is with
  | nil => rfl
  | cons i is ih => rw [List.flatMap_cons, readLines_line (h i), ih, List.flatMap_cons]

/-! ### Parts of a list -/

/-- The parts of length `n` of a list, of which the last may be shorter. -/
def chunk {α : Type} (n : ℕ) (l : List α) (i : ℕ) : List α := (l.drop (n * i)).take n

theorem flatMap_chunk {α : Type} (n : ℕ) (l : List α) (k : ℕ) :
    (List.range k).flatMap (chunk n l) = l.take (n * k) := by
  induction k with
  | zero => rw [Nat.mul_zero, List.take_zero, List.range_zero, List.flatMap_nil]
  | succ k ih =>
    rw [List.range_succ, List.flatMap_append, ih, List.flatMap_singleton, Nat.mul_succ,
      List.take_add, chunk]

end OpenvmSim.HexText
