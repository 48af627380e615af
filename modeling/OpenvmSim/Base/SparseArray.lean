import Mathlib.Data.List.Basic
import Mathlib.Order.Lattice
import OpenvmSim.Base.Loop

/-! Sparse arrays.

An array that a write grows as far as it reaches, with zeros in front of it if it starts
behind the end. After any list of writes the array ends where the furthest write ends
(`length_puts`), and a cell is what the last write that covers it put there
(`getD_puts_last`), or what it was (`getD_puts_of_not_covers`). A cell behind the end reads
as zero. -/
namespace OpenvmSim.Sparse
variable {α : Type}

/-- At least `n` cells, the new ones zero. -/
def grow (zero : α) (cells : List α) (n : ℕ) : List α :=
  cells ++ List.replicate (n - cells.length) zero

/-- Grow the array up to the end of the write, then overwrite. -/
def put (zero : α) (cells : List α) (offset : ℕ) (bs : List α) : List α :=
  let last := offset + bs.length
  let grown := grow zero cells last
  grown.take offset ++ bs ++ grown.drop last

/-- The writes one after the other. -/
def puts (zero : α) (cells : List α) (writes : List (ℕ × List α)) : List α :=
  writes.foldl (fun cells w => put zero cells w.1 w.2) cells

/-- The cells a write reaches. -/
def Covers (w : ℕ × List α) (i : ℕ) : Prop := w.1 ≤ i ∧ i < w.1 + w.2.length

/-- Where the furthest write ends. -/
def extent (writes : List (ℕ × List α)) : ℕ :=
  (writes.map fun w => w.1 + w.2.length).foldr max 0

section Put
variable {zero : α} {cells bs : List α} {offset i : ℕ}

theorem length_grow (n : ℕ) : (grow zero cells n).length = max cells.length n := by
  rw [grow, List.length_append, List.length_replicate]
  omega

theorem getD_grow (n : ℕ) : (grow zero cells n).getD i zero = cells.getD i zero := by
  rw [grow, List.getD_eq_getElem?_getD, List.getD_eq_getElem?_getD]
  by_cases hc : i < cells.length
  · rw [List.getElem?_append_left hc]
  · rw [List.getElem?_append_right (Nat.le_of_not_lt hc), List.getElem?_replicate,
      List.getElem?_eq_none (Nat.le_of_not_lt hc)]
    split <;> rfl

theorem length_put :
    (put zero cells offset bs).length = max cells.length (offset + bs.length) := by
  simp only [put, List.length_append, List.length_take, List.length_drop, length_grow]
  omega

/-- What is kept in front of the write. -/
private theorem length_take_grow :
    ((grow zero cells (offset + bs.length)).take offset).length = offset := by
  rw [List.length_take, length_grow]
  omega

theorem getD_put_of_covers (h : Covers (offset, bs) i) :
    (put zero cells offset bs).getD i zero = bs.getD (i - offset) zero := by
  have hlow : offset ≤ i := h.1
  have hhigh : i < offset + bs.length := h.2
  rw [List.getD_eq_getElem?_getD, put, List.append_assoc,
    List.getElem?_append_right (by rw [length_take_grow]; exact hlow), length_take_grow,
    List.getElem?_append_left (by omega), List.getD_eq_getElem?_getD]

theorem getD_put_of_not_covers (h : ¬Covers (offset, bs) i) :
    (put zero cells offset bs).getD i zero = cells.getD i zero := by
  have hgrown : (grow zero cells (offset + bs.length)).getD i zero = cells.getD i zero :=
    getD_grow _
  rw [← hgrown, List.getD_eq_getElem?_getD, List.getD_eq_getElem?_getD, put, List.append_assoc]
  by_cases hlow : i < offset
  · rw [List.getElem?_append_left (by rw [length_take_grow]; exact hlow), List.getElem?_take,
      if_pos hlow]
  · have hhigh : offset + bs.length ≤ i := by
      by_contra hlt
      exact h ⟨Nat.le_of_not_lt hlow, Nat.lt_of_not_le hlt⟩
    have hplace : offset + bs.length + (i - offset - bs.length) = i := by omega
    rw [List.getElem?_append_right (by rw [length_take_grow]; omega), length_take_grow,
      List.getElem?_append_right (by omega), List.getElem?_drop, hplace]

end Put

section Puts
variable {zero : α} {cells : List α} {writes : List (ℕ × List α)} {i : ℕ}

theorem puts_append (before after : List (ℕ × List α)) :
    puts zero cells (before ++ after) = puts zero (puts zero cells before) after :=
  List.foldl_append

theorem length_puts : (puts zero cells writes).length = max cells.length (extent writes) := by
  induction writes generalizing cells with
  | nil => exact (max_eq_left (Nat.zero_le _)).symm
  | cons w writes ih =>
    have hput : puts zero cells (w :: writes) = puts zero (put zero cells w.1 w.2) writes := rfl
    rw [hput, ih, length_put, max_assoc]
    rfl

theorem length_puts_nil : (puts zero [] writes).length = extent writes :=
  length_puts.trans (max_eq_right (Nat.zero_le _))

/-- Up to where the writes reach there are cells. -/
theorem getElem?_puts_nil (hi : i < extent writes) :
    (puts zero [] writes)[i]? = some ((puts zero [] writes).getD i zero) := by
  have hlt : i < (puts zero [] writes).length := length_puts_nil ▸ hi
  rw [List.getD_eq_getElem?_getD, List.getElem?_eq_getElem hlt, Option.getD_some]

theorem le_extent {w : ℕ × List α} (h : w ∈ writes) : w.1 + w.2.length ≤ extent writes := by
  induction writes with
  | nil => cases h
  | cons w' writes ih =>
    rcases List.mem_cons.mp h with rfl | h
    · exact le_max_left _ _
    · exact (ih h).trans (le_max_right _ _)

theorem getD_puts_of_not_covers (h : ∀ w ∈ writes, ¬Covers w i) :
    (puts zero cells writes).getD i zero = cells.getD i zero :=
  foldl_frame (·.getD i zero) cells fun w hw _ => getD_put_of_not_covers (h w hw)

/-- The last write that covers a cell decides it. -/
theorem getD_puts_last {before after : List (ℕ × List α)} {w : ℕ × List α}
    (hw : Covers w i) (hafter : ∀ w' ∈ after, ¬Covers w' i) :
    (puts zero cells (before ++ w :: after)).getD i zero = w.2.getD (i - w.1) zero :=
  foldl_last (·.getD i zero) before cells (fun _ => getD_put_of_covers hw)
    fun w' hw' _ => getD_put_of_not_covers (hafter w' hw')

end Puts

end OpenvmSim.Sparse
