import Mathlib.Algebra.Group.Nat.Defs
import Mathlib.Data.List.Basic
import Mathlib.Logic.Function.Basic

/-! Flat memories.

A flat memory is a function from `w`-bit addresses to cells. `overlay m a cells`
stores the list `cells` at `a`, `a + 1`, …, wrapping at the end of the address
space; `load m a n` reads `n` cells back. Nothing here asks an access to be
aligned or to stay below the last address: lists longer than the address space
are covered by the recursive definition, and `overlay_apply` gives the closed form
for every shorter one. -/
namespace OpenvmSim.Flat

variable {w : ℕ} {α : Type}

/-- Store `cells` from address `a` on, in order. -/
def overlay (m : BitVec w → α) (a : BitVec w) : List α → (BitVec w → α)
  | [] => m
  | c :: cells => overlay (Function.update m a c) (a + 1#w) cells

/-- The `n` cells from address `a` on. -/
def load (m : BitVec w → α) (a : BitVec w) (n : ℕ) : List α :=
  (List.range n).map fun i => m (a + BitVec.ofNat w i)

@[simp] theorem overlay_nil (m : BitVec w → α) (a : BitVec w) : overlay m a [] = m := rfl

theorem overlay_cons (m : BitVec w → α) (a : BitVec w) (c : α) (cells : List α) :
    overlay m a (c :: cells) = overlay (Function.update m a c) (a + 1#w) cells := rfl

theorem overlay_append (m : BitVec w → α) (a : BitVec w) (xs ys : List α) :
    overlay m a (xs ++ ys) = overlay (overlay m a xs) (a + BitVec.ofNat w xs.length) ys := by
  induction xs generalizing m a with
  | nil => simp
  | cons x xs ih =>
    have hstep : a + 1#w + BitVec.ofNat w xs.length = a + BitVec.ofNat w (x :: xs).length := by
      rw [List.length_cons, BitVec.ofNat_add]
      grind
    rw [List.cons_append, overlay_cons, ih, hstep, overlay_cons]

/-- One more cell at the end. -/
theorem overlay_concat (m : BitVec w → α) (a : BitVec w) (xs : List α) (x : α) :
    overlay m a (xs ++ [x]) = Function.update (overlay m a xs) (a + BitVec.ofNat w xs.length) x := by
  rw [overlay_append]
  rfl

/-- One address further, the distance is one less. -/
private theorem distance_succ {x a : BitVec w} (h : (x - a).toNat ≠ 0) :
    (x - (a + 1#w)).toNat = (x - a).toNat - 1 := by
  have hstep : x - (a + 1#w) = x - a - 1#w := by grind
  have hw : 0 < w := by
    by_contra h0
    obtain rfl : w = 0 := by omega
    exact h (BitVec.toNat_of_zero_length rfl _)
  have hone : (1#w).toNat = 1 := BitVec.toNat_one hw
  rw [hstep, BitVec.toNat_sub_of_le (by rw [BitVec.le_def]; omega), hone]

/-- A list no longer than the address space is read back cell by cell, and every
other address keeps its cell. -/
theorem overlay_apply (m : BitVec w → α) (a : BitVec w) (cells : List α)
    (h : cells.length ≤ 2 ^ w) (x : BitVec w) :
    overlay m a cells x = (cells[(x - a).toNat]?).getD (m x) := by
  induction cells generalizing m a with
  | nil => simp
  | cons c cells ih =>
    have hlen : cells.length < 2 ^ w := by
      rw [List.length_cons] at h
      omega
    rw [overlay_cons, ih _ _ (by omega)]
    by_cases hx : (x - a).toNat = 0
    · -- the first cell: the rest of the list stops short of coming round to it
      have hxa : x = a := by
        have : x - a = 0#w := BitVec.eq_of_toNat_eq (by simpa using hx)
        grind
      subst hxa
      have hlast : x - (x + 1#w) = BitVec.allOnes w := by
        rw [← BitVec.neg_one_eq_allOnes]
        grind
      rw [hlast, BitVec.toNat_allOnes, List.getElem?_eq_none (by omega)]
      simp
    · have hne : x ≠ a := by
        rintro rfl
        simp at hx
      obtain ⟨k, hk⟩ := Nat.exists_eq_succ_of_ne_zero hx
      rw [distance_succ hx, hk, Function.update_of_ne hne]
      simp

/-- Cells stored at an address are the ones read there. -/
theorem load_overlay (m : BitVec w → α) (a : BitVec w) (cells : List α)
    (h : cells.length ≤ 2 ^ w) : load (overlay m a cells) a cells.length = cells := by
  apply List.ext_getElem
  · simp [load]
  · intro i h₁ h₂
    have hi : (a + BitVec.ofNat w i - a).toNat = i := by
      have hd : a + BitVec.ofNat w i - a = BitVec.ofNat w i := by grind
      rw [hd, BitVec.toNat_ofNat, Nat.mod_eq_of_lt (by omega)]
    simp only [load, List.getElem_map, List.getElem_range]
    rw [overlay_apply m a cells h, hi, List.getElem?_eq_getElem h₂, Option.getD_some]

/-- Cells stored elsewhere are not read. -/
theorem load_overlay_of_apart (m : BitVec w → α) {a b : BitVec w} {cells : List α} {n : ℕ}
    (hlen : cells.length ≤ 2 ^ w) (h : ∀ k < n, cells.length ≤ (b + BitVec.ofNat w k - a).toNat) :
    load (overlay m a cells) b n = load m b n := by
  refine List.map_congr_left fun k hk => ?_
  have hout := h k (List.mem_range.mp hk)
  rw [overlay_apply m a cells hlen, List.getElem?_eq_none hout, Option.getD_none]

@[simp] theorem length_load (m : BitVec w → α) (a : BitVec w) (n : ℕ) : (load m a n).length = n := by
  simp [load]

theorem load_add (m : BitVec w → α) (a : BitVec w) (n k : ℕ) :
    load m a (n + k) = load m a n ++ load m (a + BitVec.ofNat w n) k := by
  simp [load, List.range_add, BitVec.ofNat_add, BitVec.add_assoc]

end OpenvmSim.Flat
