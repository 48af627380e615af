import Mathlib.Data.Nat.Basic
import Mathlib.Logic.Function.Basic
import Mathlib.Order.Basic
import OpenvmSim.Base.Overlay

/-! Loops that combine two regions of a flat memory in place.

`combine f dst src n` replaces the cell `dst + i` by `f` of itself and the cell `src + i`, for
one `i < n` after the other. Where the regions overlap, a later step can read a cell that an
earlier one wrote; `combine_law_iff` says when that makes no difference. -/
namespace OpenvmSim.Flat

section Combine
variable {w : ℕ} {α : Type} (f : α → α → α) (m : BitVec w → α) (dst src : BitVec w)

def combine : ℕ → (BitVec w → α)
  | 0 => m
  | n + 1 =>
    let m' := combine n
    Function.update m' (dst + BitVec.ofNat w n)
      (f (m' (dst + BitVec.ofNat w n)) (m' (src + BitVec.ofNat w n)))

/-- The source cell that step `n` reads. -/
def seen (n : ℕ) : α := combine f m dst src n (src + BitVec.ofNat w n)

theorem distance_add (a : BitVec w) {n : ℕ} (hn : n < 2 ^ w) :
    (a + BitVec.ofNat w n - a).toNat = n := by
  rw [BitVec.add_comm, BitVec.add_sub_cancel, BitVec.toNat_ofNat, Nat.mod_eq_of_lt hn]

theorem eq_add_distance (x a : BitVec w) : x = a + BitVec.ofNat w (x - a).toNat := by
  rw [BitVec.ofNat_toNat, BitVec.setWidth_eq, BitVec.add_comm, BitVec.sub_add_cancel]

/-- Each cell of the destination has been combined once, and no other cell has changed. -/
theorem combine_apply {n : ℕ} (hn : n ≤ 2 ^ w) (x : BitVec w) : combine f m dst src n x =
    if (x - dst).toNat < n then f (m x) (seen f m dst src (x - dst).toNat) else m x := by
  induction n generalizing x with
  | zero => rfl
  | succ n ih =>
    have hlast := ih (Nat.le_of_succ_le hn) (dst + BitVec.ofNat w n)
    rw [distance_add dst hn, if_neg (Nat.lt_irrefl n)] at hlast
    rw [combine, hlast]
    by_cases hx : x = dst + BitVec.ofNat w n
    · subst hx
      rw [Function.update_self, distance_add dst hn, if_pos (Nat.lt_succ_self n)]
      rfl
    · have hne : (x - dst).toNat ≠ n := by
        rintro rfl
        exact hx (eq_add_distance x dst)
      rw [Function.update_of_ne hx, ih (Nat.le_of_succ_le hn)]
      exact if_congr (by omega) rfl rfl

/-- If the source has no cell in the destination, the old cells are combined. -/
theorem combine_apart {n : ℕ} (hn : n ≤ 2 ^ w)
    (h : ∀ i < n, n ≤ (src + BitVec.ofNat w i - dst).toNat) (x : BitVec w) :
    combine f m dst src n x =
      if (x - dst).toNat < n then f (m x) (m (src + BitVec.ofNat w (x - dst).toNat)) else m x := by
  rw [combine_apply f m dst src hn]
  split
  · next hx =>
    have hread := h _ hx
    rw [seen, combine_apply f m dst src (hx.le.trans hn), if_neg (by omega)]
  · rfl

theorem combine_dst {n i : ℕ} (hn : n ≤ 2 ^ w) (hi : i < n) :
    combine f m dst src n (dst + BitVec.ofNat w i) =
      f (m (dst + BitVec.ofNat w i)) (seen f m dst src i) := by
  rw [combine_apply f m dst src hn, distance_add dst (hi.trans_le hn), if_pos hi]

/-- How far the destination lies above the source, around the end of the address space. -/
def lead : ℕ := (dst - src).toNat

/-- A cell of the source is `lead` cells further down in the destination. -/
theorem src_sub_dst {n : ℕ} (hn : n < 2 ^ w) :
    (src + BitVec.ofNat w n - dst).toNat =
      if lead dst src ≤ n then n - lead dst src else 2 ^ w + n - lead dst src := by
  have hlead : lead dst src < 2 ^ w := (dst - src).isLt
  have hsub : src + BitVec.ofNat w n - dst = BitVec.ofNat w n - (dst - src) := by grind
  rw [hsub, BitVec.toNat_sub, BitVec.toNat_ofNat, Nat.mod_eq_of_lt hn]
  show (2 ^ w - lead dst src + n) % 2 ^ w = _
  split
  · rw [Nat.mod_eq_sub_mod (by omega), Nat.mod_eq_of_lt (by omega)]
    omega
  · rw [Nat.mod_eq_of_lt (by omega)]
    omega

/-- A cell that has not been written yet. -/
theorem seen_fresh {n : ℕ} (hn : n < 2 ^ w) (h : lead dst src = 0 ∨ n < lead dst src) :
    seen f m dst src n = m (src + BitVec.ofNat w n) := by
  have hlead : lead dst src < 2 ^ w := (dst - src).isLt
  rw [seen, combine_apply f m dst src hn.le, src_sub_dst dst src hn, if_neg]
  split
  · omega
  · omega

/-- A cell that an earlier step has written. -/
theorem seen_written {n : ℕ} (hn : n < 2 ^ w) (hpos : 0 < lead dst src) (h : lead dst src ≤ n) :
    seen f m dst src n =
      f (m (src + BitVec.ofNat w n)) (seen f m dst src (n - lead dst src)) := by
  rw [seen, combine_apply f m dst src hn.le, src_sub_dst dst src hn, if_pos h, if_pos (by omega)]

/-- The regions are the same, or the cells of the source that are written before they are read
are written with `zero`, which leaves them as they are. -/
def SourceKept (zero : α) (n : ℕ) : Prop :=
  dst = src ∨ ∀ j, j + lead dst src < n → m (src + BitVec.ofNat w j) = zero

variable {f}

/-- The loop combines the old cells if and only if the source is kept. -/
theorem combine_law_iff {zero : α} (hzero : ∀ x y, f x y = x ↔ y = zero)
    (hinj : ∀ x, Function.Injective (f x)) {n : ℕ} (hn : n ≤ 2 ^ w) :
    (∀ i < n, combine f m dst src n (dst + BitVec.ofNat w i) =
      f (m (dst + BitVec.ofNat w i)) (m (src + BitVec.ofNat w i))) ↔
    SourceKept m dst src zero n := by
  have hseen : (∀ i < n, combine f m dst src n (dst + BitVec.ofNat w i) =
      f (m (dst + BitVec.ofNat w i)) (m (src + BitVec.ofNat w i))) ↔
      ∀ i < n, seen f m dst src i = m (src + BitVec.ofNat w i) := by
    refine forall₂_congr fun i hi => ?_
    rw [combine_dst f m dst src hn hi]
    exact (hinj _).eq_iff
  rw [hseen]
  by_cases hlead : lead dst src = 0
  · have heq : dst = src := by
      have h0 : dst - src = 0#w := BitVec.eq_of_toNat_eq (by simpa [lead] using hlead)
      grind
    exact ⟨fun _ => .inl heq, fun _ i hi => seen_fresh f m dst src (hi.trans_le hn) (.inl hlead)⟩
  · have hpos := Nat.pos_of_ne_zero hlead
    have hne : dst ≠ src := by
      rintro rfl
      exact hlead (by simp [lead])
    constructor
    · refine fun h => .inr fun j hj => ?_
      have hlater := h (j + lead dst src) hj
      rw [seen_written f m dst src (hj.trans_le hn) hpos (Nat.le_add_left _ _), Nat.add_sub_cancel,
        hzero] at hlater
      rw [← h j (by omega), hlater]
    · rintro (h | h) i
      · exact absurd h hne
      · induction i using Nat.strong_induction_on with
        | _ i ih =>
          intro hi
          by_cases hfresh : i < lead dst src
          · exact seen_fresh f m dst src (hi.trans_le hn) (.inr hfresh)
          · have hback := ih (i - lead dst src) (by omega) (by omega)
            rw [seen_written f m dst src (hi.trans_le hn) hpos (by omega), hzero, hback]
            exact h _ (by omega)

end Combine

end OpenvmSim.Flat
