import Mathlib.Data.Nat.Notation

/-! Counted loops.

`forRange n body` is `for i in 0..n { body }` on an explicit loop state, for a body
that may stop. `forRange_ok` is the invariant rule: what holds before the first
iteration and is carried from each iteration to the next holds at the end, and the
loop does end. `foldl_last` is the rule of a loop that writes: the last write counts. -/
namespace OpenvmSim

variable {ε σ : Type}

def forRange (n : ℕ) (body : (i : ℕ) → i < n → σ → Except ε σ) (s : σ) : Except ε σ :=
  n.fold (fun i h r => r.bind (body i h)) (.ok s)

@[simp] theorem forRange_zero (body : (i : ℕ) → i < 0 → σ → Except ε σ) (s : σ) :
    forRange 0 body s = .ok s := rfl

theorem forRange_succ (n : ℕ) (body : (i : ℕ) → i < n + 1 → σ → Except ε σ) (s : σ) :
    forRange (n + 1) body s =
      (forRange n (fun i h => body i (Nat.lt_succ_of_lt h)) s).bind (body n (Nat.lt_succ_self n)) :=
  Nat.fold_succ ..

theorem forRange_ok (inv : ℕ → σ → Prop) {n : ℕ} (body : (i : ℕ) → i < n → σ → Except ε σ) {s : σ}
    (h0 : inv 0 s)
    (hstep : ∀ i (h : i < n) t, inv i t → ∃ t', body i h t = .ok t' ∧ inv (i + 1) t') :
    ∃ t, forRange n body s = .ok t ∧ inv n t := by
  induction n with
  | zero => exact ⟨s, rfl, h0⟩
  | succ n ih =>
    have hinit : ∀ i (h : i < n) t, inv i t →
        ∃ t', body i (Nat.lt_succ_of_lt h) t = .ok t' ∧ inv (i + 1) t' :=
      fun i h => hstep i (Nat.lt_succ_of_lt h)
    obtain ⟨t, ht, hinv⟩ := ih _ hinit
    obtain ⟨t', ht', hinv'⟩ := hstep n (Nat.lt_succ_self n) t hinv
    refine ⟨t', ?_, hinv'⟩
    rw [forRange_succ, ht]
    exact ht'

/-- The invariant rule of a loop that cannot stop. -/
theorem fold_inv (inv : ℕ → σ → Prop) {n : ℕ} (body : (i : ℕ) → i < n → σ → σ) {s : σ}
    (h0 : inv 0 s) (hstep : ∀ i (h : i < n) t, inv i t → inv (i + 1) (body i h t)) :
    inv n (n.fold body s) := by
  induction n with
  | zero => exact h0
  | succ n ih =>
    rw [Nat.fold_succ]
    exact hstep n (Nat.lt_succ_self n) _ (ih _ fun i h => hstep i (Nat.lt_succ_of_lt h))

/-! ### A list of writes

A state is read through `read`, at one place. Of the writes that a fold applies, the last one
that decides what is read there is the only one that counts. -/

section Writes
variable {α W : Type} {apply : σ → W → σ} {value : α} (read : σ → α)

theorem foldl_frame {writes : List W} (s : σ)
    (h : ∀ w ∈ writes, ∀ s, read (apply s w) = read s) : read (writes.foldl apply s) = read s := by
  induction writes generalizing s with
  | nil => rfl
  | cons w writes ih =>
    rw [List.foldl_cons, ih _ fun w' hw' => h w' (List.mem_cons_of_mem _ hw')]
    exact h w List.mem_cons_self s

theorem foldl_last (before : List W) {after : List W} {w : W} (s : σ)
    (hw : ∀ s, read (apply s w) = value)
    (hafter : ∀ w' ∈ after, ∀ s, read (apply s w') = read s) :
    read ((before ++ w :: after).foldl apply s) = value := by
  rw [List.foldl_append, List.foldl_cons, foldl_frame read _ hafter]
  exact hw _

end Writes

end OpenvmSim
