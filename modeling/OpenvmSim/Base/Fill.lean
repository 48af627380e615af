import Mathlib.Data.Nat.Notation

/-! Vectors that a loop overwrites place by place.

`Between s t done v`: the places that are done hold what the vector `t` has there, the others
what `s` has. Writing one more place of `t` keeps it, and when what is left agrees the vector
is `t`. -/
namespace OpenvmSim

section Between
variable {α : Type} {n : ℕ} {s t v : Vector α n} {done done' : ℕ → Prop}

def Between (s t : Vector α n) (done : ℕ → Prop) (v : Vector α n) : Prop :=
  ∀ k (h : k < n), (done k → v[k] = t[k]) ∧ (¬done k → v[k] = s[k])

theorem Between.start (h : ∀ k < n, ¬done k) : Between s t done s := fun k hk =>
  ⟨fun hd => absurd hd (h k hk), fun _ => rfl⟩

theorem Between.set (h : Between s t done v) {j : ℕ} (hj : j < n) {value : α}
    (hvalue : value = t[j]) (hdone : ∀ k, done' k ↔ done k ∨ k = j) :
    Between s t done' (v.set j value) := by
  intro k hk
  by_cases heq : k = j
  · subst heq
    refine ⟨fun _ => ?_, fun hn => absurd ((hdone k).mpr (.inr rfl)) hn⟩
    rw [Vector.getElem_set_self, hvalue]
  · rw [Vector.getElem_set_ne hj hk (Ne.symm heq)]
    have hsame : done' k ↔ done k := (hdone k).trans ⟨fun hd => hd.resolve_right heq, .inl⟩
    rw [hsame]
    exact h k hk

theorem Between.congr (h : Between s t done v) (hdone : ∀ k < n, done' k ↔ done k) :
    Between s t done' v := fun k hk => by
  rw [hdone k hk]
  exact h k hk

theorem Between.eq (h : Between s t done v) (hrest : ∀ k (hk : k < n), ¬done k → s[k] = t[k]) :
    v = t := by
  apply Vector.ext
  intro k hk
  by_cases hd : done k
  · exact (h k hk).1 hd
  · exact ((h k hk).2 hd).trans (hrest k hk hd)

end Between

end OpenvmSim
