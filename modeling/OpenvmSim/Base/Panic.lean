import OpenvmSim.Base.Effect

/-! Calls that panic, and exactly when.

A call returns if it ends in a value or in an error of its own. `PanicsWhen c x` says
that a computation panics if `c` holds and has a value otherwise; `PanicsAt m s c` says
the same of a stateful call run from `s`, where an error is a way to return. Both are
proved along the structure of a call, so that the condition of a long call is put
together from those of its parts. -/
namespace OpenvmSim

variable {ε σ τ α β : Type} {c c' p : Prop}

/-! ### Computations -/

@[simp] theorem ok_bind (a : β) (k : β → Exec ε α) : (Except.ok a >>= k) = k a := rfl

@[simp] theorem ok_map (a : β) (f : β → α) : (f <$> Except.ok a : Exec ε α) = .ok (f a) := rfl

/-- The computation panics if `c`, and has a value if not. -/
structure PanicsWhen (c : Prop) (x : Exec ε α) : Prop where
  panics : c → ∃ message, x = .error (.panic message)
  value : ¬c → ∃ a, x = .ok a

theorem PanicsWhen.congr {x : Exec ε α} (h : PanicsWhen c x) (hc : c ↔ c') : PanicsWhen c' x where
  panics h' := h.panics (hc.mpr h')
  value h' := h.value fun hh => h' (hc.mp hh)

theorem panicsWhen_ok {x : Exec ε α} {a : α} (hx : x = .ok a) (hc : ¬c) : PanicsWhen c x where
  panics h := absurd h hc
  value _ := ⟨a, hx⟩

theorem panicsWhen_error {x : Exec ε α} {message : String} (hx : x = .error (.panic message))
    (hc : c) : PanicsWhen c x where
  panics _ := ⟨message, hx⟩
  value h := absurd hc h

/-- A part that panics makes the whole panic. -/
theorem PanicsWhen.bind {x : Exec ε β} {k : β → Exec ε α} (hx : PanicsWhen c x)
    (hk : ∀ b, x = .ok b → ¬c → ∃ a, k b = .ok a) : PanicsWhen c (x >>= k) where
  panics h := by
    obtain ⟨message, hm⟩ := hx.panics h
    rw [hm]
    exact ⟨message, rfl⟩
  value h := by
    obtain ⟨b, hb⟩ := hx.value h
    obtain ⟨a, ha⟩ := hk b hb h
    rw [hb]
    exact ⟨a, ha⟩

theorem ite_value [Decidable p] {x y : Exec ε α} (hx : p → ∃ a, x = .ok a)
    (hy : ¬p → ∃ a, y = .ok a) : ∃ a, (if p then x else y) = .ok a := by
  split
  · exact hx ‹_›
  · exact hy ‹_›

/-- A list of computations panics if one of them does. -/
theorem mapM_panicsWhen {f : β → Exec ε α} {cond : β → Prop} (h : ∀ b, PanicsWhen (cond b) (f b))
    (l : List β) : PanicsWhen (∃ b ∈ l, cond b) (l.mapM f) := by
  induction l with
  | nil => exact panicsWhen_ok List.mapM_nil (by simp)
  | cons b l ih =>
    rw [List.mapM_cons]
    by_cases hb : cond b
    · obtain ⟨message, hm⟩ := (h b).panics hb
      have hrun : (do let a ← f b; let as ← l.mapM f; pure (a :: as)) =
          (.error (.panic message) : Exec ε (List α)) := by
        rw [hm]
        rfl
      exact panicsWhen_error hrun ⟨b, List.mem_cons_self, hb⟩
    · obtain ⟨a, ha⟩ := (h b).value hb
      have hiff : (∃ b' ∈ l, cond b') ↔ ∃ b' ∈ b :: l, cond b' := by simp [hb]
      rw [ha]
      exact (ih.bind fun as has _ => ⟨a :: as, rfl⟩).congr hiff

/-- The values of a list of computations that all have one. -/
theorem mapM_eq_map {f : β → Exec ε α} {g : β → α} {l : List β} (h : ∀ b ∈ l, f b = .ok (g b)) :
    l.mapM f = .ok (l.map g) := by
  induction l with
  | nil => exact List.mapM_nil
  | cons b l ih =>
    rw [List.mapM_cons, h b List.mem_cons_self, ih fun b' hb' => h b' (List.mem_cons_of_mem b hb')]
    rfl

/-! ### Stateful calls -/

/-- Run from `s`, the call ends in a value or in an error of its own. -/
def Returns (m : EStateM (Stop ε) σ α) (s : σ) : Prop :=
  (∃ a s', m.run s = .ok a s') ∨ ∃ e s', m.run s = .error (.err e) s'

theorem returns_get {f : σ → EStateM (Stop ε) σ α} {s : σ} (h : Returns (f s) s) :
    Returns (get >>= f) s := h

theorem returns_ite [Decidable p] {m k : EStateM (Stop ε) σ α} {s : σ} (hm : p → Returns m s)
    (hk : ¬p → Returns k s) : Returns (if p then m else k) s := by
  split
  · exact hm ‹_›
  · exact hk ‹_›

/-- Run from `s`, the call panics if `c`, and returns if not. -/
structure PanicsAt (m : EStateM (Stop ε) σ α) (s : σ) (c : Prop) : Prop where
  panics : c → ∃ message s', m.run s = .error (.panic message) s'
  returns : ¬c → Returns m s

section Rules
variable {m k : EStateM (Stop ε) σ α} {s : σ}

theorem PanicsAt.congr (h : PanicsAt m s c) (hc : c ↔ c') : PanicsAt m s c' where
  panics h' := h.panics (hc.mpr h')
  returns h' := h.returns fun hh => h' (hc.mp hh)

theorem PanicsAt.returns_iff (h : PanicsAt m s c) : Returns m s ↔ ¬c := by
  refine ⟨fun hr hc => ?_, h.returns⟩
  obtain ⟨message, s', hm⟩ := h.panics hc
  obtain ⟨a, t, hrun⟩ | ⟨e, t, hrun⟩ := hr
  · cases hm.symm.trans hrun
  · cases hm.symm.trans hrun

theorem panicsAt_of_returns (h : Returns m s) (hc : ¬c) : PanicsAt m s c where
  panics h' := absurd h' hc
  returns _ := h

theorem panicsAt_ite [Decidable p] (hm : p → PanicsAt m s c) (hk : ¬p → PanicsAt k s c) :
    PanicsAt (if p then m else k) s c := by
  split
  · exact hm ‹_›
  · exact hk ‹_›

theorem panicsAt_get {f : σ → EStateM (Stop ε) σ α} (h : PanicsAt (f s) s c) :
    PanicsAt (get >>= f) s c := ⟨h.panics, h.returns⟩

/-- A calculation that has a value. -/
theorem panicsAt_lift_ok {x : Exec ε β} {f : β → EStateM (Stop ε) σ α} {b : β} (hx : x = .ok b)
    (h : PanicsAt (f b) s c) : PanicsAt (liftM x >>= f) s c := by
  subst hx
  exact ⟨h.panics, h.returns⟩

/-- A calculation that panics when the call does. -/
theorem panicsAt_lift {x : Exec ε β} {f : β → EStateM (Stop ε) σ α} (hx : PanicsWhen c x)
    (h : ∀ b, Returns (f b) s) : PanicsAt (liftM x >>= f) s c where
  panics hc := by
    obtain ⟨message, hm⟩ := hx.panics hc
    rw [hm]
    exact ⟨message, s, rfl⟩
  returns hc := by
    obtain ⟨b, hb⟩ := hx.value hc
    rw [hb]
    exact h b

/-- What comes after a call, if it always returns, does not matter. -/
theorem PanicsAt.bind {m : EStateM (Stop ε) σ β} {f : β → EStateM (Stop ε) σ α}
    (hm : PanicsAt m s c) (hf : ∀ b s', Returns (f b) s') : PanicsAt (m >>= f) s c where
  panics hc := by
    obtain ⟨message, s', hr⟩ := hm.panics hc
    refine ⟨message, s', ?_⟩
    rw [EStateM.run_bind, hr]
  returns hc := by
    unfold Returns
    rw [EStateM.run_bind]
    obtain ⟨b, s', hr⟩ | ⟨e, s', hr⟩ := hm.returns hc
    · rw [hr]
      exact hf b s'
    · rw [hr]
      exact .inr ⟨e, s', rfl⟩

/-- A call on a part of the state returns as often as the call itself. -/
theorem returns_focus {view : σ → τ} {put : σ → τ → σ} {m : EStateM (Stop ε) τ α}
    (h : Returns m (view s)) : Returns (focus view put m) s := by
  unfold Returns
  rw [run_focus]
  obtain ⟨a, t, hr⟩ | ⟨e, t, hr⟩ := h
  · rw [hr]
    exact .inl ⟨a, put s t, rfl⟩
  · rw [hr]
    exact .inr ⟨e, put s t, rfl⟩

end Rules

end OpenvmSim
