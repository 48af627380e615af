import OpenvmSim.Base.Effect

/-! Two calls side by side.

`Agree Excused R r r'` compares the results of two calls: they return the same value or stop
for the same reason, in states that are related, unless the first has stopped for a reason
that excuses the second from everything. It is proved along the structure of two calls of one
shape, and a call that only reads what the relation keeps is compared with itself. -/
namespace OpenvmSim

section Agreement
variable {ε σ τ α β : Type} {Excused : ε → Prop} {R : σ → τ → Prop}

/-- The results agree, or the first one excuses the second. -/
inductive Agree (Excused : ε → Prop) (R : σ → τ → Prop) :
    EStateM.Result ε σ α → EStateM.Result ε τ α → Prop where
  | ok {a : α} {s : σ} {t : τ} (h : R s t) : Agree Excused R (.ok a s) (.ok a t)
  | error {e : ε} {s : σ} {t : τ} (h : R s t) : Agree Excused R (.error e s) (.error e t)
  | excused {e : ε} {s : σ} {r : EStateM.Result ε τ α} (h : Excused e) :
      Agree Excused R (.error e s) r

theorem Agree.mono {R' : σ → τ → Prop} {r : EStateM.Result ε σ α} {r' : EStateM.Result ε τ α}
    (h : Agree Excused R r r') (himp : ∀ s t, R s t → R' s t) : Agree Excused R' r r' := by
  cases h with
  | ok h => exact .ok (himp _ _ h)
  | error h => exact .error (himp _ _ h)
  | excused h => exact .excused h

/-! ### Rules -/

variable {s : σ} {t : τ}

theorem agree_pure (a : α) (h : R s t) :
    Agree Excused R ((pure a : EStateM ε σ α).run s) ((pure a : EStateM ε τ α).run t) := .ok h

theorem agree_throw (e : ε) (h : R s t) :
    Agree Excused R ((throw e : EStateM ε σ α).run s) ((throw e : EStateM ε τ α).run t) := .error h

theorem agree_bind {m : EStateM ε σ β} {m' : EStateM ε τ β} {k : β → EStateM ε σ α}
    {k' : β → EStateM ε τ α} (hm : Agree Excused R (m.run s) (m'.run t))
    (hk : ∀ b s₁ t₁, R s₁ t₁ → Agree Excused R ((k b).run s₁) ((k' b).run t₁)) :
    Agree Excused R ((m >>= k).run s) ((m' >>= k').run t) := by
  rw [EStateM.run_bind, EStateM.run_bind]
  generalize m.run s = r at hm
  generalize m'.run t = r' at hm
  cases hm with
  | ok h => exact hk _ _ _ h
  | error h => exact .error h
  | excused h => exact .excused h

theorem agree_get {k : σ → EStateM ε σ α} {k' : τ → EStateM ε τ α}
    (h : Agree Excused R ((k s).run s) ((k' t).run t)) :
    Agree Excused R ((get >>= k).run s) ((get >>= k').run t) := h

theorem agree_modify {f : σ → σ} {f' : τ → τ} (h : R (f s) (f' t)) :
    Agree Excused R ((modify f : EStateM ε σ PUnit).run s) ((modify f' : EStateM ε τ PUnit).run t) :=
  .ok h

theorem agree_set {s' : σ} {t' : τ} (h : R s' t') :
    Agree Excused R ((set s' : EStateM ε σ PUnit).run s) ((set t' : EStateM ε τ PUnit).run t) := .ok h

/-- The same calculation on both sides. -/
theorem agree_lift {x : Except ε β} {k : β → EStateM ε σ α} {k' : β → EStateM ε τ α} (h : R s t)
    (hk : ∀ b, x = .ok b → Agree Excused R ((k b).run s) ((k' b).run t)) :
    Agree Excused R ((liftM x >>= k).run s) ((liftM x >>= k').run t) := by
  cases x with
  | ok b => exact hk b rfl
  | error e => exact .error h

theorem agree_ite {c : Prop} [Decidable c] {m k : EStateM ε σ α} {m' k' : EStateM ε τ α}
    (hm : c → Agree Excused R (m.run s) (m'.run t))
    (hk : ¬c → Agree Excused R (k.run s) (k'.run t)) :
    Agree Excused R ((if c then m else k).run s) ((if c then m' else k').run t) := by
  split
  · exact hm ‹_›
  · exact hk ‹_›

end Agreement

end OpenvmSim
