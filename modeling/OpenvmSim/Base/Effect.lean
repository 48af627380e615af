import Mathlib.Logic.Basic

/-! Calls that may stop early.

A call of the modelled program returns a value, returns an error, panics, or is
still in a loop when the loop's bound is reached. A stateful call is an
`EStateM`: whatever it had written when it stopped stays written, so that "an
error leaves the state unchanged" is a statement to prove and not a property of
the monad.

`Atomic m s Q` is that statement with a postcondition: run from `s`, the call either
stops early and leaves `s` as it is, or returns and `Q` holds. It is proved along the
structure of a call, reads and calculations before the first write. -/
namespace OpenvmSim

/-- Why a call did not return a value. -/
inductive Stop (ε : Type) where
  /-- It returned `Err(e)`. -/
  | err (e : ε)
  /-- It panicked. -/
  | panic (message : String)
  /-- A loop had not ended within its bound. -/
  | diverge
  deriving DecidableEq, Repr

/-- A computation that reads no state. -/
abbrev Exec (ε α : Type) := Except (Stop ε) α

instance monadLiftExcept {ε σ : Type} : MonadLift (Except ε) (EStateM ε σ) where
  monadLift x := match x with
    | .ok a => pure a
    | .error e => throw e

/-- Run a call on a part of the state. -/
def focus {ε σ τ α : Type} (view : σ → τ) (put : σ → τ → σ) (m : EStateM ε τ α) : EStateM ε σ α :=
  fun s => match m.run (view s) with
    | .ok a t => .ok a (put s t)
    | .error e t => .error e (put s t)

section Run
variable {ε σ τ α β : Type}

@[simp] theorem run_throw (e : ε) (s : σ) :
    (throw e : EStateM ε σ α).run s = .error e s := rfl

@[simp] theorem run_lift_ok (a : α) (s : σ) :
    (liftM (.ok a : Except ε α) : EStateM ε σ α).run s = .ok a s := rfl

@[simp] theorem run_lift_pure (a : α) (s : σ) :
    (liftM (pure a : Except ε α) : EStateM ε σ α).run s = .ok a s := rfl

theorem run_lift_bind {x : Except ε α} {k : α → EStateM ε σ β} {a : α} (hx : x = .ok a) (s : σ) :
    (liftM x >>= k).run s = (k a).run s := by
  subst hx
  rfl

@[simp] theorem run_lift_error (e : ε) (s : σ) :
    (liftM (.error e : Except ε α) : EStateM ε σ α).run s = .error e s := rfl

@[simp] theorem run_ite (c : Prop) [Decidable c] (m k : EStateM ε σ α) (s : σ) :
    (if c then m else k).run s = if c then m.run s else k.run s := by
  split <;> rfl

theorem run_focus (view : σ → τ) (put : σ → τ → σ) (m : EStateM ε τ α) (s : σ) :
    (focus view put m).run s =
      match m.run (view s) with
      | .ok a t => .ok a (put s t)
      | .error e t => .error e (put s t) := rfl

/-- The state a call leaves, however it ends. -/
def stateAfter : EStateM.Result ε σ α → σ
  | .ok _ s => s
  | .error _ s => s

@[simp] theorem stateAfter_ok (a : α) (s : σ) : stateAfter (.ok a s : EStateM.Result ε σ α) = s := rfl

@[simp] theorem stateAfter_error (e : ε) (s : σ) :
    stateAfter (.error e s : EStateM.Result ε σ α) = s := rfl

end Run

/-! ### Calls that change nothing unless they return -/

section Atomic
variable {ε σ τ α β : Type} {Q : α → σ → Prop}

/-- Run from `s`, the call `m` either stops early and leaves `s` as it is, or returns
with the postcondition `Q`. -/
def Atomic (m : EStateM ε σ α) (s : σ) (Q : α → σ → Prop) : Prop :=
  match m.run s with
  | .ok a s' => Q a s'
  | .error _ s' => s' = s

theorem Atomic.of_error {m : EStateM ε σ α} {s s' : σ} {e : ε} (h : Atomic m s Q)
    (hr : m.run s = .error e s') : s' = s := by
  rwa [Atomic, hr] at h

theorem Atomic.of_ok {m : EStateM ε σ α} {s s' : σ} {a : α} (h : Atomic m s Q)
    (hr : m.run s = .ok a s') : Q a s' := by
  rwa [Atomic, hr] at h

theorem Atomic.mono {m : EStateM ε σ α} {s : σ} {Q' : α → σ → Prop} (h : Atomic m s Q)
    (himp : ∀ a s', Q a s' → Q' a s') : Atomic m s Q' := by
  unfold Atomic at *
  cases hr : m.run s with
  | ok a s' => rw [hr] at h; exact himp a s' h
  | error e s' => rwa [hr] at h

theorem atomic_of_run {m : EStateM ε σ α} {s s' : σ} {a : α} (hr : m.run s = .ok a s')
    (h : Q a s') : Atomic m s Q := by
  rwa [Atomic, hr]

theorem atomic_pure {s : σ} {a : α} (h : Q a s) : Atomic (pure a : EStateM ε σ α) s Q := h

theorem atomic_throw {s : σ} (e : ε) : Atomic (throw e : EStateM ε σ α) s Q := rfl

theorem atomic_modify {s : σ} {f : σ → σ} {Q : PUnit → σ → Prop} (h : Q ⟨⟩ (f s)) :
    Atomic (modify f : EStateM ε σ PUnit) s Q := h

theorem atomic_set {s t : σ} {Q : PUnit → σ → Prop} (h : Q ⟨⟩ t) :
    Atomic (set t : EStateM ε σ PUnit) s Q := h

theorem atomic_get {s : σ} {k : σ → EStateM ε σ α} (h : Atomic (k s) s Q) :
    Atomic (get >>= k) s Q := h

/-- A calculation first: it may stop, and nothing has been written yet. -/
theorem atomic_lift {s : σ} {x : Except ε β} {k : β → EStateM ε σ α}
    (h : ∀ b, x = .ok b → Atomic (k b) s Q) : Atomic (liftM x >>= k) s Q := by
  cases x with
  | ok b => exact h b rfl
  | error e => rfl

/-- After an atomic call, anything that does return. -/
theorem atomic_bind {s : σ} {m : EStateM ε σ β} {k : β → EStateM ε σ α} {P : β → σ → Prop}
    (hm : Atomic m s P) (hk : ∀ b s₁, P b s₁ → ∃ a s', (k b).run s₁ = .ok a s' ∧ Q a s') :
    Atomic (m >>= k) s Q := by
  unfold Atomic at *
  rw [EStateM.run_bind]
  cases hr : m.run s with
  | ok b s₁ =>
    rw [hr] at hm
    obtain ⟨a, s', hrun, hq⟩ := hk b s₁ hm
    show match (k b).run s₁ with | .ok a s' => Q a s' | .error _ s' => s' = s
    rw [hrun]
    exact hq
  | error e s₁ => rwa [hr] at hm

theorem atomic_ite {s : σ} {c : Prop} [Decidable c] {m k : EStateM ε σ α}
    (hm : c → Atomic m s Q) (hk : ¬c → Atomic k s Q) : Atomic (if c then m else k) s Q := by
  split
  · exact hm ‹_›
  · exact hk ‹_›

theorem atomic_focus {view : σ → τ} {put : σ → τ → σ} {m : EStateM ε τ α} {s : σ}
    {P : α → τ → Prop} (hput : put s (view s) = s) (hm : Atomic m (view s) P)
    (hq : ∀ a t, P a t → Q a (put s t)) : Atomic (focus view put m) s Q := by
  unfold Atomic at *
  rw [run_focus]
  cases hr : m.run (view s) with
  | ok a t => rw [hr] at hm; exact hq a t hm
  | error e t => rw [hr] at hm; rw [hm]; exact hput

end Atomic

end OpenvmSim
