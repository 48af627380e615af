/-! Machines that carry out actions.

A machine carries out a list of actions when some of the states it passes through do them, one
after the other, and the others are quiet. What the states stand for is then at the end what the
actions make of it, whatever else the machine does (`passes_run`). -/
namespace OpenvmSim

universe u v w
variable {S : Type u} {A : Type v} {V : Type w}

/-- The states a machine passes through, the last one apart. -/
inductive Passes (next : S → S → Prop) : S → List S → S → Prop where
  | done (s : S) : Passes next s [] s
  | step {s u t : S} {states : List S} (h : next s u) (hp : Passes next u states t) :
      Passes next s (s :: states) t

/-- The states do the actions in their order, with quiet states in between. -/
inductive CarriesOut (does : S → A → Prop) (quiet : S → Prop) : List S → List A → Prop where
  | nil : CarriesOut does quiet [] []
  | act {u : S} {a : A} {states : List S} {actions : List A} (h : does u a)
      (hs : CarriesOut does quiet states actions) :
      CarriesOut does quiet (u :: states) (a :: actions)
  | quiet {u : S} {states : List S} {actions : List A} (h : quiet u)
      (hs : CarriesOut does quiet states actions) : CarriesOut does quiet (u :: states) actions

variable {next : S → S → Prop} {does : S → A → Prop} {quiet : S → Prop} {act : V → A → V}
  (holds : S → V → Prop)
  (hdoes : ∀ s s' v a, next s s' → does s a → holds s v → holds s' (act v a))
  (hquiet : ∀ s s' v, next s s' → quiet s → holds s v → holds s' v)
include hdoes hquiet

/-- The last state stands for what the actions make of what the first one stands for. -/
theorem passes_run {s t : S} {states : List S} (h : Passes next s states t) {actions : List A}
    (hc : CarriesOut does quiet states actions) {v : V} (hv : holds s v) :
    holds t (actions.foldl act v) := by
  induction h generalizing actions v with
  | done s =>
    cases hc
    exact hv
  | step hnext _ ih =>
    cases hc with
    | act ha hs => exact ih hs (hdoes _ _ _ _ hnext ha hv)
    | quiet hq hs => exact ih hs (hquiet _ _ _ hnext hq hv)

/-- Every action is done on what the actions before it have left. -/
theorem passes_at {s t : S} {states : List S} (h : Passes next s states t)
    {before after : List A} {a : A} (hc : CarriesOut does quiet states (before ++ a :: after))
    {v : V} (hv : holds s v) :
    ∃ u u', next u u' ∧ does u a ∧ holds u (before.foldl act v) := by
  induction h generalizing before v with
  | done s =>
    generalize hall : before ++ a :: after = all at hc
    cases hc
    exact absurd hall (List.append_ne_nil_of_right_ne_nil _ (List.cons_ne_nil _ _))
  | @step s u t states hnext _ ih =>
    generalize hall : before ++ a :: after = all at hc
    cases hc with
    | act ha hs =>
      cases before with
      | nil =>
        obtain ⟨rfl, -⟩ := List.cons.inj hall
        exact ⟨s, u, hnext, ha, hv⟩
      | cons b before =>
        obtain ⟨rfl, rfl⟩ := List.cons.inj hall
        exact ih hs (hdoes _ _ _ _ hnext ha hv)
    | quiet hq hs =>
      subst hall
      exact ih hs (hquiet _ _ _ hnext hq hv)

end OpenvmSim
