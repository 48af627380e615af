import OpenvmSim.Rv32im.Atomicity

/-! Runs of the interpreter loop.

A `Run` is the list of states its iterations start from; each iteration is a step
that continues, and the count after it. What a step preserves, every state of a run
has (`Run.induct`), and where every step keeps the counter, a run counts its iterations
(`Run.steps_of_counts`). -/
namespace OpenvmSim.Rv32im
variable {H : Type} {handler : CustomOpHandler H}

def Sim.countStep (s : Sim H) : Sim H := { s with cpu := { s.cpu with steps := s.cpu.steps + 1 } }

@[simp] theorem pc_countStep (s : Sim H) : s.countStep.cpu.pc = s.cpu.pc := rfl
@[simp] theorem mem_countStep (s : Sim H) : s.countStep.cpu.mem = s.cpu.mem := rfl
@[simp] theorem handler_countStep (s : Sim H) : s.countStep.handler = s.handler := rfl

/-- The state after one iteration of the loop, if the step continues. -/
def Sim.next (handler : CustomOpHandler H) (s : Sim H) : Option (Sim H) :=
  match (Cpu.step handler).run s with
  | .ok .continue t => some t.countStep
  | _ => none

/-- One iteration of the loop. -/
def Iteration (handler : CustomOpHandler H) (s s' : Sim H) : Prop := s.next handler = some s'

theorem iteration_iff {s s' : Sim H} :
    Iteration handler s s' ↔
      ∃ t, (Cpu.step handler).run s = .ok .continue t ∧ s' = t.countStep := by
  unfold Iteration Sim.next
  constructor
  · intro h
    split at h
    · next t ht =>
      obtain rfl : t.countStep = s' := Option.some.inj h
      exact ⟨t, ht, rfl⟩
    · cases h
  · rintro ⟨t, ht, rfl⟩
    rw [ht]

/-- Iterations one after the other, from the first state through the states listed to
the last state. -/
inductive Run (handler : CustomOpHandler H) : Sim H → List (Sim H) → Sim H → Prop where
  | done (s : Sim H) : Run handler s [] s
  | next {s s₁ s' : Sim H} {trace : List (Sim H)} (h : Iteration handler s s₁)
      (hrun : Run handler s₁ trace s') : Run handler s (s :: trace) s'

/-- Every state of a run is followed by another. -/
theorem Run.iteration_of_mem {s t u : Sim H} {trace : List (Sim H)} (h : Run handler s trace t)
    (hu : u ∈ trace) : ∃ v, Iteration handler u v := by
  induction h with
  | done s => cases hu
  | next hit _ ih =>
    obtain rfl | hu := List.mem_cons.mp hu
    · exact ⟨_, hit⟩
    · exact ih hu

/-- A run may be taken apart anywhere. -/
theorem Run.split {s t : Sim H} {before after : List (Sim H)}
    (h : Run handler s (before ++ after) t) :
    ∃ u, Run handler s before u ∧ Run handler u after t := by
  induction before generalizing s with
  | nil => exact ⟨s, .done s, h⟩
  | cons u before ih =>
    obtain _ | ⟨hit, hrun⟩ := h
    obtain ⟨v, hbefore, hafter⟩ := ih hrun
    exact ⟨v, .next hit hbefore, hafter⟩

/-- The machine after `n` iterations, or where it stopped. -/
def Sim.after (handler : CustomOpHandler H) (s : Sim H) : ℕ → Sim H
  | 0 => s
  | n + 1 => ((s.after handler n).next handler).getD (s.after handler n)

theorem iteration_after {s : Sim H} {n : ℕ} (h : ((s.after handler n).next handler).isSome) :
    Iteration handler (s.after handler n) (s.after handler (n + 1)) := by
  obtain ⟨t, ht⟩ := Option.isSome_iff_exists.mp h
  rw [Iteration, Sim.after, ht]
  rfl

/-- Iterations one after the other are a run. -/
theorem run_range {n : ℕ} {f : ℕ → Sim H} (h : ∀ k < n, Iteration handler (f k) (f (k + 1))) :
    Run handler (f 0) ((List.range n).map f) (f n) := by
  induction n generalizing f with
  | zero => exact .done _
  | succ n ih =>
    rw [List.range_succ_eq_map, List.map_cons, List.map_map]
    exact .next (h 0 n.succ_pos) (ih fun k hk => h (k + 1) (by omega))

theorem run_after {s : Sim H} {n : ℕ} (h : ∀ k < n, ((s.after handler k).next handler).isSome) :
    Run handler s ((List.range n).map (s.after handler)) (s.after handler n) :=
  run_range (f := s.after handler) fun k hk => iteration_after (h k hk)

/-- What every iteration preserves holds in the last state of a run. -/
theorem Run.induct {P : Sim H → Prop} (hstep : ∀ s s', Iteration handler s s' → P s → P s')
    {s s' : Sim H} {trace : List (Sim H)} (h : Run handler s trace s') (hs : P s) : P s' := by
  induction h with
  | done s => exact hs
  | next hit _ ih => exact ih (hstep _ _ hit hs)

/-- The iteration from a state is counted once. -/
def Counts (handler : CustomOpHandler H) (s : Sim H) : Prop :=
  ∀ s', Iteration handler s s' → s'.cpu.steps = s.cpu.steps + 1

theorem counts_of_step {s : Sim H}
    (h : ∀ t, (Cpu.step handler).run s = .ok .continue t → t.cpu.steps = s.cpu.steps) :
    Counts handler s := by
  intro s' hit
  obtain ⟨t, ht, rfl⟩ := iteration_iff.mp hit
  rw [← h t ht]
  rfl

theorem CustomOpHandler.Careful.counts (hh : handler.Careful) (s : Sim H) : Counts handler s :=
  counts_of_step fun _ ht => (hh.step s).of_ok ht

theorem iteration_steps (hh : handler.Careful) {s s' : Sim H} (h : Iteration handler s s') :
    s'.cpu.steps = s.cpu.steps + 1 :=
  hh.counts s s' h

theorem Run.steps_of_counts {s s' : Sim H} {trace : List (Sim H)} (h : Run handler s trace s')
    (hc : ∀ u ∈ trace, Counts handler u) : s'.cpu.steps = s.cpu.steps + trace.length := by
  induction h with
  | done s => rfl
  | next hit _ ih =>
    have hrest := ih fun u hu => hc u (List.mem_cons_of_mem _ hu)
    rw [hrest, hc _ List.mem_cons_self _ hit, List.length_cons]
    ring

theorem Run.steps_eq (hh : handler.Careful) {s s' : Sim H} {trace : List (Sim H)}
    (h : Run handler s trace s') : s'.cpu.steps = s.cpu.steps + trace.length :=
  h.steps_of_counts fun u _ => hh.counts u

end OpenvmSim.Rv32im
