import OpenvmSim.Rv32im.Run

/-! Cutting a run and going on with it.

`run_unfold` is the loop of `Cpu.run` without the bound of the model: one iteration, then
the same run. Everything else follows it. `run_spec` says where a run ends: after the
iterations of a `Run` whose states are below the limit, at a state that is at the limit or
whose step does not continue. `run_eq` says what `Cpu.run` returns: it follows the run to the step
that terminates, and its own bound never cuts it off. -/
namespace OpenvmSim.Rv32im

section Loop
variable {H : Type} {handler : CustomOpHandler H} {s t : Sim H} {trace : List (Sim H)} {n m : ℕ}

/-- One iteration of the loop, and the same run from there. -/
theorem run_of_counts {s : Sim H} (hc : Counts handler s) (n : ℕ) :
    (Cpu.run handler n).run s =
      if n ≤ s.cpu.steps then .error (.err (.stepLimitExceeded s.cpu.pc)) s
      else match (Cpu.step handler).run s with
        | .ok .continue t => (Cpu.run handler n).run t.countStep
        | .ok (.terminated code) t => .ok code t
        | .error e t => .error e t := by
  show (Cpu.runLoop handler n (n - s.cpu.steps + 1)).run s = _
  rw [Cpu.runLoop, EStateM.run_bind, EStateM.run_get]
  show (if n ≤ s.cpu.steps then _ else _ : SimM H Word).run s = _
  split
  · rfl
  · next hlt =>
    rw [EStateM.run_bind]
    cases hstep : (Cpu.step handler).run s with
    | error e t => rfl
    | ok o t =>
      cases o with
      | terminated code => rfl
      | «continue» =>
        have hcount : t.cpu.steps + 1 = s.cpu.steps + 1 :=
          hc t.countStep (iteration_iff.mpr ⟨t, hstep, rfl⟩)
        have hbound : n - s.cpu.steps = n - (t.cpu.steps + 1) + 1 := by omega
        rw [hbound]
        rfl

theorem run_unfold (hh : handler.Careful) (s : Sim H) (n : ℕ) :
    (Cpu.run handler n).run s =
      if n ≤ s.cpu.steps then .error (.err (.stepLimitExceeded s.cpu.pc)) s
      else match (Cpu.step handler).run s with
        | .ok .continue t => (Cpu.run handler n).run t.countStep
        | .ok (.terminated code) t => .ok code t
        | .error e t => .error e t :=
  run_of_counts (hh.counts s) n

theorem run_at_limit (h : n ≤ s.cpu.steps) :
    (Cpu.run handler n).run s = .error (.err (.stepLimitExceeded s.cpu.pc)) s := by
  show (Cpu.runLoop handler n (n - s.cpu.steps + 1)).run s = _
  rw [Cpu.runLoop, EStateM.run_bind, EStateM.run_get]
  show (if n ≤ s.cpu.steps then _ else _ : SimM H Word).run s = _
  rw [if_pos h]
  rfl

theorem run_iteration (hc : Counts handler s) (hlt : s.cpu.steps < n) (h : Iteration handler s t) :
    (Cpu.run handler n).run s = (Cpu.run handler n).run t := by
  obtain ⟨u, hu, rfl⟩ := iteration_iff.mp h
  rw [run_of_counts hc, if_neg (Nat.not_le.mpr hlt), hu]

/-- A run whose states are below the limit may be cut off at its front. -/
theorem Run.cut_of_counts (h : Run handler s trace t) (hc : ∀ u ∈ trace, Counts handler u)
    (hlt : ∀ u ∈ trace, u.cpu.steps < n) :
    (Cpu.run handler n).run s = (Cpu.run handler n).run t := by
  induction h with
  | done s => rfl
  | next hit _ ih =>
    rw [run_iteration (hc _ List.mem_cons_self) (hlt _ List.mem_cons_self) hit]
    exact ih (fun u hu => hc u (List.mem_cons_of_mem _ hu))
      fun u hu => hlt u (List.mem_cons_of_mem _ hu)

theorem Run.cut (hh : handler.Careful) (h : Run handler s trace t)
    (hlt : ∀ u ∈ trace, u.cpu.steps < n) :
    (Cpu.run handler n).run s = (Cpu.run handler n).run t :=
  h.cut_of_counts (fun u _ => hh.counts u) hlt

/-- The step counter of a state is below that of the states after it. -/
theorem Run.steps_lt (h : Run handler s trace t) (hc : ∀ u ∈ trace, Counts handler u) {u : Sim H}
    (hu : u ∈ trace) : u.cpu.steps < t.cpu.steps := by
  obtain ⟨before, after, rfl⟩ := List.append_of_mem hu
  obtain ⟨v, -, hrest⟩ := h.split
  have hcount := hrest.steps_of_counts fun v hv => hc v (List.mem_append_right _ hv)
  cases hrest
  rw [List.length_cons] at hcount
  omega

/-- What the loop does at the state `t`, where it ends. -/
inductive Ends (handler : CustomOpHandler H) (n : ℕ) (t : Sim H) :
    EStateM.Result (Stop CpuError) (Sim H) Word → Prop where
  | limit (h : n ≤ t.cpu.steps) :
      Ends handler n t (.error (.err (.stepLimitExceeded t.cpu.pc)) t)
  | terminated {code : Word} {t' : Sim H} (hlt : t.cpu.steps < n)
      (h : (Cpu.step handler).run t = .ok (.terminated code) t') : Ends handler n t (.ok code t')
  | failed {e : Stop CpuError} {t' : Sim H} (hlt : t.cpu.steps < n)
      (h : (Cpu.step handler).run t = .error e t') : Ends handler n t (.error e t')

theorem Ends.steps_eq (hh : handler.Careful) {r : EStateM.Result (Stop CpuError) (Sim H) Word}
    (h : Ends handler n t r) : (stateAfter r).cpu.steps = t.cpu.steps := by
  cases h with
  | limit h => rfl
  | terminated hlt h => exact (hh.step t).of_ok h
  | failed hlt h => exact congrArg (fun s : Sim H => s.cpu.steps) ((hh.step t).of_error h)

/-- A run is its iterations, and what the loop does at the state they lead to. -/
theorem run_spec (hh : handler.Careful) (s : Sim H) (n : ℕ) :
    ∃ trace t, Run handler s trace t ∧ (∀ u ∈ trace, u.cpu.steps < n) ∧
      Ends handler n t ((Cpu.run handler n).run s) := by
  induction hk : n - s.cpu.steps generalizing s with
  | zero =>
    have hle : n ≤ s.cpu.steps := by omega
    refine ⟨[], s, .done s, nofun, ?_⟩
    rw [run_at_limit hle]
    exact .limit hle
  | succ k ih =>
    have hlt : s.cpu.steps < n := by omega
    rw [run_unfold hh, if_neg (Nat.not_le.mpr hlt)]
    cases hstep : (Cpu.step handler).run s with
    | error e t => exact ⟨[], s, .done s, nofun, .failed hlt hstep⟩
    | ok o t =>
      cases o with
      | terminated code => exact ⟨[], s, .done s, nofun, .terminated hlt hstep⟩
      | «continue» =>
        have hit : Iteration handler s t.countStep := iteration_iff.mpr ⟨t, hstep, rfl⟩
        have hcount := iteration_steps hh hit
        obtain ⟨trace, u, hrun, hbelow, hends⟩ := ih t.countStep (by omega)
        refine ⟨s :: trace, u, .next hit hrun, fun v hv => ?_, hends⟩
        obtain rfl | hv := List.mem_cons.mp hv
        · exact hlt
        · exact hbelow v hv

/-- The last state of a run whose other states are below the limit is at most at the limit,
or the first one. -/
theorem Run.steps_le (hh : handler.Careful) (h : Run handler s trace t)
    (hlt : ∀ u ∈ trace, u.cpu.steps < n) : t.cpu.steps ≤ max s.cpu.steps n := by
  induction h with
  | done s => exact le_max_left _ _
  | next hit _ ih =>
    have hle := ih fun u hu => hlt u (List.mem_cons_of_mem _ hu)
    have hcount := iteration_steps hh hit
    have hfirst := hlt _ List.mem_cons_self
    omega

/-- What ends a run below the limit ends it under a larger limit as well. -/
theorem Ends.mono {r : EStateM.Result (Stop CpuError) (Sim H) Word} (hnm : n ≤ m)
    (h : Ends handler n t r) (hlt : t.cpu.steps < n) : Ends handler m t r := by
  cases h with
  | limit h => exact absurd hlt (Nat.not_lt.mpr h)
  | terminated _ h => exact .terminated (hlt.trans_le hnm) h
  | failed _ h => exact .failed (hlt.trans_le hnm) h

theorem Ends.run_eq (hh : handler.Careful) {r : EStateM.Result (Stop CpuError) (Sim H) Word}
    (h : Ends handler n t r) : (Cpu.run handler n).run t = r := by
  rw [run_unfold hh]
  cases h with
  | limit h => rw [if_pos h]
  | terminated hlt h => rw [if_neg (Nat.not_le.mpr hlt), h]
  | failed hlt h => rw [if_neg (Nat.not_le.mpr hlt), h]

/-- A run that reaches, below the limit, a state whose step terminates is what
`Cpu.run` returns. -/
theorem run_eq (hh : handler.Careful) {t' : Sim H} {code : Word} (h : Run handler s trace t)
    (hlim : t.cpu.steps < n) (hterm : (Cpu.step handler).run t = .ok (.terminated code) t') :
    (Cpu.run handler n).run s = .ok code t' := by
  have hbelow : ∀ u ∈ trace, u.cpu.steps < n :=
    fun u hu => (h.steps_lt (fun v _ => hh.counts v) hu).trans hlim
  rw [h.cut hh hbelow]
  exact (Ends.terminated hlim hterm).run_eq hh

/-- A run cut at a smaller limit and gone on with is the run. -/
theorem run_resume (hh : handler.Careful) (hnm : n ≤ m) {s' : Sim H} {pc : Word}
    (h : (Cpu.run handler n).run s = .error (.err (.stepLimitExceeded pc)) s') :
    (Cpu.run handler m).run s' = (Cpu.run handler m).run s := by
  obtain ⟨trace, t, hrun, hbelow, hends⟩ := run_spec hh s n
  have hcut := hrun.cut hh fun u hu => (hbelow u hu).trans_le hnm
  have hs : s' = t := by
    rw [h] at hends
    cases hends with
    | limit _ => rfl
    | failed _ hstep => exact (hh.step t).of_error hstep
  rw [hcut, hs]

/-- A run that ends before its limit ends the same way under a larger one. -/
theorem run_mono (hh : handler.Careful) (hnm : n ≤ m)
    (h : ∀ pc s', (Cpu.run handler n).run s ≠ .error (.err (.stepLimitExceeded pc)) s') :
    (Cpu.run handler m).run s = (Cpu.run handler n).run s := by
  obtain ⟨trace, t, hrun, hbelow, hends⟩ := run_spec hh s n
  have hlt : t.cpu.steps < n := by
    by_contra hle
    exact h _ _ ((hrun.cut hh hbelow).trans (run_at_limit (Nat.not_lt.mp hle)))
  rw [hrun.cut hh fun u hu => (hbelow u hu).trans_le hnm]
  exact (hends.mono hnm hlt).run_eq hh

end Loop

end OpenvmSim.Rv32im
