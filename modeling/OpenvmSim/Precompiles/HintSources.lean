import OpenvmSim.Base.Provenance
import OpenvmSim.Precompiles.HintReads

/-! Where the bytes of a hint read come from.

A hint read that asks for more than the hint stream holds is filled up with zeros, where it
should be an error as HintInput is on an empty input queue. If every read of a run finds what
it asks for, each byte the guest receives was queued before by a hint producer, and reaches it
once and in order. -/
namespace OpenvmSim.Precompiles
open Rv32im

section Word
variable (host : Host) (insn : Word) (s : Machine)

/-- The hint stream holds as many bytes as the word asks for. -/
def FindsEnough : Prop := hintLength insn s.cpu ≤ s.handler.io.hintStream.length

/-- A hint read delivers the first bytes of the hint stream and removes them, or there are too
few: then it returns an error and changes nothing. -/
structure ReadsHonestly : Prop where
  delivers : FindsEnough insn s → (handle host insn).run s = .ok .continue (advanced s.cpu.pc
    ((s.setHint (s.handler.io.hintStream.drop (hintLength insn s.cpu))).store
      (s.cpu.readReg (rd insn)) (s.handler.io.hintStream.take (hintLength insn s.cpu))))
  reports : ¬FindsEnough insn s → ∃ e, (handle host insn).run s = .error (.err e) s

variable {insn}

/-- A hint read is honest exactly if it finds enough. -/
theorem readsHonestly_iff (h : IsHintRead insn) :
    ReadsHonestly host insn s ↔ FindsEnough insn s := by
  have hrun : (handle host insn).run s = _ := hintRead_run h s
  constructor
  · intro hr
    by_contra hshort
    obtain ⟨e, he⟩ := hr.reports hshort
    cases hrun.symm.trans he
  · refine fun henough => ⟨fun _ => ?_, fun hshort => absurd henough hshort⟩
    rwa [afterRead, IoState.readHintBytes_eq henough] at hrun

end Word

/-! ### Histories -/

/-- The bytes a hint read of the state delivers, in the state's next step. -/
def received (u : Machine) : List Byte :=
  if IsHintRead u.cpu.fetch then
    (IoState.readHintBytes (hintLength u.cpu.fetch u.cpu) u.handler.io.hintStream).1
  else []

/-- The bytes a hint producer queues, in the state's next step. -/
def queued (host : Host) (u : Machine) : List Byte :=
  if IsProducer u.cpu.fetch then (payload host u.cpu.fetch u).getD [] else []

/-- In a run every hint read is honest, what it delivers is a piece of what was queued before
it, and all of it together is what was queued with gaps, in the same order. -/
structure NothingMadeUp (host : Host) (trace : List Machine) : Prop where
  honest : ∀ u ∈ trace, IsHintRead u.cpu.fetch → ReadsHonestly host u.cpu.fetch u
  earlier : ∀ before u after, trace = before ++ u :: after →
    received u <:+: before.flatMap (queued host)
  once : (trace.flatMap received).Sublist (trace.flatMap (queued host))

section Run
variable {host : Host} {s t : Machine} {trace : List Machine}

theorem not_read_of_producer {insn : Word} (hp : IsProducer insn) : ¬IsHintRead insn := by
  intro hr
  have h0 : IsCustom0 insn F3_HINT := hr.elim And.left And.left
  obtain h | h | h | h := hp
  · exact absurd (h.1.2.symm.trans h0.2) (by decide)
  · exact custom1_not_custom0 h.1 h0
  · exact custom1_not_custom0 h.1 h0
  · exact custom1_not_custom0 h h0

/-- The state after a hint read. -/
theorem iteration_hintRead (h : Iteration (customOps host) s t) (hr : IsHintRead s.cpu.fetch) :
    t.handler.io.hintStream = s.handler.io.hintStream.drop (hintLength s.cpu.fetch s.cpu) := by
  obtain ⟨u, hu, rfl⟩ := iteration_iff.mp h
  cases hu.symm.trans (hintRead_step hr)
  rw [handler_countStep, handler_advanced, afterRead, Sim.handler_store, Sim.io_setHint,
    IoState.readHintBytes_padded]

/-- One iteration goes on with the account. -/
theorem accounted_iteration {put taken : List Byte} (h : Iteration (customOps host) s t)
    (henough : IsHintRead s.cpu.fetch → FindsEnough s.cpu.fetch s)
    (ha : Accounted put taken s.handler.io.hintStream) :
    Accounted (put ++ queued host s) (taken ++ received s) t.handler.io.hintStream := by
  by_cases hp : IsProducer s.cpu.fetch
  · obtain ⟨bs, hb, hhint⟩ := hint_of_iteration h hp
    have hr : ¬IsHintRead s.cpu.fetch := fun hr => not_read_of_producer hp hr
    rw [queued, if_pos hp, hb, Option.getD_some, received, if_neg hr, List.append_nil, hhint]
    split
    · exact ha.push bs
    · exact ha.replace bs
  · rw [queued, if_neg hp, List.append_nil]
    by_cases hr : IsHintRead s.cpu.fetch
    · rw [received, if_pos hr, IoState.readHintBytes_eq (henough hr), iteration_hintRead h hr]
      exact ha.take _
    · rw [received, if_neg hr, List.append_nil, (iteration_quiet h (not_or.mpr ⟨hp, hr⟩)).1]
      exact ha

/-- A run goes on with the account. -/
theorem accounted_run {put taken : List Byte} (h : Run (customOps host) s trace t)
    (henough : ∀ u ∈ trace, IsHintRead u.cpu.fetch → FindsEnough u.cpu.fetch u)
    (ha : Accounted put taken s.handler.io.hintStream) :
    Accounted (put ++ trace.flatMap (queued host)) (taken ++ trace.flatMap received)
      t.handler.io.hintStream := by
  induction h generalizing put taken with
  | done s => rwa [List.flatMap_nil, List.flatMap_nil, List.append_nil, List.append_nil]
  | @next s s₁ t trace hit _ ih =>
    have hfirst := accounted_iteration hit (henough s List.mem_cons_self) ha
    have hrest := ih (fun u hu => henough u (List.mem_cons_of_mem _ hu)) hfirst
    rwa [List.append_assoc, List.append_assoc, ← List.flatMap_cons, ← List.flatMap_cons] at hrest

/-- In a run from an empty hint stream nothing is made up if every hint read finds enough. -/
theorem nothingMadeUp (h : Run (customOps host) s trace t) (hs : s.handler.io.hintStream = [])
    (henough : ∀ u ∈ trace, IsHintRead u.cpu.fetch → FindsEnough u.cpu.fetch u) :
    NothingMadeUp host trace := by
  have hstart : Accounted [] [] s.handler.io.hintStream := hs ▸ .nil
  refine ⟨fun u hu hr => (readsHonestly_iff host u hr).mpr (henough u hu hr),
    fun before u after htrace => ?_, (accounted_run h henough hstart).taken_sublist⟩
  subst htrace
  obtain ⟨v, hbefore, hafter⟩ := h.split
  obtain _ | ⟨-, -⟩ := hafter
  unfold received
  split
  · next hr =>
    have haccount := accounted_run hbefore
      (fun w hw => henough w (List.mem_append_left _ hw)) hstart
    rw [IoState.readHintBytes_eq (henough u (by simp) hr)]
    exact haccount.take_infix _
  · exact List.nil_infix

end Run

/-- **A hint read is honest exactly when the hint stream holds what it asks for, in any state;
and in a run from an empty hint stream nothing is made up exactly when every hint read of the
run finds enough.** -/
theorem hint_reads_iff (host : Host) :
    (∀ insn s, IsHintRead insn → (ReadsHonestly host insn s ↔ FindsEnough insn s)) ∧
      ∀ s t trace, Run (customOps host) s trace t → s.handler.io.hintStream = [] →
        (NothingMadeUp host trace ↔
          ∀ u ∈ trace, IsHintRead u.cpu.fetch → FindsEnough u.cpu.fetch u) := by
  refine ⟨fun insn s => readsHonestly_iff host s, fun s t trace hrun hs => ⟨?_, nothingMadeUp hrun hs⟩⟩
  exact fun h u hu hr => (readsHonestly_iff host u hr).mp (h.honest u hu hr)

/-- The run of the reader. -/
theorem hint_reads_iff_reader : NothingMadeUp Host.constant [reader, readerAfter 1, readerAfter 2] := by
  have hrun : Run (customOps Host.constant) reader [reader, readerAfter 1, readerAfter 2]
      (readerAfter 3) :=
    .next (reader_iteration 0) (.next (reader_iteration 1) (.next (reader_iteration 2) (.done _)))
  refine ((hint_reads_iff Host.constant).2 _ _ _ hrun rfl).mpr ?_
  have hfirst : ¬IsHintRead reader.cpu.fetch := by decide +kernel
  have hsecond : ¬IsHintRead (readerAfter 1).cpu.fetch := by decide +kernel
  have hthird : FindsEnough (readerAfter 2).cpu.fetch (readerAfter 2) := by
    unfold FindsEnough
    decide +kernel
  intro u hu hr
  simp only [List.mem_cons, List.not_mem_nil, or_false] at hu
  obtain rfl | rfl | rfl := hu
  · exact absurd hr hfirst
  · exact absurd hr hsecond
  · exact hthird

/-- A guest whose first word is HINT_STOREW. -/
def hasty : Machine := Sim.loaded [storewWord] [[]]

/-- It obtains four zeros that nobody queued. -/
theorem hint_read_made_up : hasty.handler = PrecompileHandler.new [] ∧
    IsHintRead hasty.cpu.fetch ∧ hasty.handler.io.hintStream = [] ∧
    received hasty = [0#8, 0#8, 0#8, 0#8] ∧
    ∀ host, ¬ReadsHonestly host hasty.cpu.fetch hasty := by
  have hread : IsHintRead hasty.cpu.fetch := by decide +kernel
  refine ⟨rfl, hread, rfl, by decide +kernel, fun host hr => ?_⟩
  have henough := (readsHonestly_iff host hasty hread).mp hr
  have hshort : ¬hintLength hasty.cpu.fetch hasty.cpu ≤ hasty.handler.io.hintStream.length := by
    decide +kernel
  exact hshort henough

end OpenvmSim.Precompiles
