import OpenvmSim.Precompiles.Step

/-! The hint stream after a hint producer.

HintInput and the two modular hints replace the stream by their payload. The final
exponentiation hints add theirs at the end, so that they too replace the stream only
when nothing was left in it. -/
namespace OpenvmSim.Precompiles
open Rv32im

/-- The words that fill the hint stream. -/
def IsProducer (insn : Word) : Prop :=
  IsHintInput insn ∨ IsHintNonQr insn ∨ IsHintSqrt insn ∨ IsPairing insn

instance (insn : Word) : Decidable (IsProducer insn) := inferInstanceAs (Decidable (_ ∨ _))

section Producer
variable {host : Host} {insn : Word} {s s' : Machine}

theorem hint_of_effect (h : WordEffect host insn s s') (hp : IsProducer insn) :
    ∃ bs, payload host insn s = some bs ∧
      s'.handler.io.hintStream = if IsPairing insn then s.handler.io.hintStream ++ bs else bs := by
  have h0 : ∀ {f3 f3'}, IsCustom0 insn f3 → ¬IsCustom1 insn f3' :=
    fun h0 h1 => custom1_not_custom0 h1 h0
  obtain hi | hn | hs | hp := hp
  · rw [WordEffect, kindOf_hintInput _ hi] at h
    obtain _ | _ | _ | _ | _ | _ | _ | ⟨-, -, hb⟩ := h
    exact ⟨_, hb, (if_neg (h0 hi.1)).symm⟩
  · rw [WordEffect, kindOf_nonQr _ hn] at h
    obtain _ | _ | _ | _ | _ | _ | _ | _ | ⟨-, hb⟩ := h
    exact ⟨_, hb, (if_neg fun hp => absurd (hn.1.2.symm.trans hp.2) (by decide)).symm⟩
  · rw [WordEffect, kindOf_sqrt _ hs] at h
    obtain _ | _ | _ | _ | _ | _ | _ | _ | ⟨-, hb⟩ := h
    exact ⟨_, hb, (if_neg fun hp => absurd (hs.1.2.symm.trans hp.2) (by decide)).symm⟩
  · rw [WordEffect, kindOf_pairing _ hp] at h
    obtain _ | _ | _ | _ | _ | _ | _ | _ | _ | ⟨-, hb⟩ := h
    exact ⟨_, hb, (if_pos hp).symm⟩

/-- A producer is a custom word. -/
theorem IsProducer.isCustom (h : IsProducer insn) : IsCustom insn := by
  obtain h | h | h | h := h
  · exact .inl h.1.1
  · exact .inr h.1.1
  · exact .inr h.1.1
  · exact .inr h.1

theorem hint_of_iteration (h : Iteration (customOps host) s s') (hp : IsProducer s.cpu.fetch) :
    ∃ bs, payload host s.cpu.fetch s = some bs ∧
      s'.handler.io.hintStream =
        if IsPairing s.cpu.fetch then s.handler.io.hintStream ++ bs else bs := by
  obtain ⟨hc, -⟩ | ⟨-, s₁, he, rfl⟩ := iteration_effect h
  · exact absurd hp.isCustom hc
  · obtain ⟨bs, hb, hhint⟩ := hint_of_effect he hp
    refine ⟨bs, hb, ?_⟩
    rw [← hhint, handler_countStep, handler_advanced]

/-- If the next word is a hint producer and succeeds, the hint stream is its payload and
nothing else. -/
def Replaces (host : Host) (s : Machine) : Prop :=
  ∀ s', Iteration (customOps host) s s' → IsProducer s.cpu.fetch →
    payload host s.cpu.fetch s = some s'.handler.io.hintStream

theorem replaces_iff (h : Iteration (customOps host) s s') :
    Replaces host s ↔ (IsPairing s.cpu.fetch → s.handler.io.hintStream = []) := by
  constructor
  · intro hr hp
    have hprod : IsProducer s.cpu.fetch := .inr (.inr (.inr hp))
    obtain ⟨bs, hb, hhint⟩ := hint_of_iteration h hprod
    have hsame : bs = s'.handler.io.hintStream := Option.some.inj (hb.symm.trans (hr s' h hprod))
    rw [if_pos hp, ← hsame] at hhint
    exact List.self_eq_append_left.mp hhint
  · intro hempty t ht hprod
    obtain ⟨bs, hb, hhint⟩ := hint_of_iteration ht hprod
    rw [hb, hhint]
    by_cases hp : IsPairing s.cpu.fetch
    · rw [if_pos hp, hempty hp, List.nil_append]
    · rw [if_neg hp]

/-- **In a run every hint producer replaces the hint stream by its own payload if and
only if every final exponentiation hint of the run found the stream empty.** -/
theorem run_replaces_iff (host : Host) (s t : Machine) (trace : List Machine)
    (h : Run (customOps host) s trace t) :
    (∀ u ∈ trace, Replaces host u) ↔
      ∀ u ∈ trace, IsPairing u.cpu.fetch → u.handler.io.hintStream = [] := by
  have hiff : ∀ u ∈ trace,
      (Replaces host u ↔ (IsPairing u.cpu.fetch → u.handler.io.hintStream = [])) := by
    intro u hu
    obtain ⟨v, hv⟩ := h.iteration_of_mem hu
    exact replaces_iff hv
  exact ⟨fun hr u hu => (hiff u hu).mp (hr u hu), fun hr u hu => (hiff u hu).mpr (hr u hu)⟩

end Producer

/-- `.insn i 0x0b, 3, x0, x0, 0` -/
def hintInputWord : Word := F3_PHANTOM <<< 12 ||| OPCODE_CUSTOM_0

/-- HintFinalExp of the first pairing, with both descriptors at address zero. -/
def finalExpWord : Word := F3_PAIRING <<< 12 ||| OPCODE_CUSTOM_1

/-- A machine that takes in an empty stream and then, without reading it, asks for the
hint of a pairing with no points. -/
def unread : Machine := Sim.loaded [hintInputWord, finalExpWord] [[]]

theorem unread_next : (unread.next (customOps Host.constant)).isSome := by decide

/-- The machine after it took in the stream. -/
def halfway : Machine := (unread.next (customOps Host.constant)).get unread_next

theorem unread_iteration : Iteration (customOps Host.constant) unread halfway :=
  (Option.some_get unread_next).symm

theorem run_replaces_iff_unread :
    Run (customOps Host.constant) unread [unread] halfway ∧
      ((∀ u ∈ [unread], Replaces Host.constant u) ↔
        ∀ u ∈ [unread], IsPairing u.cpu.fetch → u.handler.io.hintStream = []) :=
  have hrun := Run.next unread_iteration (.done halfway)
  ⟨hrun, run_replaces_iff Host.constant _ _ _ hrun⟩

theorem halfway_next : (halfway.next (customOps Host.constant)).isSome := by decide

/-- The pairing hint goes behind the four unread bytes. -/
theorem final_exp_appends :
    ∃ trace t, Run (customOps Host.constant) unread trace t ∧
      ∃ u ∈ trace, u.handler.io.hintStream = [0#8, 0#8, 0#8, 0#8] ∧ ¬Replaces Host.constant u := by
  obtain ⟨t, ht⟩ := Option.isSome_iff_exists.mp halfway_next
  have hhint : halfway.handler.io.hintStream = [0#8, 0#8, 0#8, 0#8] := by decide
  have hpairing : IsPairing halfway.cpu.fetch := by decide
  refine ⟨_, t, .next unread_iteration (.next ht (.done t)), halfway, by simp, hhint, fun hr => ?_⟩
  have hempty := (replaces_iff ht).mp hr hpairing
  rw [hhint] at hempty
  cases hempty

end OpenvmSim.Precompiles
