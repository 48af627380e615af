import OpenvmSim.Base.SparseArray
import OpenvmSim.Precompiles.Step
import OpenvmSim.Rv32im.Resume

/-! The public output of a run.

The REVEAL words of a run are the only ones that write to the output, and they write it
as a sparse array: it ends where the furthest of them ends, and each of its bytes is the
one the last REVEAL over it wrote there, or zero. -/
namespace OpenvmSim.Precompiles
open Rv32im

/-- The offset and the value that the next word writes to the output, if it is a REVEAL. -/
def revealOf (s : Machine) : Option (ℕ × Word) :=
  if IsReveal s.cpu.fetch then
    some ((s.cpu.readReg (rd s.cpu.fetch) + imm12 s.cpu.fetch).toNat,
      s.cpu.readReg (rs1 s.cpu.fetch))
  else none

/-- The writes of a run in order. -/
def reveals (trace : List Machine) : List (ℕ × Word) := trace.filterMap revealOf

/-- The bytes of the output that a write reaches. -/
def Reaches (w : ℕ × Word) (i : ℕ) : Prop := w.1 ≤ i ∧ i < w.1 + 4

/-- The output is what the writes leave of a sparse array, the last one over a byte
deciding it. -/
structure LastWriterWins (writes : List (ℕ × Word)) (output : List Byte) : Prop where
  length_eq : output.length = (writes.map fun w => w.1 + 4).foldr max 0
  last : ∀ before o v after i, writes = before ++ (o, v) :: after → Reaches (o, v) i →
    (∀ w ∈ after, ¬Reaches w i) → output[i]? = some (v.extractLsb' (8 * (i - o)) 8)
  rest : ∀ i < output.length, (∀ w ∈ writes, ¬Reaches w i) → output[i]? = some 0#8

/-! ### The writes as bytes -/

/-- A write of a word as a write of its bytes. -/
def wordWrite (w : ℕ × Word) : ℕ × List Byte := (w.1, LittleEndian.ofNat 4 w.2.toNat)

theorem covers_wordWrite {w : ℕ × Word} {i : ℕ} : Sparse.Covers (wordWrite w) i ↔ Reaches w i := by
  rw [Sparse.Covers, wordWrite, LittleEndian.length_ofNat, Reaches]

theorem extent_wordWrite (writes : List (ℕ × Word)) :
    Sparse.extent (writes.map wordWrite) = (writes.map fun w => w.1 + 4).foldr max 0 := by
  rw [Sparse.extent, List.map_map]
  simp [wordWrite, Function.comp_def]

theorem not_covers_wordWrite {writes : List (ℕ × Word)} {i : ℕ} (h : ∀ w ∈ writes, ¬Reaches w i) :
    ∀ w ∈ writes.map wordWrite, ¬Sparse.Covers w i :=
  List.forall_mem_map.mpr fun w hw => mt covers_wordWrite.mp (h w hw)

theorem lastWriterWins_puts (writes : List (ℕ × Word)) :
    LastWriterWins writes (Sparse.puts 0#8 [] (writes.map wordWrite)) := by
  constructor
  · rw [Sparse.length_puts_nil, extent_wordWrite]
  · intro before o v after i hsplit hreach hafter
    subst hsplit
    have hcovers := covers_wordWrite.mpr hreach
    have hmem : wordWrite (o, v) ∈ (before ++ (o, v) :: after).map wordWrite :=
      List.mem_map_of_mem (by simp)
    have hbyte : i - o < 4 := Nat.sub_lt_left_of_lt_add hreach.1 hreach.2
    rw [Sparse.getElem?_puts_nil (hcovers.2.trans_le (Sparse.le_extent hmem)), List.map_append,
      List.map_cons, Sparse.getD_puts_last hcovers (not_covers_wordWrite hafter)]
    show some ((LittleEndian.ofNat 4 v.toNat).getD (i - o) 0#8) = _
    rw [List.getD_eq_getElem?_getD, LittleEndian.getElem?_ofNat_word hbyte, Option.getD_some]
  · intro i hi hfree
    rw [Sparse.length_puts_nil] at hi
    rw [Sparse.getElem?_puts_nil hi, Sparse.getD_puts_of_not_covers (not_covers_wordWrite hfree)]
    rfl

/-! ### Runs -/

section Run
variable {host : Host} {s s' : Machine} {trace : List Machine}

theorem reveals_of_not_reveal (h : ¬IsReveal s.cpu.fetch) : reveals [s] = [] := by
  simp [reveals, revealOf, h]

/-- One iteration: the write of a REVEAL, and nothing for any other word. -/
theorem iteration_output (h : Iteration (customOps host) s s') :
    s'.handler.io.output =
      Sparse.puts 0#8 s.handler.io.output ((reveals [s]).map wordWrite) := by
  by_cases hr : IsReveal s.cpu.fetch
  · have hwrites : reveals [s] = [((s.cpu.readReg (rd s.cpu.fetch) + imm12 s.cpu.fetch).toNat,
        s.cpu.readReg (rs1 s.cpu.fetch))] := by
      simp [reveals, revealOf, hr]
    obtain ⟨hc, -⟩ | ⟨-, s₁, he, rfl⟩ := iteration_effect h
    · exact absurd (.inl hr.1) hc
    · rw [WordEffect, kindOf_custom0 _ hr] at he
      rw [handler_countStep, handler_advanced, hwrites]
      cases he
      rfl
  · rw [reveals_of_not_reveal hr]
    obtain ⟨-, hh⟩ | ⟨-, s₁, he, rfl⟩ := iteration_effect h
    · rw [hh]
      rfl
    · rw [handler_countStep, handler_advanced]
      obtain ⟨k, he⟩ : ∃ k, Effect host s.cpu.fetch s k s₁ := ⟨_, he⟩
      cases he with
      | reveal hk => exact absurd hk hr
      | hintInput => rfl
      | _ => simp [Sparse.puts]

theorem run_output (h : Run (customOps host) s trace s') :
    s'.handler.io.output =
      Sparse.puts 0#8 s.handler.io.output ((reveals trace).map wordWrite) := by
  induction h with
  | done s => rfl
  | @next s s₁ s' trace hit _ ih =>
    have hsplit : reveals (s :: trace) = reveals [s] ++ reveals trace :=
      List.filterMap_append (l := [s])
    rw [ih, iteration_output hit, hsplit, List.map_append, Sparse.puts_append]

/-- However a run ends, its last step leaves the output as it was. -/
theorem ends_output {n : ℕ} {r : EStateM.Result (Stop CpuError) Machine Word}
    (h : Ends (customOps host) n s r) :
    (stateAfter r).handler.io.output = s.handler.io.output := by
  cases h with
  | limit h => rfl
  | @terminated code t _ h =>
    by_cases hc : IsCustom s.cpu.fetch
    · rw [step_custom _ hc] at h
      obtain _ | _ := (handle_atomic host s s.cpu.fetch).of_ok h
      rfl
    · exact congrArg (fun handler => handler.io.output) (step_plain_handler hc h)
  | @failed e t _ h =>
    have hsame : t = s := ((customOps_careful host).step s).of_error h
    rw [stateAfter_error, hsame]

end Run

/-- **After any run that starts with an empty output, the output is the sparse array of the
REVEAL writes of the run, the last one over a byte deciding it; the step that ends the run
does not touch it. No word but REVEAL changes the output, and none makes it shorter.** -/
theorem output_last_writer (host : Host) (s s' : Machine) (trace : List Machine)
    (h : Run (customOps host) s trace s') (hempty : s.handler.io.output = []) :
    LastWriterWins (reveals trace) s'.handler.io.output ∧
      (∀ n r, Ends (customOps host) n s' r →
        (stateAfter r).handler.io.output = s'.handler.io.output) ∧
      ∀ u v, Iteration (customOps host) u v →
        (¬IsReveal u.cpu.fetch → v.handler.io.output = u.handler.io.output) ∧
          u.handler.io.output.length ≤ v.handler.io.output.length := by
  refine ⟨?_, fun n r => ends_output, fun u v hit => ⟨fun hr => ?_, ?_⟩⟩
  · rw [run_output h, hempty]
    exact lastWriterWins_puts (reveals trace)
  · rw [iteration_output hit, reveals_of_not_reveal hr]
    rfl
  · rw [iteration_output hit, Sparse.length_puts]
    exact le_max_left _ _

/-- `.insn i 0x0b, 2, x6, x5, imm` -/
def revealWord (imm : BitVec 12) : Word :=
  imm.setWidth 32 <<< 20 ||| 5#32 <<< 15 ||| F3_REVEAL <<< 12 ||| 6#32 <<< 7 ||| OPCODE_CUSTOM_0

/-- A machine about to reveal a word at offset 1 and then again at offset 3. -/
def revealing : Machine :=
  ((Sim.loaded [revealWord 0#12, revealWord 2#12] []).setReg 5#5 0x04030201#32).setReg 6#5 1#32

theorem revealing_next : (revealing.next (customOps Host.constant)).isSome := by decide

/-- The machine after the first of the two. -/
def revealed : Machine := (revealing.next (customOps Host.constant)).get revealing_next

theorem revealed_next : (revealed.next (customOps Host.constant)).isSome := by decide

theorem revealed_writes :
    reveals [revealing, revealed] = [(1, 0x04030201#32), (3, 0x04030201#32)] := by decide

theorem output_last_writer_overlap :
    ∃ t, Run (customOps Host.constant) revealing [revealing, revealed] t ∧
      LastWriterWins [(1, 0x04030201#32), (3, 0x04030201#32)] t.handler.io.output := by
  obtain ⟨t, ht⟩ := Option.isSome_iff_exists.mp revealed_next
  have hfirst : Iteration (customOps Host.constant) revealing revealed :=
    (Option.some_get revealing_next).symm
  have hrun := Run.next hfirst (.next ht (.done t))
  have hwins := (output_last_writer Host.constant _ _ _ hrun rfl).1
  rw [revealed_writes] at hwins
  exact ⟨t, hrun, hwins⟩

end OpenvmSim.Precompiles
