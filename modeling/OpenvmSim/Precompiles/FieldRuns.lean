import OpenvmSim.Precompiles.Congruence
import OpenvmSim.Precompiles.SlotRuns

/-! Runs of modular words as programs in `ZMod p`.

The modular words of an entry are the operations of a program on residues. A run of them ends with
canonical numbers in all slots it has written (`run_field`). -/
namespace OpenvmSim.Precompiles
open Rv32im

/-- The operations that store a residue. -/
inductive FieldOp where
  | add | sub | mul | div
  deriving DecidableEq

namespace FieldOp

def code : FieldOp → Word
  | add => MOD_ADD
  | sub => MOD_SUB
  | mul => MOD_MUL
  | div => MOD_DIV

def value {F : Type} [Field F] : FieldOp → F → F → F
  | add, a, b => a + b
  | sub, a, b => a - b
  | mul, a, b => a * b
  | div, a, b => a / b

/-- The canonical number of the value. -/
def residue (p : ℕ) [Fact p.Prime] (op : FieldOp) (a b : ℕ) : ℕ := (op.value (a : ZMod p) b).val

/-- The operands a word has no result for: SUB takes away too much, DIV divides by zero. -/
def Stuck (p : ℕ) : FieldOp → ℕ → ℕ → Prop
  | sub, a, b => p + a < b
  | div, _, b => (b : ZMod p) = 0
  | _, _, _ => False

instance decidableStuck (p : ℕ) (op : FieldOp) (a b : ℕ) : Decidable (op.Stuck p a b) :=
  match op with
  | sub => inferInstanceAs (Decidable (p + a < b))
  | div => inferInstanceAs (Decidable ((b : ZMod p) = 0))
  | add | mul => inferInstanceAs (Decidable False)

theorem cast_residue (p : ℕ) [Fact p.Prime] (op : FieldOp) (a b : ℕ) :
    (op.residue p a b : ZMod p) = op.value (a : ZMod p) b := ZMod.natCast_zmod_val _

theorem residue_lt (p : ℕ) [Fact p.Prime] (op : FieldOp) (a b : ℕ) : op.residue p a b < p :=
  ZMod.val_lt _

theorem isArith_code (op : FieldOp) : IsArith op.code := by
  cases op <;> simp [code, IsArith]

end FieldOp

/-! ### The words -/

section Words
variable {ι : Type} {entry : ModulusEntry} {ptr : ι → Word} {host : Host} {s s' : Machine}
  {o : SlotOp ι FieldOp}

/-- The next word is an operation of an entry of the modular table on slots. -/
abbrev IsModularOp (entry : ModulusEntry) (ptr : ι → Word) (s : Machine) (o : SlotOp ι FieldOp) :
    Prop :=
  IsTableOp F3_MODULAR FieldOp.code PrecompileHandler.moduli entry ptr s o

variable [Fact entry.modulus.Prime]

/-- The calculation of a word that is not stuck. -/
theorem modularResult_eq {a b : ℕ} (h : ¬o.op.Stuck entry.modulus a b) :
    MemOp.modularResult o.op.code a b entry.modulus = .ok (some (o.op.residue entry.modulus a b)) := by
  cases hop : o.op with
  | add =>
    show some <$> BigUint.rem (a + b) entry.modulus = _
    rw [rem_eq_val, Nat.cast_add]
    rfl
  | sub =>
    rw [hop] at h
    show some <$> subOnce a b entry.modulus = _
    rw [subOnce_eq (Nat.le_of_not_lt h)]
    rfl
  | mul =>
    show some <$> BigUint.rem (a * b) entry.modulus = _
    rw [rem_eq_val, Nat.cast_mul]
    rfl
  | div =>
    rw [hop] at h
    show modDiv a b entry.modulus = _
    rw [modDiv_eq]
    exact congrArg Except.ok (if_neg h)

/-- The calculation of a word that is stuck. -/
theorem modularResult_stuck {a b : ℕ} (h : o.op.Stuck entry.modulus a b) :
    MemOp.modularResult o.op.code a b entry.modulus = .ok none ∨
      ∃ message, MemOp.modularResult o.op.code a b entry.modulus = .error (.panic message) := by
  cases hop : o.op with
  | add | mul =>
    rw [hop] at h
    exact h.elim
  | sub =>
    rw [hop] at h
    obtain ⟨message, hpanic⟩ := subOnce_panics h
    refine .inr ⟨message, ?_⟩
    show some <$> subOnce a b entry.modulus = _
    rw [hpanic]
    rfl
  | div =>
    rw [hop] at h
    refine .inl ?_
    show modDiv a b entry.modulus = _
    rw [modDiv_eq]
    exact congrArg Except.ok (if_pos h)

omit [Fact entry.modulus.Prime] in
theorem modular_calls (host : Host) (h : IsModularOp entry ptr s o) :
    Calls host s.cpu.fetch (handleModular host s.cpu.fetch) ∧
    Performs (handleModular host s.cpu.fetch) s (s.cpu.readReg (rd s.cpu.fetch)) (do
      let r ← MemOp.modularResult o.op.code (slots ptr entry.limbBytes s o.left)
        (slots ptr entry.limbBytes s o.right) entry.modulus
      pure (r.map fun r => BigUint.bytesLe r entry.limbBytes)) := by
  have hm := handleModular_performs host s.cpu.fetch s h.table (h.op ▸ o.op.isArith_code)
  rw [h.op, h.leftOperand_eq, h.rightOperand_eq] at hm
  exact ⟨calls_modular h.word, hm⟩

/-- A word that is not stuck stores its residue. -/
theorem field_writes (host : Host) (hlt : entry.modulus < 256 ^ entry.limbBytes)
    (h : IsModularOp entry ptr s o)
    (hs : ¬o.op.Stuck entry.modulus (slots ptr entry.limbBytes s o.left)
      (slots ptr entry.limbBytes s o.right)) :
    Writes host s.cpu.fetch s entry.limbBytes (o.op.residue entry.modulus
      (slots ptr entry.limbBytes s o.left) (slots ptr entry.limbBytes s o.right)) := by
  obtain ⟨hcalls, hm⟩ := modular_calls host h
  refine writes_of_stored ((o.op.residue_lt _ _ _).trans hlt) (yields_stored hcalls hm ?_)
  rw [modularResult_eq hs]
  rfl

/-- A word that is stuck does not complete. -/
theorem field_stuck (h : IsModularOp entry ptr s o)
    (hs : o.op.Stuck entry.modulus (slots ptr entry.limbBytes s o.left)
      (slots ptr entry.limbBytes s o.right)) : ¬Iteration (customOps host) s s' := by
  intro hit
  obtain ⟨t, ht, -⟩ := iteration_iff.mp hit
  rw [step_custom _ (.inr h.word.1)] at ht
  obtain ⟨hcalls, hm⟩ := modular_calls host h
  obtain hnone | ⟨message, hpanic⟩ := modularResult_stuck hs
  · rw [hnone] at hm
    obtain ⟨message, hrun⟩ := hm
    cases (handle_run_error hcalls hrun).symm.trans ht
  · rw [hpanic] at hm
    cases (handle_run_error hcalls hm).symm.trans ht

/-- One word is one operation on the slots. -/
theorem field_op [DecidableEq ι] (hcells : Cells ptr entry.limbBytes)
    (hlt : entry.modulus < 256 ^ entry.limbBytes) (h : Iteration (customOps host) s s')
    (ho : IsModularOp entry ptr s o) :
    slots ptr entry.limbBytes s' =
      SlotOp.apply (FieldOp.residue entry.modulus) (slots ptr entry.limbBytes s) o :=
  slots_stored hcells h (.inr ho.word.1) ho.dest
    (field_writes host hlt ho fun hs => field_stuck ho hs h)

end Words

section Runs
variable {ι : Type} [DecidableEq ι] {entry : ModulusEntry} {ptr : ι → Word} {host : Host}
  {s t : Machine} {trace : List Machine} {ops : List (SlotOp ι FieldOp)}
  [Fact entry.modulus.Prime]

/-- The modular words of a run are a program on the numbers in the slots. -/
theorem slots_run (hcells : Cells ptr entry.limbBytes) (hlt : entry.modulus < 256 ^ entry.limbBytes)
    (hrun : Run (customOps host) s trace t)
    (hops : CarriesOut (IsModularOp entry ptr) (Quiet ptr entry.limbBytes) trace ops) :
    slots ptr entry.limbBytes t =
      SlotOp.run (FieldOp.residue entry.modulus) ops (slots ptr entry.limbBytes s) := by
  refine passes_run (fun u v => slots ptr entry.limbBytes u = v) ?_ ?_
    (passes_of_run hrun) hops rfl
  · rintro u u' v o h ho rfl
    exact field_op hcells hlt h ho
  · rintro u u' v h hq rfl
    exact slots_quiet h hq

/-- Every operation of a run was not stuck. -/
theorem slots_run_at (hcells : Cells ptr entry.limbBytes)
    (hlt : entry.modulus < 256 ^ entry.limbBytes) (hrun : Run (customOps host) s trace t)
    {ops' : List (SlotOp ι FieldOp)} {o : SlotOp ι FieldOp}
    (hops : CarriesOut (IsModularOp entry ptr) (Quiet ptr entry.limbBytes) trace
      (ops ++ o :: ops')) {v : ι → ℕ}
    (hv : SlotOp.run (FieldOp.residue entry.modulus) ops (slots ptr entry.limbBytes s) = v) :
    ¬o.op.Stuck entry.modulus (v o.left) (v o.right) := by
  obtain ⟨u, u', hit, ho, hslots⟩ :=
    passes_at (fun u v => slots ptr entry.limbBytes u = v)
      (by rintro u u' v o h ho rfl; exact field_op hcells hlt h ho)
      (by rintro u u' v h hq rfl; exact slots_quiet h hq) (passes_of_run hrun) hops rfl
  obtain rfl : slots ptr entry.limbBytes u = v := hslots.trans hv
  exact fun hs => field_stuck ho hs hit

end Runs

/-- **The modular words of a run are a program in `ZMod p`.** Take an entry with a prime modulus
below `256 ^ n` and slots of `n` bytes that are apart. An ADD, SUB, MUL or DIV of the entry on slots
completes unless SUB takes away more than the modulus and its first operand together, or DIV
divides by zero. A run in which such words carry out a list of operations, and whose other steps
write into no slot, ends with the residues that the list makes of those at its start, and
the numbers in all slots it has written to are below the modulus. -/
theorem run_field (host : Host) {entry : ModulusEntry} [Fact entry.modulus.Prime]
    (hlt : entry.modulus < 256 ^ entry.limbBytes) {ι : Type} [DecidableEq ι] {ptr : ι → Word}
    (hcells : Cells ptr entry.limbBytes) :
    (∀ s o, IsModularOp entry ptr s o → ((∃ s', Iteration (customOps host) s s') ↔
      ¬o.op.Stuck entry.modulus (slots ptr entry.limbBytes s o.left)
        (slots ptr entry.limbBytes s o.right))) ∧
    ∀ trace s t ops, Run (customOps host) s trace t →
      CarriesOut (IsModularOp entry ptr) (Quiet ptr entry.limbBytes) trace ops →
      (fun i => (slots ptr entry.limbBytes t i : ZMod entry.modulus)) =
        SlotOp.run FieldOp.value ops (fun i => (slots ptr entry.limbBytes s i : ZMod entry.modulus)) ∧
      ∀ i, (∃ o ∈ ops, o.dest = i) → slots ptr entry.limbBytes t i < entry.modulus := by
  refine ⟨fun s o ho => ⟨fun ⟨s', h⟩ hs => field_stuck ho hs h, fun hs => ?_⟩,
    fun trace s t ops hrun hops => ?_⟩
  · obtain ⟨bs, -, -, hy⟩ := field_writes host hlt ho hs
    exact ⟨_, iteration_iff.mpr ⟨_, (step_custom _ (.inr ho.word.1)).trans hy, rfl⟩⟩
  · rw [slots_run hcells hlt hrun hops]
    exact ⟨SlotOp.run_map (FieldOp.cast_residue entry.modulus) ops _,
      fun i hi => SlotOp.run_written (P := (· < entry.modulus)) _
        (FieldOp.residue_lt entry.modulus) hi _⟩

/-- A modulus of one byte. -/
def sevenEntry : ModulusEntry := { name := "seven", limbBytes := 1, modulus := 7 }

instance factPrimeSeven : Fact sevenEntry.modulus.Prime := ⟨by decide⟩

/-- A machine about to divide the three at address zero by the five at `[x1]`, and to multiply the
five by the quotient, modulo seven. -/
def sevenMachine : Machine :=
  let s := (((Sim.loaded [0x0610002b#32, 0x041000ab#32] [[]]).setReg 1#5 4096#32).store
    4096#32 [5#8]).store 0#32 [3#8]
  { s with handler := { s.handler with moduli := [sevenEntry] } }

theorem pairPtr_cells_one : Cells pairPtr 1 where
  fits := by decide
  apart := by
    unfold Apart
    decide

theorem slots_sevenMachine : slots pairPtr 1 sevenMachine = fun second => if second then 5 else 3 := by
  funext second
  cases second <;> decide +kernel

theorem run_sevenMachine : Run (customOps Host.constant) sevenMachine
    [sevenMachine, sevenMachine.after (customOps Host.constant) 1]
    (sevenMachine.after (customOps Host.constant) 2) :=
  run_after (n := 2) (by decide +kernel)

/-- The quotient is two, and the product is three. -/
theorem run_field_seven :
    slots pairPtr 1 (sevenMachine.after (customOps Host.constant) 2) =
      fun second => if second then 3 else 2 := by
  have hdiv : IsModularOp sevenEntry pairPtr sevenMachine ⟨.div, false, false, true⟩ :=
    ⟨by decide +kernel, by decide +kernel, rfl, by decide +kernel, by decide +kernel,
      by decide +kernel⟩
  have hmul : IsModularOp sevenEntry pairPtr (sevenMachine.after (customOps Host.constant) 1)
      ⟨.mul, true, false, true⟩ :=
    ⟨by decide +kernel, by decide +kernel, by decide +kernel, by decide +kernel, by decide +kernel,
      by decide +kernel⟩
  obtain ⟨hvalue, hlt⟩ := (run_field Host.constant (by decide : sevenEntry.modulus < 256 ^ 1)
    pairPtr_cells_one).2 _ _ _ _ run_sevenMachine (.act hdiv (.act hmul .nil))
  have hstart : slots pairPtr sevenEntry.limbBytes sevenMachine = _ := slots_sevenMachine
  rw [hstart] at hvalue
  funext second
  have hcast := congrFun hvalue second
  have hseven := hlt second (by cases second <;> simp)
  refine (ZMod.val_cast_of_lt hseven).symm.trans ?_
  rw [hcast]
  cases second <;> decide +kernel

end OpenvmSim.Precompiles
