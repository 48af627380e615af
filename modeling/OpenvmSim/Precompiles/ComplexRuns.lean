import OpenvmSim.Precompiles.PairSlots

/-! Runs of complex words as programs in `Fp2`.

A guest keeps elements of `Fp2` in slots of its memory, each as the pair of its canonical
coefficients. The complex words of an entry are the operations of a program on them, which fails
nowhere but in a division by zero (`run_complex`). -/
namespace OpenvmSim.Precompiles
open Rv32im

/-- Modulo a prime that is three modulo four `Fp2` is a field. -/
instance factNonSquare {p : ℕ} [Fact p.Prime] [h : Fact (p % 4 = 3)] :
    Fact (∀ r : ZMod p, r ^ 2 ≠ -1 + 0 * r) := ⟨sq_ne_neg_one h.out⟩

/-- A division by zero. -/
def FieldOp.DividesByZero {F : Type} [Zero F] : FieldOp → F → F → Prop
  | div, _, b => b = 0
  | _, _, _ => False

section Outcomes
variable {p : ℕ} [Fact p.Prime] [h4 : Fact (p % 4 = 3)] {op : FieldOp} {x y : Ark.Fq2 p}

/-- The outcome of an operation that does not divide by zero. -/
theorem complexOutcome_stored (n : ℕ) (h : ¬op.DividesByZero x y) :
    complexOutcome op.code n x y = .stored (pairBytes n (pairOfFq2 (op.value x y))) := by
  cases op with
  | add | sub | mul => rfl
  | div =>
    have hy : y ≠ 0 := h
    have hquot : x / y = quotient x y := eq_quotient h4.out hy (div_mul_cancel₀ x hy)
    show (if QuadraticAlgebra.norm y = 0 then Outcome.rejected else _) = _
    rw [if_neg (norm_ne_zero h4.out hy), ← hquot]
    rfl

omit h4 in
/-- The outcome of a division by zero. -/
theorem complexOutcome_rejected (n : ℕ) (h : op.DividesByZero x y) :
    complexOutcome op.code n x y = .rejected := by
  cases op with
  | add | sub | mul => exact h.elim
  | div =>
    have hy : y = 0 := h
    show (if QuadraticAlgebra.norm y = 0 then Outcome.rejected else _) = _
    rw [hy, if_pos QuadraticAlgebra.norm_zero]

end Outcomes

/-! ### The words -/

section Words
variable {ι : Type} {entry : ModulusEntry} {ptr : ι → Word} {host : Host} {s s' : Machine}
  {o : SlotOp ι FieldOp}

/-- The next word is an operation of an entry of the complex table on slots. -/
abbrev IsComplexOp (entry : ModulusEntry) (ptr : ι → Word) (s : Machine) (o : SlotOp ι FieldOp) :
    Prop :=
  IsTableOp F3_COMPLEX FieldOp.code PrecompileHandler.complex entry ptr s o

/-- The slots hold elements, by their canonical coefficients. -/
abbrev HoldsElements (entry : ModulusEntry) (ptr : ι → Word) (s : Machine)
    (v : ι → Ark.Fq2 entry.modulus) : Prop :=
  HoldsPairs (fun c x => c = pairOfFq2 x) ptr entry.limbBytes s v

variable [Fact entry.modulus.Prime] {v : ι → Ark.Fq2 entry.modulus}

theorem complex_outcome (host : Host) (h : IsComplexOp entry ptr s o)
    (hv : HoldsElements entry ptr s v) :
    Yields host s.cpu.fetch s
      (complexOutcome o.op.code entry.limbBytes (v o.left) (v o.right)) := by
  have hleft := (h.leftPair_eq entry.limbBytes).trans (hv o.left)
  have hright := (h.rightPair_eq entry.limbBytes).trans (hv o.right)
  have hfits : ¬ComplexUnderflows (tableOp s.cpu.fetch) entry.modulus
      (leftPair s.cpu.fetch s entry.limbBytes) (rightPair s.cpu.fetch s entry.limbBytes) :=
    not_complexUnderflows (hright ▸ canonical_pairOfFq2 _)
  have hy := complex_yields host h.word h.table rfl (.inl (h.op ▸ o.op.isArith_code)) hfits
  rwa [h.op, hleft, hright, toFq2_pairOfFq2, toFq2_pairOfFq2] at hy

/-- A division by zero does not complete. -/
theorem complex_stuck (h : IsComplexOp entry ptr s o) (hv : HoldsElements entry ptr s v)
    (hs : o.op.DividesByZero (v o.left) (v o.right)) : ¬Iteration (customOps host) s s' := by
  intro hit
  obtain ⟨t, ht, -⟩ := iteration_iff.mp hit
  rw [step_custom _ (.inr h.word.1)] at ht
  have hy := complex_outcome host h hv
  rw [complexOutcome_rejected _ hs] at hy
  exact not_rejected_of_ok ht hy

/-- One word is one operation on the elements in the slots. -/
theorem complex_step [Fact (entry.modulus % 4 = 3)] [DecidableEq ι] (host : Host)
    (hlt : entry.modulus < 256 ^ entry.limbBytes)
    (hcells : Cells ptr (2 * entry.limbBytes)) (h : IsComplexOp entry ptr s o)
    (hv : HoldsElements entry ptr s v) (hfree : ¬o.op.DividesByZero (v o.left) (v o.right)) :
    ∃ s', StoresAt host s s' (ptr o.dest) (2 * entry.limbBytes) ∧
      HoldsElements entry ptr s' (SlotOp.apply FieldOp.value v o) := by
  have hy := complex_outcome host h hv
  rw [complexOutcome_stored _ hfree] at hy
  exact pair_step hcells (.inr h.word.1) h.dest (writesPair_pairOfFq2 hlt hy) rfl hv

end Words

section Runs
variable {ι : Type} [DecidableEq ι] {entry : ModulusEntry} [Fact entry.modulus.Prime]
  [Fact (entry.modulus % 4 = 3)] {ptr : ι → Word} {s t : Machine} {trace : List Machine}
  {ops : List (SlotOp ι FieldOp)} {v : ι → Ark.Fq2 entry.modulus}

/-- The complex words of a run are a program on the elements in the slots. -/
theorem elements_run (host : Host) (hlt : entry.modulus < 256 ^ entry.limbBytes)
    (hcells : Cells ptr (2 * entry.limbBytes)) (hrun : Run (customOps host) s trace t)
    (hops : CarriesOut (IsComplexOp entry ptr) (Quiet ptr (2 * entry.limbBytes)) trace ops)
    (hv : HoldsElements entry ptr s v) :
    HoldsElements entry ptr t (SlotOp.run FieldOp.value ops v) := by
  refine passes_run (HoldsElements entry ptr) (fun u u' w o hit ho hw => ?_)
    (fun u u' w hit hq hw => ?_) (passes_of_run hrun) hops hv
  · obtain ⟨u₁, hs, hw'⟩ := complex_step host hlt hcells ho hw fun hs => complex_stuck ho hw hs hit
    obtain rfl : u₁ = u' := Option.some.inj (hs.iteration.symm.trans hit)
    exact hw'
  · exact holdsPairs_quiet hit hq hw

/-- The complex word of an operation of the entry with the given index. -/
abbrev complexWord (reg : ι → Reg) (idx : BitVec 4) (o : SlotOp ι FieldOp) : Word :=
  opWord reg F3_COMPLEX FieldOp.code idx o

theorem complex_code {reg : ι → Reg} (host : Host) (hlt : entry.modulus < 256 ^ entry.limbBytes)
    (hcells : Cells ptr (2 * entry.limbBytes)) {idx : BitVec 4}
    (hs : Loaded reg ptr (2 * entry.limbBytes) (ops.map (complexWord reg idx)) s)
    (ht : s.handler.complex[idx.toNat]? = some entry) (hv : HoldsElements entry ptr s v)
    (hfree : SlotOp.Free FieldOp.value FieldOp.DividesByZero ops v) :
    ∃ trace t, Run (customOps host) s trace t ∧
      CarriesOut (IsComplexOp entry ptr) (Quiet ptr (2 * entry.limbBytes)) trace ops ∧
      t.cpu.pc = s.cpu.pc + BitVec.ofNat 32 (4 * ops.length) ∧
      OnlyWrites ptr (2 * entry.limbBytes) ops s t ∧
      HoldsElements entry ptr t (SlotOp.run FieldOp.value ops v) := by
  refine code_performs (IsComplexOp entry ptr)
    (fun handler => handler.complex[idx.toNat]? = some entry) (HoldsElements entry ptr)
    (fun u o hf hr htab => ?_) (fun u o w ho hw hstuck => ?_) hs ht hv hfree
  · exact isTableOp_of_fetch rfl (fun op => by cases op <;> rfl) hf hr htab
  · exact complex_step host hlt hcells ho hw hstuck

end Runs

/-- **The complex words of a run are a program in the field `Fp2`.** Take an entry of the complex table
whose prime is three modulo four and below `256 ^ n`, slots of `2 n` bytes that are apart, and a
state whose slots hold elements of `Fp2` by their canonical coefficients. An ADD, SUB, MUL or DIV of
slots completes unless it divides by zero. A run in which such words carry out a list of
operations, and whose other steps write into no slot, ends with the elements that the list makes of
those at its start. And the words of a list that nowhere divides by zero, next in memory and in no
slot, with the pointers in registers, are executed one after the other and change no byte outside
of the slots they write to. -/
theorem run_complex (host : Host) {entry : ModulusEntry} [Fact entry.modulus.Prime]
    [Fact (entry.modulus % 4 = 3)] (hlt : entry.modulus < 256 ^ entry.limbBytes) {ι : Type}
    [DecidableEq ι] {ptr : ι → Word} (hcells : Cells ptr (2 * entry.limbBytes)) (s : Machine)
    (v : ι → Ark.Fq2 entry.modulus) (hv : HoldsElements entry ptr s v) :
    (∀ o, IsComplexOp entry ptr s o → ((∃ s', Iteration (customOps host) s s') ↔
      ¬o.op.DividesByZero (v o.left) (v o.right))) ∧
    (∀ trace t ops, Run (customOps host) s trace t →
      CarriesOut (IsComplexOp entry ptr) (Quiet ptr (2 * entry.limbBytes)) trace ops →
      HoldsElements entry ptr t (SlotOp.run FieldOp.value ops v)) ∧
    ∀ (reg : ι → Reg) (idx : BitVec 4) ops,
      Loaded reg ptr (2 * entry.limbBytes) (ops.map (complexWord reg idx)) s →
      s.handler.complex[idx.toNat]? = some entry →
      SlotOp.Free FieldOp.value FieldOp.DividesByZero ops v →
      ∃ trace t, Run (customOps host) s trace t ∧
        CarriesOut (IsComplexOp entry ptr) (Quiet ptr (2 * entry.limbBytes)) trace ops ∧
        t.cpu.pc = s.cpu.pc + BitVec.ofNat 32 (4 * ops.length) ∧
        OnlyWrites ptr (2 * entry.limbBytes) ops s t := by
  refine ⟨fun o ho => ⟨fun ⟨s', h⟩ hs => complex_stuck ho hv hs h, fun hfree => ?_⟩,
    fun trace t ops hrun hops => elements_run host hlt hcells hrun hops hv,
    fun reg idx ops hs ht hfree => ?_⟩
  · obtain ⟨s', hs, -⟩ := complex_step host hlt hcells ho hv hfree
    exact ⟨s', hs.iteration⟩
  · obtain ⟨trace, t, hrun, hops, hpc, hbytes, -⟩ := complex_code host hlt hcells hs ht hv hfree
    exact ⟨trace, t, hrun, hops, hpc, hbytes⟩

/-- The root of `-1` is squared in its place, and the square doubled at address zero. -/
def rootOps : List (SlotOp Bool FieldOp) := [⟨.mul, true, true, true⟩, ⟨.add, false, true, true⟩]

/-- A machine with the root of `-1` at `[x1]`, about to do so modulo seven. -/
def rootMachine : Machine :=
  let s := ((Sim.loaded (rootOps.map (complexWord pairReg 0#4)) [[]]).setReg 1#5 4096#32).store
    4096#32 [0#8, 1#8]
  { s with handler := { s.handler with complex := [sevenEntry] } }

instance factThreeModFour : Fact (sevenEntry.modulus % 4 = 3) := ⟨rfl⟩

/-- The square is six, and twice the square five. -/
theorem run_complex_seven : ∃ trace t, Run (customOps Host.constant) rootMachine trace t ∧
    readPair t.cpu.mem 4096#32 1 = (6, 0) ∧ readPair t.cpu.mem 0#32 1 = (5, 0) := by
  let v : Bool → Ark.Fq2 sevenEntry.modulus := fun second => if second then ⟨0, 1⟩ else 0
  have hv : HoldsElements sevenEntry pairPtr rootMachine v := by
    intro i
    cases i <;> decide +kernel
  have hloaded : Loaded pairReg pairPtr (2 * sevenEntry.limbBytes)
      (rootOps.map (complexWord pairReg 0#4)) rootMachine :=
    loaded_pair (by decide) (by decide) rfl (by decide +kernel) (by decide +kernel)
  obtain ⟨-, hruns, hcode⟩ := run_complex Host.constant (by decide) pairPtr_cells_two rootMachine v hv
  obtain ⟨trace, t, hrun, hops, -⟩ := hcode pairReg 0#4 _ hloaded rfl ⟨not_false, not_false, trivial⟩
  have hlast := hruns trace t _ hrun hops
  refine ⟨trace, t, hrun, (hlast true).trans ?_, (hlast false).trans ?_⟩
  · decide +kernel
  · decide +kernel

end OpenvmSim.Precompiles
