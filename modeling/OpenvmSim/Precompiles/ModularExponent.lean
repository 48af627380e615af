import OpenvmSim.Base.MulProgram
import OpenvmSim.Precompiles.Congruence

/-! Modular arithmetic, and the exponentiations built from it.

Each word of the modular table is an operation of `ZMod p`. A guest exponentiates with MUL
words on numbers it keeps in memory, the slots: it multiplies two of them into a third, copies
them about, and does anything else in between. Such an execution is a run of a program of
multiplications, so that it ends with the power whose exponent the program adds up. -/
namespace OpenvmSim.Precompiles
open Rv32im

/-! ### The words -/

/-- The outcomes of a modular word on any operands, in terms of residues. -/
structure ModularArithmetic (host : Host) (insn : Word) (s : Machine) (entry : ModulusEntry)
    (a b : ℕ) : Prop where
  add : tableOp insn = MOD_ADD → Writes host insn s entry.limbBytes ((a + b) % entry.modulus)
  mul : tableOp insn = MOD_MUL → Writes host insn s entry.limbBytes (a * b % entry.modulus)
  isEq : tableOp insn = MOD_ISEQ → (handle host insn).run s = .ok .continue (advanced s.cpu.pc
    (s.setReg (rd insn) (if a ≡ b [MOD entry.modulus] then 1#32 else 0#32)))
  divError : tableOp insn = MOD_DIV →
    (Yields host insn s .rejected ↔ b ≡ 0 [MOD entry.modulus])
  div : tableOp insn = MOD_DIV → ¬b ≡ 0 [MOD entry.modulus] →
    ∃ r < entry.modulus, r * b ≡ a [MOD entry.modulus] ∧ Writes host insn s entry.limbBytes r ∧
      ∀ r' < entry.modulus, r' * b ≡ a [MOD entry.modulus] → r' = r
  sub : tableOp insn = MOD_SUB → a < entry.modulus → b < entry.modulus →
    ∃ r < entry.modulus, r + b ≡ a [MOD entry.modulus] ∧ Writes host insn s entry.limbBytes r ∧
      ∀ r' < entry.modulus, r' + b ≡ a [MOD entry.modulus] → r' = r

section Words
variable (host : Host) {insn : Word} {s : Machine} {entry : ModulusEntry}
variable (hp : entry.modulus.Prime) (hlt : entry.modulus < 256 ^ entry.limbBytes)
variable (h1 : IsCustom1 insn F3_MODULAR) (he : s.handler.moduli[tableIdx insn]? = some entry)
include hp h1 he

omit hp in
/-- The outcome of every operation but SUB. -/
theorem yields_of_op [Fact entry.modulus.Prime] {op : Word} (hop : tableOp insn = op)
    (hf : IsFieldOp op) (hne : op ≠ MOD_SUB) :
    Yields host insn s (modularOutcome op entry.limbBytes
      (leftOperand insn s entry.limbBytes : ZMod entry.modulus)
      (rightOperand insn s entry.limbBytes : ZMod entry.modulus)) := by
  subst hop
  exact modular_yields host h1 he rfl hf fun hu => hne hu.1

omit hp in
/-- A quotient is the outcome of DIV, unless the divisor is zero. -/
theorem yields_div [Fact entry.modulus.Prime] (hop : tableOp insn = MOD_DIV) :
    Yields host insn s
      (if (rightOperand insn s entry.limbBytes : ZMod entry.modulus) = 0 then .rejected
        else .stored (BigUint.bytesLe ((leftOperand insn s entry.limbBytes : ZMod entry.modulus) /
          rightOperand insn s entry.limbBytes).val entry.limbBytes)) :=
  yields_of_op host h1 he hop (.inl (.inr (.inr (.inr rfl)))) (by decide)

omit hp h1 he in
theorem modEq_zero_iff (b : ℕ) :
    b ≡ 0 [MOD entry.modulus] ↔ (b : ZMod entry.modulus) = 0 := by
  rw [← ZMod.natCast_eq_natCast_iff, Nat.cast_zero]

/-- The register of an equality test. -/
theorem isEq_run (hop : tableOp insn = MOD_ISEQ) :
    (handle host insn).run s = .ok .continue (advanced s.cpu.pc (s.setReg (rd insn)
      (if leftOperand insn s entry.limbBytes ≡ rightOperand insn s entry.limbBytes
        [MOD entry.modulus] then 1#32 else 0#32))) := by
  have : Fact entry.modulus.Prime := ⟨hp⟩
  have h := yields_of_op host h1 he hop (.inr rfl) (by decide)
  generalize leftOperand insn s entry.limbBytes = a at h ⊢
  generalize rightOperand insn s entry.limbBytes = b at h ⊢
  have hflag : flag (decide ((a : ZMod entry.modulus) = b)) =
      if a ≡ b [MOD entry.modulus] then 1#32 else 0#32 := by
    by_cases heq : a ≡ b [MOD entry.modulus]
    · rw [if_pos heq, decide_eq_true ((ZMod.natCast_eq_natCast_iff a b _).mpr heq)]
      rfl
    · rw [if_neg heq, decide_eq_false (mt (ZMod.natCast_eq_natCast_iff a b _).mp heq)]
      rfl
  rw [← hflag]
  exact h

theorem div_rejected_iff (hop : tableOp insn = MOD_DIV) :
    Yields host insn s .rejected ↔
      rightOperand insn s entry.limbBytes ≡ 0 [MOD entry.modulus] := by
  have : Fact entry.modulus.Prime := ⟨hp⟩
  have h := yields_div host h1 he hop
  rw [modEq_zero_iff]
  split at h
  · next hb => exact ⟨fun _ => hb, fun _ => h⟩
  · next hb => exact ⟨fun hrej => absurd hrej (not_rejected_of_ok h), fun hb' => absurd hb' hb⟩

include hlt

theorem div_writes (hop : tableOp insn = MOD_DIV)
    (hb : ¬rightOperand insn s entry.limbBytes ≡ 0 [MOD entry.modulus]) :
    ∃ r < entry.modulus, r * rightOperand insn s entry.limbBytes ≡
        leftOperand insn s entry.limbBytes [MOD entry.modulus] ∧
      Writes host insn s entry.limbBytes r ∧
      ∀ r' < entry.modulus, r' * rightOperand insn s entry.limbBytes ≡
        leftOperand insn s entry.limbBytes [MOD entry.modulus] → r' = r := by
  have : Fact entry.modulus.Prime := ⟨hp⟩
  have h := yields_div host h1 he hop
  rw [modEq_zero_iff] at hb
  rw [if_neg hb] at h
  refine ⟨_, ZMod.val_lt _, ?_, writes_of_stored ((ZMod.val_lt _).trans hlt) h,
    fun r' hr' hmul => ?_⟩
  · rw [← ZMod.natCast_eq_natCast_iff, Nat.cast_mul, ZMod.natCast_zmod_val]
    exact div_mul_cancel₀ _ hb
  · rw [← ZMod.natCast_eq_natCast_iff, Nat.cast_mul, ← eq_div_iff hb] at hmul
    rw [← hmul, ZMod.val_natCast, Nat.mod_eq_of_lt hr']

theorem sub_writes (hop : tableOp insn = MOD_SUB)
    (hb : rightOperand insn s entry.limbBytes ≤
      entry.modulus + leftOperand insn s entry.limbBytes) :
    ∃ r < entry.modulus, r + rightOperand insn s entry.limbBytes ≡
        leftOperand insn s entry.limbBytes [MOD entry.modulus] ∧
      Writes host insn s entry.limbBytes r ∧
      ∀ r' < entry.modulus, r' + rightOperand insn s entry.limbBytes ≡
        leftOperand insn s entry.limbBytes [MOD entry.modulus] → r' = r := by
  have : Fact entry.modulus.Prime := ⟨hp⟩
  have h := modular_yields host h1 he rfl (.inl (.inr (.inl hop)))
    fun hu => Nat.not_le.mpr hu.2 hb
  rw [hop] at h
  refine ⟨_, ZMod.val_lt _, val_sub_add_modEq _ _,
    writes_of_stored ((ZMod.val_lt _).trans hlt) h, fun r' hr' hadd => ?_⟩
  rw [← ZMod.natCast_eq_natCast_iff, Nat.cast_add, ← eq_sub_iff_add_eq] at hadd
  rw [← hadd, ZMod.val_natCast, Nat.mod_eq_of_lt hr']

/-- The words of the modular table calculate in `ZMod p`. -/
theorem modularArithmetic :
    ModularArithmetic host insn s entry (leftOperand insn s entry.limbBytes)
      (rightOperand insn s entry.limbBytes) where
  add hop := by
    have : Fact entry.modulus.Prime := ⟨hp⟩
    rw [← ZMod.val_natCast, Nat.cast_add]
    exact writes_of_stored ((ZMod.val_lt _).trans hlt)
      (yields_of_op host h1 he hop (.inl (.inl rfl)) (by decide))
  mul hop := by
    have : Fact entry.modulus.Prime := ⟨hp⟩
    rw [← ZMod.val_natCast, Nat.cast_mul]
    exact writes_of_stored ((ZMod.val_lt _).trans hlt)
      (yields_of_op host h1 he hop (.inl (.inr (.inr (.inl rfl)))) (by decide))
  isEq hop := isEq_run host hp h1 he hop
  divError hop := div_rejected_iff host hp h1 he hop
  div hop := div_writes host hp hlt h1 he hop
  sub hop _ hb := sub_writes host hp hlt h1 he hop (hb.le.trans (Nat.le_add_right _ _))

end Words

/-! ### Slots -/

section Slots
variable {ι : Type}

/-- The numbers in the slots, `n` bytes at each pointer. -/
def slots (ptr : ι → Word) (n : ℕ) (s : Machine) (i : ι) : ℕ := readLe s.cpu.mem (ptr i) n

/-- The bytes of a slot are no other bytes of it, nor bytes of another slot. -/
structure Cells (ptr : ι → Word) (n : ℕ) : Prop where
  fits : n ≤ 2 ^ 32
  apart : ∀ i j, i ≠ j → Apart n (ptr i) (ptr j)

/-- The word is a MUL of the entry that multiplies the slots `x` and `y` into `d`. -/
structure IsSlotMul (entry : ModulusEntry) (ptr : ι → Word) (insn : Word) (s : Machine)
    (d x y : ι) : Prop where
  word : IsCustom1 insn F3_MODULAR
  op : tableOp insn = MOD_MUL
  table : s.handler.moduli[tableIdx insn]? = some entry
  dest : s.cpu.readReg (rd insn) = ptr d
  left : s.cpu.readReg (rs1 insn) = ptr x
  right : s.cpu.readReg (rs2 insn) = ptr y

/-- A machine executes a program on the slots: MUL words multiply them, they are copied, and
whatever happens otherwise leaves them as they are. -/
inductive Executes (host : Host) (entry : ModulusEntry) (ptr : ι → Word) :
    List (MulOp ι) → Machine → Machine → Prop where
  | done (s : Machine) : Executes host entry ptr [] s s
  | other {ops s s' t} (h : slots ptr entry.limbBytes s' = slots ptr entry.limbBytes s) :
      Executes host entry ptr ops s' t → Executes host entry ptr ops s t
  | move {ops s s' t} (f : ι → ι)
      (h : slots ptr entry.limbBytes s' = slots ptr entry.limbBytes s ∘ f) :
      Executes host entry ptr ops s' t → Executes host entry ptr (.move f :: ops) s t
  | mul {ops s s' t insn outcome d x y} (h : IsSlotMul entry ptr insn s d x y)
      (hrun : (handle host insn).run s = .ok outcome s') :
      Executes host entry ptr ops s' t → Executes host entry ptr (.mul d x y :: ops) s t

variable {host : Host} {entry : ModulusEntry} {ptr : ι → Word}

/-- An execution of nothing leaves the slots as they are. -/
theorem executes_nil {s t : Machine} (h : Executes host entry ptr [] s t) :
    slots ptr entry.limbBytes t = slots ptr entry.limbBytes s := by
  generalize hl : ([] : List (MulOp ι)) = l at h
  induction h with
  | done s => rfl
  | other hglue _ ih => exact (ih hl).trans hglue
  | move f hmove _ ih => cases hl
  | mul hword hrun _ ih => cases hl

variable [DecidableEq ι]
variable (hp : entry.modulus.Prime) (hlt : entry.modulus < 256 ^ entry.limbBytes)
variable (hcells : Cells ptr entry.limbBytes)
include hp hlt hcells

/-- One MUL word multiplies two slots modulo the prime. -/
theorem slots_mul {insn : Word} {s s' : Machine} {d x y : ι} {outcome : StepOutcome}
    (h : IsSlotMul entry ptr insn s d x y) (hrun : (handle host insn).run s = .ok outcome s') :
    slots ptr entry.limbBytes s' = Function.update (slots ptr entry.limbBytes s) d
      (slots ptr entry.limbBytes s x * slots ptr entry.limbBytes s y % entry.modulus) := by
  obtain ⟨bs, hlen, hval, hy⟩ :=
    (modularArithmetic host hp hlt h.word h.table).mul h.op
  have hs' : s' = advanced s.cpu.pc (s.store (s.cpu.readReg (rd insn)) bs) := by
    cases hrun.symm.trans hy
    rfl
  rw [leftOperand, rightOperand, h.left, h.right] at hval
  funext i
  subst hs'
  rw [slots, mem_advanced, h.dest]
  by_cases hi : i = d
  · subst hi
    rw [Function.update_self, readLe_store s _ hlen hcells.fits, hval]
    rfl
  · rw [Function.update_of_ne hi, readLe_store_of_apart s hlen (hcells.apart d i (Ne.symm hi))]
    rfl

omit hcells [DecidableEq ι] in
/-- A MUL word on the slots returns, and keeps the registers and the handler. -/
theorem slotMul_returns (host : Host) {insn : Word} {s : Machine} {d x y : ι}
    (h : IsSlotMul entry ptr insn s d x y) : ∃ s', (handle host insn).run s = .ok .continue s' ∧
      s'.cpu.x = s.cpu.x ∧ s'.handler = s.handler := by
  obtain ⟨bs, -, -, hy⟩ := (modularArithmetic host hp hlt h.word h.table).mul h.op
  exact ⟨_, hy, x_advanced _ _, handler_advanced _ _⟩

/-- An execution runs its program in `ZMod p`. -/
theorem executes_run {ops : List (MulOp ι)} {s t : Machine}
    (h : Executes host entry ptr ops s t) :
    (fun i => (slots ptr entry.limbBytes t i : ZMod entry.modulus)) =
      MulOp.run ops fun i => (slots ptr entry.limbBytes s i : ZMod entry.modulus) := by
  induction h with
  | done s => rfl
  | other hglue _ ih => rw [ih, hglue]
  | move f hmove _ ih =>
    rw [ih, hmove]
    rfl
  | @mul ops s s' t insn outcome d x y hword hrun _ ih =>
    rw [ih, slots_mul hp hlt hcells hword hrun, MulOp.run_cons]
    congr 1
    funext i
    by_cases hi : i = d
    · subst hi
      rw [MulOp.apply, Function.update_self, Function.update_self, ZMod.natCast_mod, Nat.cast_mul]
    · rw [MulOp.apply, Function.update_of_ne hi, Function.update_of_ne hi]

/-- A slot is reduced after a multiplication into it. -/
theorem executes_last {ops : List (MulOp ι)} {s t : Machine} {d x y : ι}
    (h : Executes host entry ptr (ops ++ [.mul d x y]) s t) :
    slots ptr entry.limbBytes t d < entry.modulus := by
  generalize hl : ops ++ [.mul d x y] = l at h
  induction h generalizing ops with
  | done s => exact absurd hl (List.append_ne_nil_of_right_ne_nil _ (List.cons_ne_nil _ _))
  | other hglue _ ih => exact ih hl
  | move f hmove _ ih =>
    cases ops with
    | nil => cases hl
    | cons op ops => exact ih (List.cons.inj hl).2
  | mul hword hrun hrest ih =>
    cases ops with
    | nil =>
      obtain ⟨hop, rfl⟩ := List.cons.inj hl
      cases hop
      rw [executes_nil hrest, slots_mul hp hlt hcells hword hrun, Function.update_self]
      exact Nat.mod_lt _ hp.pos
    | cons op ops => exact ih (List.cons.inj hl).2

/-- The exponent of every slot is what the program makes of the exponents it starts with. -/
theorem executes_exponents {ops : List (MulOp ι)} {s t : Machine} {base : ℕ} {e : ι → ℕ}
    (he : ∀ i, slots ptr entry.limbBytes s i ≡ base ^ e i [MOD entry.modulus])
    (h : Executes host entry ptr ops s t) (i : ι) :
    slots ptr entry.limbBytes t i ≡ base ^ MulOp.exponents ops e i [MOD entry.modulus] := by
  have hstart : (fun i => (slots ptr entry.limbBytes s i : ZMod entry.modulus)) =
      fun i => (base : ZMod entry.modulus) ^ e i := by
    funext i
    rw [(ZMod.natCast_eq_natCast_iff _ _ _).mpr (he i), Nat.cast_pow]
  have hrun := executes_run hp hlt hcells h
  rw [hstart, MulOp.run_pow] at hrun
  rw [← ZMod.natCast_eq_natCast_iff, Nat.cast_pow]
  exact congrFun hrun i

/-- Square-and-multiply leaves the power in the accumulator. -/
theorem executes_squareMultiply {acc b : ι} (hne : acc ≠ b) {bits : List Bool} {s t : Machine}
    (hone : slots ptr entry.limbBytes s acc = 1)
    (h : Executes host entry ptr (MulOp.squareMultiply acc b bits) s t) :
    slots ptr entry.limbBytes t acc =
      slots ptr entry.limbBytes s b ^ MulOp.readBits 0 bits % entry.modulus := by
  have hrun := congrFun (executes_run hp hlt hcells h) acc
  rw [MulOp.run_squareMultiply hne (e := 0) (by rw [hone, Nat.cast_one, pow_zero]),
    ← Nat.cast_pow, ZMod.natCast_eq_natCast_iff] at hrun
  have hred : slots ptr entry.limbBytes t acc < entry.modulus := by
    rcases List.eq_nil_or_concat bits with rfl | ⟨bits, bit, rfl⟩
    · rw [executes_nil h, hone]
      exact hp.one_lt
    · rw [List.concat_eq_append] at h
      obtain ⟨ops, x, y, hlast⟩ := MulOp.squareMultiply_concat acc b bits bit
      rw [hlast] at h
      exact executes_last hp hlt hcells h
  rw [← hrun, Nat.mod_eq_of_lt hred]

end Slots

/-! ### Arithmetic and exponentiation -/

/-- **Arithmetic modulo a prime.** For every prime modulus below `256 ^ n` and all `n`-byte
operands ADD and MUL store the sum and the product modulo `p`, ISEQ sets its register to one or
zero as the operands are congruent or not, DIV is an error exactly if the divisor is zero modulo
`p` and stores the only reduced quotient otherwise, and SUB of reduced operands stores the only
reduced difference. An execution of MUL words on numbers kept in memory ends, after its last
multiplication, with the power of `base` whose exponent is the sum its multiplications make of the
exponents it started with; square-and-multiply over the bits of any exponent is one of them. -/
theorem modular_arithmetic (host : Host) {entry : ModulusEntry} (hp : entry.modulus.Prime)
    (hlt : entry.modulus < 256 ^ entry.limbBytes) :
    (∀ insn s, IsCustom1 insn F3_MODULAR → s.handler.moduli[tableIdx insn]? = some entry →
      ModularArithmetic host insn s entry (leftOperand insn s entry.limbBytes)
        (rightOperand insn s entry.limbBytes)) ∧
    (∀ (ι : Type) [DecidableEq ι] (ptr : ι → Word), Cells ptr entry.limbBytes →
      (∀ (ops : List (MulOp ι)) d x y s t base e,
        (∀ i, slots ptr entry.limbBytes s i ≡ base ^ e i [MOD entry.modulus]) →
        Executes host entry ptr (ops ++ [.mul d x y]) s t →
        slots ptr entry.limbBytes t d =
          base ^ MulOp.exponents (ops ++ [.mul d x y]) e d % entry.modulus) ∧
      ∀ acc b bits s t, acc ≠ b → slots ptr entry.limbBytes s acc = 1 →
        Executes host entry ptr (MulOp.squareMultiply acc b bits) s t →
        slots ptr entry.limbBytes t acc =
          slots ptr entry.limbBytes s b ^ MulOp.readBits 0 bits % entry.modulus) ∧
    ∀ e, ∃ bits, MulOp.readBits 0 bits = e := by
  refine ⟨fun insn s h1 he => modularArithmetic host hp hlt h1 he, ?_, MulOp.exists_readBits⟩
  intro ι _ ptr hcells
  refine ⟨fun ops d x y s t base e hstart h => ?_, fun acc b bits s t hne hone h => ?_⟩
  · have hmod := executes_exponents hp hlt hcells hstart h d
    rw [← Nat.mod_eq_of_lt (executes_last hp hlt hcells h)]
    exact hmod
  · exact executes_squareMultiply hp hlt hcells hne hone h

/-! ### A loop -/

/-- MUL of the operands at address zero and `[rs2]` into address zero, modulo the first entry of
the default table. -/
def mulWord (rs2 : Word) : Word :=
  MOD_MUL <<< 25 ||| rs2 <<< 20 ||| F3_MODULAR <<< 12 ||| OPCODE_CUSTOM_1

/-- The accumulator is kept at address zero, the base at 64. -/
def loopPtr (base : Bool) : Word := if base then 64#32 else 0#32

/-- A machine about to raise three to a power, with the pointer to the base in `x1`. -/
def powerMachine : Machine :=
  ((Sim.blank.setReg 1#5 64#32).store 64#32 (BigUint.bytesLe 3 32)).store 0#32 (BigUint.bytesLe 1 32)

theorem loopPtr_cells : Cells loopPtr 32 where
  fits := by decide
  apart := by
    unfold Apart
    decide

/-- Three is raised to the first power by a squaring and a multiplication. -/
theorem modular_arithmetic_loop : ∃ t,
    Executes Host.constant bn254FpEntry loopPtr (MulOp.squareMultiply false true [true])
      powerMachine t ∧ slots loopPtr 32 t false = 3 := by
  have hlt : bn254FpEntry.modulus < 256 ^ bn254FpEntry.limbBytes := by decide
  have hacc : slots loopPtr 32 powerMachine false = 1 :=
    (readLe_store _ 0#32 (BigUint.length_bytesLe 1 32) (by decide)).trans (toNat_bytesLe (by decide))
  have hbase : slots loopPtr 32 powerMachine true = 3 := by
    refine (readLe_store_of_apart _ (BigUint.length_bytesLe 1 32)
      (loopPtr_cells.apart false true (by decide))).trans ?_
    exact (readLe_store _ 64#32 (BigUint.length_bytesLe 3 32) (by decide)).trans
      (toNat_bytesLe (by decide))
  have hsq : IsSlotMul bn254FpEntry loopPtr (mulWord 0#32) powerMachine false false false :=
    ⟨by decide, by decide, rfl, rfl, rfl, rfl⟩
  obtain ⟨s₁, hrun₁, hx₁, hh₁⟩ := slotMul_returns prime_bn254FpEntry hlt Host.constant hsq
  have hmul : IsSlotMul bn254FpEntry loopPtr (mulWord 1#32) s₁ false false true := by
    refine ⟨by decide, by decide, ?_, ?_, ?_, ?_⟩
    · rw [hh₁]
      rfl
    · exact Cpu.readReg_of_x _ hx₁
    · exact Cpu.readReg_of_x _ hx₁
    · exact Cpu.readReg_of_x _ hx₁
  obtain ⟨s₂, hrun₂, -, -⟩ := slotMul_returns prime_bn254FpEntry hlt Host.constant hmul
  have hexec : Executes Host.constant bn254FpEntry loopPtr
      (MulOp.squareMultiply false true [true]) powerMachine s₂ :=
    .mul hsq hrun₁ (.mul hmul hrun₂ (.done s₂))
  have hloop := (modular_arithmetic Host.constant prime_bn254FpEntry hlt).2.1 Bool loopPtr
    loopPtr_cells
  refine ⟨s₂, hexec, (hloop.2 false true [true] _ _ (by decide) hacc hexec).trans ?_⟩
  show slots loopPtr 32 powerMachine true ^ 1 % bn254Fp = 3
  rw [hbase]
  decide

end OpenvmSim.Precompiles
