import OpenvmSim.Base.Actions
import OpenvmSim.Base.SlotProgram
import OpenvmSim.Precompiles.Footprint
import OpenvmSim.Precompiles.Int256Order
import OpenvmSim.Precompiles.ModularExponent

/-! Runs as programs on numbers in memory.

A guest keeps numbers in slots of its memory and names them by pointers. A precompile word whose
pointers are slots is an operation on them, and a step that does not write into a slot is quiet.
The INT256 words of a run are thus a program on 256-bit numbers (`run_wide`). -/
namespace OpenvmSim.Precompiles
open Rv32im

/-! ### Slots -/

section Slots
variable {ι : Type} {ptr : ι → Word} {n : ℕ} {host : Host} {s s' t : Machine}

/-- The next step writes into no slot. -/
def Quiet (ptr : ι → Word) (n : ℕ) (s : Machine) : Prop :=
  ∀ i a, (a - ptr i).toNat < n → ¬(footprint s).region.Contains a

/-- The `n` bytes at a pointer, byte by byte. -/
theorem readVec_eq_of_bytes {m m' : Memory} {p : Word}
    (h : ∀ a, (a - p).toNat < n → m'.bytes a = m.bytes a) : m'.readVec p n = m.readVec p n := by
  refine List.map_congr_left fun k hk => ?_
  have hlt : k < n := List.mem_range.mp hk
  have hdiff : p + BitVec.ofNat 32 k - p = BitVec.ofNat 32 k := by grind
  refine h _ ?_
  rw [hdiff, BitVec.toNat_ofNat]
  exact (Nat.mod_le _ _).trans_lt hlt

theorem readLe_eq_of_bytes {m m' : Memory} {p : Word}
    (h : ∀ a, (a - p).toNat < n → m'.bytes a = m.bytes a) : readLe m' p n = readLe m p n := by
  rw [readLe, readLe, readVec_eq_of_bytes h]

theorem slots_quiet (h : Iteration (customOps host) s s')
    (hq : Quiet ptr n s) : slots ptr n s' = slots ptr n s := by
  funext i
  exact readLe_eq_of_bytes fun a ha => (iteration_frame h).bytes a (hq i a ha)

/-- A word that stores a number at a slot changes that slot. -/
theorem slots_stored [DecidableEq ι] (hcells : Cells ptr n) (h : Iteration (customOps host) s s')
    (hc : IsCustom s.cpu.fetch) {d : ι} (hd : s.cpu.readReg (rd s.cpu.fetch) = ptr d) {v : ℕ}
    (hw : Writes host s.cpu.fetch s n v) :
    slots ptr n s' = Function.update (slots ptr n s) d v := by
  obtain ⟨bs, hlen, rfl, hy⟩ := hw
  have hstep : (Cpu.step (customOps host)).run s =
      .ok .continue (advanced s.cpu.pc (s.store (ptr d) bs)) := by
    rw [step_custom _ hc, ← hd]
    exact hy
  obtain ⟨t, ht, rfl⟩ := iteration_iff.mp h
  cases hstep.symm.trans ht
  funext i
  rw [slots, mem_countStep, mem_advanced]
  by_cases hi : i = d
  · subst hi
    rw [Function.update_self, readLe_store s _ hlen hcells.fits]
  · rw [Function.update_of_ne hi, readLe_store_of_apart s hlen (hcells.apart d i (Ne.symm hi))]
    rfl

/-- A run passes through its states. -/
theorem passes_of_run {trace : List Machine} (h : Run (customOps host) s trace t) :
    Passes (Iteration (customOps host)) s trace t := by
  induction h with
  | done s => exact .done s
  | next hit _ ih => exact .step hit ih

end Slots

/-! ### Words of a table -/

section Table
variable {ι O E : Type} {f3 : Word} {code : O → Word} {entries : PrecompileHandler → List E}
  {entry : E} {ptr : ι → Word} {s : Machine} {o : SlotOp ι O}

/-- The next word is an operation of a table entry on slots. -/
structure IsTableOp (f3 : Word) (code : O → Word) (entries : PrecompileHandler → List E)
    (entry : E) (ptr : ι → Word) (s : Machine) (o : SlotOp ι O) : Prop where
  word : IsCustom1 s.cpu.fetch f3
  op : tableOp s.cpu.fetch = code o.op
  table : (entries s.handler)[tableIdx s.cpu.fetch]? = some entry
  dest : s.cpu.readReg (rd s.cpu.fetch) = ptr o.dest
  left : s.cpu.readReg (rs1 s.cpu.fetch) = ptr o.left
  right : s.cpu.readReg (rs2 s.cpu.fetch) = ptr o.right

variable (h : IsTableOp f3 code entries entry ptr s o) (n : ℕ)
include h

theorem IsTableOp.leftOperand_eq : leftOperand s.cpu.fetch s n = slots ptr n s o.left := by
  rw [leftOperand, h.left]
  rfl

theorem IsTableOp.rightOperand_eq : rightOperand s.cpu.fetch s n = slots ptr n s o.right := by
  rw [rightOperand, h.right]
  rfl

theorem IsTableOp.leftPair_eq :
    leftPair s.cpu.fetch s n = readPair s.cpu.mem (ptr o.left) n := by
  rw [leftPair, h.left]

theorem IsTableOp.rightPair_eq :
    rightPair s.cpu.fetch s n = readPair s.cpu.mem (ptr o.right) n := by
  rw [rightPair, h.right]

end Table

/-! ### 256-bit numbers -/

/-- The operations of the INT256 words. -/
inductive WideOp where
  | add | sub | xor | or | and | sll | srl | sra | slt | sltu | mul
  deriving DecidableEq

namespace WideOp

def funct7 : WideOp → Word
  | add => INT256_ADD
  | sub => INT256_SUB
  | xor => INT256_XOR
  | or => INT256_OR
  | and => INT256_AND
  | sll => INT256_SLL
  | srl => INT256_SRL
  | sra => INT256_SRA
  | slt => INT256_SLT
  | sltu => INT256_SLTU
  | mul => INT256_MUL

/-- A shift is by the low eight bits of its second operand. -/
def value : WideOp → BitVec 256 → BitVec 256 → BitVec 256
  | add, a, b => a + b
  | sub, a, b => a - b
  | xor, a, b => a ^^^ b
  | or, a, b => a ||| b
  | and, a, b => a &&& b
  | sll, a, b => a <<< (b.toNat % 256)
  | srl, a, b => a >>> (b.toNat % 256)
  | sra, a, b => a.sshiftRight (b.toNat % 256)
  | slt, a, b => if a.toInt < b.toInt then 1#256 else 0#256
  | sltu, a, b => if a.toNat < b.toNat then 1#256 else 0#256
  | mul, a, b => a * b

end WideOp

namespace Int256

section Bits
variable (a b : U256)

theorem bits_of_value {r : U256} {v : BitVec 256} (h : value r = v.toNat) : bits r = v := by
  apply BitVec.eq_of_toNat_eq
  rw [toNat_bits, h]

/-- A byte-wise operation is the operation on the bits. -/
theorem bits_zipWith {f : Byte → Byte → Byte} {g : Bool → Bool → Bool}
    {F : BitVec 256 → BitVec 256 → BitVec 256}
    (hf : ∀ x y j, (f x y).getLsbD j = g (x.getLsbD j) (y.getLsbD j))
    (hF : ∀ x y j, (F x y).getLsbD j = g (x.getLsbD j) (y.getLsbD j)) :
    bits (Vector.zipWith f a b) = F (bits a) (bits b) := by
  refine bits_eq_of_bytes fun i hi j hj => ?_
  have hdiv : (8 * i + j) / 8 = i := by omega
  have hmod : (8 * i + j) % 8 = j := by omega
  rw [Vector.getElem_zipWith, hf, hF, getLsbD_bits, getLsbD_bits, hdiv, hmod, byteAt, byteAt,
    dif_pos hi, dif_pos hi]

theorem bits_boolToU256 (c : Bool) : bits (boolToU256 c) = if c then 1#256 else 0#256 := by
  refine bits_of_value ?_
  rw [value_boolToU256]
  cases c <;> rfl

theorem toNat_shift : shiftAmount b = (bits b).toNat % 256 := by
  rw [shiftAmount_eq, toNat_bits]

/-- Every operation has its value on the bits. -/
theorem compute_bits (host : Host) (op : WideOp) : ∃ r,
    compute host op.funct7 a b = .ok (some r) ∧ bits r = op.value (bits a) (bits b) := by
  have hb : (bits b).toNat % 256 < 256 := Nat.mod_lt _ (by decide)
  cases op with
  | add =>
    obtain ⟨r, hr, hv⟩ := add_computes a b
    refine ⟨r, congrArg (Except.map some) (hr host), bits_of_value ?_⟩
    rw [hv, WideOp.value, BitVec.toNat_add, toNat_bits, toNat_bits]
  | sub =>
    obtain ⟨r, hr, hv⟩ := sub_computes a b
    refine ⟨r, congrArg (Except.map some) (hr host), bits_of_value ?_⟩
    have ha := value_lt_two_pow a
    have hb := value_lt_two_pow b
    rw [hv, WideOp.value, BitVec.toNat_sub, toNat_bits, toNat_bits]
    omega
  | mul =>
    obtain ⟨r, hr, hv⟩ := mul_computes a b
    refine ⟨r, congrArg (Except.map some) (hr host), bits_of_value ?_⟩
    rw [hv, WideOp.value, BitVec.toNat_mul, toNat_bits, toNat_bits]
  | xor =>
    exact ⟨_, rfl, bits_zipWith (g := Bool.xor) a b (fun _ _ _ => BitVec.getLsbD_xor)
      fun _ _ _ => BitVec.getLsbD_xor⟩
  | or =>
    exact ⟨_, rfl, bits_zipWith (g := Bool.or) a b (fun _ _ _ => BitVec.getLsbD_or)
      fun _ _ _ => BitVec.getLsbD_or⟩
  | and =>
    exact ⟨_, rfl, bits_zipWith (g := Bool.and) a b (fun _ _ _ => BitVec.getLsbD_and)
      fun _ _ _ => BitVec.getLsbD_and⟩
  | sll =>
    refine ⟨_, rfl, ?_⟩
    rw [toNat_shift, bits_shl a hb]
    rfl
  | srl =>
    refine ⟨_, rfl, ?_⟩
    rw [toNat_shift, bits_shrLogical a hb]
    rfl
  | sra =>
    refine ⟨_, rfl, ?_⟩
    rw [toNat_shift, bits_shrArith a hb]
    rfl
  | slt =>
    refine ⟨_, rfl, ?_⟩
    rw [bits_boolToU256, WideOp.value, toInt_bits, toInt_bits]
    simp only [beq_iff_eq, cmpSigned_lt_iff]
  | sltu =>
    refine ⟨_, rfl, ?_⟩
    rw [bits_boolToU256, WideOp.value, toNat_bits, toNat_bits, cmpUnsigned_eq]
    simp only [beq_iff_eq, Nat.compare_eq_lt]

end Bits

end Int256

/-! ### Runs of INT256 words -/

section Wide
variable {ι : Type} {ptr : ι → Word} {host : Host} {s s' : Machine}

/-- The 256-bit numbers in the slots. -/
def wide (ptr : ι → Word) (s : Machine) (i : ι) : BitVec 256 := BitVec.ofNat 256 (slots ptr 32 s i)

/-- The next word is an INT256 operation on slots. -/
structure IsWideOp (ptr : ι → Word) (s : Machine) (o : SlotOp ι WideOp) : Prop where
  word : IsCustom0 s.cpu.fetch F3_INT256
  op : funct7 s.cpu.fetch = o.op.funct7
  dest : s.cpu.readReg (rd s.cpu.fetch) = ptr o.dest
  left : s.cpu.readReg (rs1 s.cpu.fetch) = ptr o.left
  right : s.cpu.readReg (rs2 s.cpu.fetch) = ptr o.right

/-- The next word is a BEQ256 on slots. -/
structure IsWideBranch (ptr : ι → Word) (s : Machine) (x y : ι) : Prop where
  word : IsBeq256 s.cpu.fetch
  left : s.cpu.readReg (rs1 s.cpu.fetch) = ptr x
  right : s.cpu.readReg (rs2 s.cpu.fetch) = ptr y

theorem bits_leftU256 {i : ι} (h : s.cpu.readReg (rs1 s.cpu.fetch) = ptr i) :
    Int256.bits (leftU256 s.cpu.fetch s) = wide ptr s i := by
  rw [Int256.bits, value_leftU256, leftOperand, h]
  rfl

theorem bits_rightU256 {i : ι} (h : s.cpu.readReg (rs2 s.cpu.fetch) = ptr i) :
    Int256.bits (rightU256 s.cpu.fetch s) = wide ptr s i := by
  rw [Int256.bits, value_rightU256, rightOperand, h]
  rfl

/-- An operation stores its value. -/
theorem wide_writes {o : SlotOp ι WideOp} (host : Host) (h : IsWideOp ptr s o) :
    Writes host s.cpu.fetch s 32
      (o.op.value (wide ptr s o.left) (wide ptr s o.right)).toNat := by
  obtain ⟨r, hr, hv⟩ :=
    Int256.compute_bits (leftU256 s.cpu.fetch s) (rightU256 s.cpu.fetch s) host o.op
  rw [bits_leftU256 h.left, bits_rightU256 h.right] at hv
  rw [← h.op] at hr
  refine writes_of_yields (int256_yields h.word hr) ?_
  rw [← hv, Int256.toNat_bits]

/-- An operation completes, and the word after it is next. -/
theorem wide_completes {o : SlotOp ι WideOp} (host : Host) (h : IsWideOp ptr s o) :
    ∃ s', Iteration (customOps host) s s' ∧ s'.cpu.pc = s.cpu.pc + 4#32 := by
  obtain ⟨bs, -, -, hy⟩ := wide_writes host h
  refine ⟨_, iteration_iff.mpr ⟨_, (step_custom _ (.inl h.word.1)).trans hy, rfl⟩, ?_⟩
  rw [pc_countStep, pc_advanced]
  exact if_pos rfl

theorem wide_op [DecidableEq ι] (hcells : Cells ptr 32) {o : SlotOp ι WideOp}
    (h : Iteration (customOps host) s s') (ho : IsWideOp ptr s o) :
    wide ptr s' = SlotOp.apply WideOp.value (wide ptr s) o := by
  have hslots := slots_stored hcells h (.inl ho.word.1) ho.dest (wide_writes host ho)
  funext i
  rw [wide, hslots]
  by_cases hi : i = o.dest
  · rw [hi, SlotOp.apply, Function.update_self, Function.update_self]
    exact BitVec.ofNat_toNat ..
  · rw [SlotOp.apply, Function.update_of_ne hi, Function.update_of_ne hi]
    rfl

theorem wide_eq_iff {x y : ι} (h : IsWideBranch ptr s x y) :
    leftU256 s.cpu.fetch s = rightU256 s.cpu.fetch s ↔ wide ptr s x = wide ptr s y := by
  rw [← bits_leftU256 h.left, ← bits_rightU256 h.right]
  refine ⟨congrArg Int256.bits, fun hbits => Int256.value_injective ?_⟩
  rw [← Int256.toNat_bits, hbits, Int256.toNat_bits]

/-- A branch to itself goes on with the next word. -/
theorem wide_branch {x y : ι} (h : Iteration (customOps host) s s') (hb : IsWideBranch ptr s x y) :
    s'.cpu.pc = if wide ptr s x = wide ptr s y ∧ immB s.cpu.fetch ≠ 0#32
      then s.cpu.pc + immB s.cpu.fetch else s.cpu.pc + 4#32 := by
  have hpc : ∀ pc, (handleBeq256 s.cpu.fetch).run s = .ok () (s.setPc pc) →
      s'.cpu.pc = if pc = s.cpu.pc then s.cpu.pc + 4#32 else pc := by
    intro pc hrun
    have hstep := (step_custom (customOps host) (.inl hb.word.1)).trans
      (handle_run_ok (calls_beq256 hb.word) hrun)
    obtain ⟨t, ht, rfl⟩ := iteration_iff.mp h
    cases hstep.symm.trans ht
    rw [pc_countStep, pc_advanced]
    rfl
  have hbeq : (handleBeq256 s.cpu.fetch).run s =
      .ok () (s.setPc (if leftU256 s.cpu.fetch s = rightU256 s.cpu.fetch s
        then s.cpu.pc + immB s.cpu.fetch else s.cpu.pc + 4#32)) := rfl
  rw [hpc _ hbeq]
  by_cases heq : wide ptr s x = wide ptr s y
  · rw [if_pos ((wide_eq_iff hb).mpr heq)]
    by_cases himm : immB s.cpu.fetch = 0#32
    · rw [if_pos (by rw [himm, BitVec.add_zero]), if_neg fun hand => hand.2 himm]
    · rw [if_neg (by simpa using himm), if_pos ⟨heq, himm⟩]
  · rw [if_neg (mt (wide_eq_iff hb).mp heq), if_neg (by simp), if_neg fun hand => heq hand.1]

end Wide

/-- **The INT256 words of a run are a program on 256-bit numbers.** Take slots of 32 bytes that are
apart. An INT256 word whose three pointers are slots always completes. A run in which such words
carry out a list of operations, and whose other steps write into no slot, ends with the numbers
that the list makes of those at its start, as operations on bit vectors. A BEQ256 on two slots
goes to its target if their numbers are equal and the target is not itself, and to the next word
otherwise. -/
theorem run_wide (host : Host) {ι : Type} [DecidableEq ι] {ptr : ι → Word} (hcells : Cells ptr 32) :
    (∀ s o, IsWideOp ptr s o →
      ∃ s', Iteration (customOps host) s s' ∧ s'.cpu.pc = s.cpu.pc + 4#32) ∧
    (∀ trace s t ops, Run (customOps host) s trace t →
      CarriesOut (IsWideOp ptr) (Quiet ptr 32) trace ops →
      wide ptr t = SlotOp.run WideOp.value ops (wide ptr s)) ∧
    ∀ s s' x y, Iteration (customOps host) s s' → IsWideBranch ptr s x y →
      s'.cpu.pc = if wide ptr s x = wide ptr s y ∧ immB s.cpu.fetch ≠ 0#32
        then s.cpu.pc + immB s.cpu.fetch else s.cpu.pc + 4#32 := by
  refine ⟨fun s o ho => wide_completes host ho, fun trace s t ops hrun hops => ?_,
    fun s s' x y h hb => wide_branch h hb⟩
  refine passes_run (fun u v => wide ptr u = v) ?_ ?_ (passes_of_run hrun) hops rfl
  · rintro u u' v o h ho rfl
    exact wide_op hcells h ho
  · rintro u u' v h hq rfl
    funext i
    rw [wide, slots_quiet h hq]
    rfl

/-- The number at address zero, and the one at 4096. -/
def pairPtr (second : Bool) : Word := if second then 4096#32 else 0#32

/-- A machine about to subtract the number one at `[x1]` from zero into its place, and to double it
there. -/
def negateMachine : Machine :=
  ((Sim.loaded [0x0210508b#32, 0x0010d08b#32] [[]]).setReg 1#5 4096#32).store 4096#32 [1#8]

theorem pairPtr_cells : Cells pairPtr 32 where
  fits := by decide
  apart := by
    unfold Apart
    decide

theorem run_negateMachine : Run (customOps Host.constant) negateMachine
    [negateMachine, negateMachine.after (customOps Host.constant) 1]
    (negateMachine.after (customOps Host.constant) 2) :=
  run_after (n := 2) (by decide +kernel)

theorem wide_negateMachine :
    wide pairPtr negateMachine = fun second => if second then 1#256 else 0#256 := by
  funext second
  cases second <;> decide +kernel

/-- One is negated and doubled. -/
theorem run_wide_negate :
    wide pairPtr (negateMachine.after (customOps Host.constant) 2) true = -2#256 := by
  have hsub : IsWideOp pairPtr negateMachine ⟨.sub, true, false, true⟩ :=
    ⟨by decide +kernel, by decide +kernel, by decide +kernel, by decide +kernel, by decide +kernel⟩
  have hadd : IsWideOp pairPtr (negateMachine.after (customOps Host.constant) 1)
      ⟨.add, true, true, true⟩ :=
    ⟨by decide +kernel, by decide +kernel, by decide +kernel, by decide +kernel, by decide +kernel⟩
  rw [(run_wide Host.constant pairPtr_cells).2.1 _ _ _ _ run_negateMachine
    (.act hsub (.act hadd .nil)), wide_negateMachine]
  decide +kernel

end OpenvmSim.Precompiles
