import OpenvmSim.Precompiles.FieldRuns
import OpenvmSim.Rv32im.Assemble

/-! Code for programs on slots.

A program on slots is assembled into one custom word for each operation, with the pointers to the
slots in registers. Executed from memory the words perform the program: they complete as long as
no operation is stuck, and leave in the slots what the program calculates (`slot_code`). -/
namespace OpenvmSim.Precompiles
open Rv32im

/-! ### Words by their fields -/

section Fields
variable (f7 op : BitVec 7) (r2 r1 r : Reg) (f3 : BitVec 3)

theorem opcode_rType : opcode (Isa.rType f7 r2 r1 f3 r op) = op.setWidth 32 := by
  rw [opcode_eq, Isa.rType, Isa.majorOpcode_layout]

theorem funct3_rType : funct3 (Isa.rType f7 r2 r1 f3 r op) = f3.setWidth 32 := by
  rw [funct3_eq, Isa.rType, Isa.funct3Field_layout]

theorem funct7_rType : funct7 (Isa.rType f7 r2 r1 f3 r op) = f7.setWidth 32 := by
  rw [funct7_eq, Isa.rType, Isa.funct7Field_layout]

theorem rd_rType : rd (Isa.rType f7 r2 r1 f3 r op) = r := by
  rw [rd_eq, Isa.rType, Isa.rdField_layout]

theorem rs1_rType : rs1 (Isa.rType f7 r2 r1 f3 r op) = r1 := by
  rw [rs1_eq, Isa.rType, Isa.rs1Field_layout]

theorem rs2_rType : rs2 (Isa.rType f7 r2 r1 f3 r op) = r2 := by
  rw [rs2_eq, Isa.rType, Isa.rs2Field_layout]

/-- The custom-1 word of an operation of a table entry. -/
def tableWord (f3 code : BitVec 3) (idx : BitVec 4) (r2 r1 r : Reg) : Word :=
  Isa.rType (idx ++ code) r2 r1 f3 r (OPCODE_CUSTOM_1.setWidth 7)

variable (code : BitVec 3) (idx : BitVec 4)

theorem isCustom1_tableWord : IsCustom1 (tableWord f3 code idx r2 r1 r) (f3.setWidth 32) := by
  refine ⟨?_, funct3_rType _ _ _ _ _ _⟩
  rw [tableWord, opcode_rType]
  rfl

theorem tableOp_tableWord : tableOp (tableWord f3 code idx r2 r1 r) = code.setWidth 32 := by
  rw [tableOp, tableWord, funct7_rType]
  revert idx code
  decide

theorem tableIdx_tableWord : tableIdx (tableWord f3 code idx r2 r1 r) = idx.toNat := by
  rw [tableIdx, tableWord, funct7_rType]
  revert idx code
  decide

end Fields

/-! ### One word -/

section Step
variable {host : Host} {s s' : Machine} {n v : ℕ}

/-- The step writes nothing but `n` bytes at `p`, and goes on with the next word. -/
structure StoresAt (host : Host) (s s' : Machine) (p : Word) (n : ℕ) : Prop where
  iteration : Iteration (customOps host) s s'
  pc : s'.cpu.pc = s.cpu.pc + 4#32
  x : s'.cpu.x = s.cpu.x
  handler : s'.handler = s.handler
  bytes : ∀ a, n ≤ (a - p).toNat → s'.cpu.mem.bytes a = s.cpu.mem.bytes a

/-- A word that stores a number completes. -/
theorem storesAt_of_writes (hc : IsCustom s.cpu.fetch) (h : Writes host s.cpu.fetch s n v) :
    ∃ s', StoresAt host s s' (s.cpu.readReg (rd s.cpu.fetch)) n := by
  obtain ⟨bs, hlen, -, hy⟩ := h
  have hstep := (step_custom (customOps host) hc).trans hy
  refine ⟨_, iteration_iff.mpr ⟨_, hstep, rfl⟩, ?_, ?_, ?_, fun a ha => ?_⟩
  · rw [pc_countStep, pc_advanced]
    exact if_pos rfl
  · exact x_advanced _ _
  · rw [handler_countStep, handler_advanced]
    rfl
  · rw [mem_countStep, mem_advanced, Sim.mem_store, Memory.bytes_writeSlice]
    have hout : ¬(⟨s.cpu.readReg (rd s.cpu.fetch), n⟩ : Region).Contains a := Nat.not_lt.mpr ha
    exact Region.overlay_outside hout hlen.le _

/-- Four bytes make a word. -/
theorem readU32_eq_of_bytes {m m' : Memory} {a : Word}
    (h : ∀ j, j < 4 → m'.bytes (a + BitVec.ofNat 32 j) = m.bytes (a + BitVec.ofNat 32 j)) :
    m'.readU32 a = m.readU32 a := by
  have h0 : m'.bytes a = m.bytes a := by simpa using h 0 (by decide)
  have h1 : m'.bytes (a + 1#32) = m.bytes (a + 1#32) := h 1 (by decide)
  have h2 : m'.bytes (a + 2#32) = m.bytes (a + 2#32) := h 2 (by decide)
  have h3 : m'.bytes (a + 3#32) = m.bytes (a + 3#32) := h 3 (by decide)
  rw [Memory.readU32_eq, Memory.readU32_eq, h0, h1, h2, h3]

end Step

/-! ### Straight-line code -/

section Code
variable {ι O : Type} {reg : ι → Reg} {ptr : ι → Word} {n : ℕ} {host : Host} {s s' : Machine}

/-- The words are next in memory, in no slot, and the pointers to the slots are in registers. -/
structure Loaded (reg : ι → Reg) (ptr : ι → Word) (n : ℕ) (words : List Word) (s : Machine) :
    Prop where
  regs : ∀ i, s.cpu.readReg (reg i) = ptr i
  code : ∀ k w, words[k]? = some w → s.cpu.mem.readU32 (s.cpu.pc + BitVec.ofNat 32 (4 * k)) = w
  apart : ∀ i k j, k < words.length → j < 4 →
    n ≤ (s.cpu.pc + BitVec.ofNat 32 (4 * k + j) - ptr i).toNat

/-- No byte changes outside of the slots that the operations write to. -/
def OnlyWrites (ptr : ι → Word) (n : ℕ) (ops : List (SlotOp ι O)) (s t : Machine) : Prop :=
  ∀ a, (∀ o ∈ ops, n ≤ (a - ptr o.dest).toNat) → t.cpu.mem.bytes a = s.cpu.mem.bytes a

/-- The first word is the one fetched. -/
theorem Loaded.fetch {w : Word} {words : List Word} (h : Loaded reg ptr n (w :: words) s) :
    s.cpu.fetch = w := by
  have hcode := h.code 0 w rfl
  rwa [Nat.mul_zero, BitVec.add_zero] at hcode

/-- A store into a slot leaves the words behind the first as they are. -/
theorem Loaded.next {w : Word} {words : List Word} {d : ι} (h : Loaded reg ptr n (w :: words) s)
    (hs : StoresAt host s s' (ptr d) n) : Loaded reg ptr n words s' := by
  have hpc : ∀ k, s'.cpu.pc + BitVec.ofNat 32 k = s.cpu.pc + BitVec.ofNat 32 (4 + k) := by
    intro k
    rw [hs.pc, BitVec.add_assoc, BitVec.ofNat_add]
  refine ⟨fun i => ?_, fun k w' hk => ?_, fun i k j hk hj => ?_⟩
  · rw [← h.regs i]
    exact Cpu.readReg_of_x _ hs.x
  · have hlt : k + 1 < (w :: words).length := by
      have := (List.getElem?_eq_some_iff.mp hk).1
      simpa using this
    rw [hpc, ← h.code (k + 1) w' hk]
    have hidx : 4 + 4 * k = 4 * (k + 1) := by ring
    rw [hidx]
    refine readU32_eq_of_bytes fun j hj => hs.bytes _ ?_
    rw [BitVec.add_assoc, ← BitVec.ofNat_add]
    exact h.apart d (k + 1) j hlt hj
  · rw [hpc]
    have hidx : 4 + (4 * k + j) = 4 * (k + 1) + j := by ring
    rw [hidx]
    exact h.apart i (k + 1) j (Nat.succ_lt_succ hk) hj

variable [DecidableEq ι] {V : Type} {word : SlotOp ι O → Word} {eval : O → V → V → V}
  {stuck : O → V → V → Prop} (does : Machine → SlotOp ι O → Prop)
  (table : PrecompileHandler → Prop) (holds : Machine → (ι → V) → Prop)
  (hdoes : ∀ s o, s.cpu.fetch = word o → (∀ i, s.cpu.readReg (reg i) = ptr i) →
    table s.handler → does s o)
  (hstep : ∀ s o v, does s o → holds s v → ¬stuck o.op (v o.left) (v o.right) →
    ∃ s', StoresAt host s s' (ptr o.dest) n ∧ holds s' (SlotOp.apply eval v o))
include hdoes hstep

/-- The words of a program perform it, if no operation is stuck. -/
theorem code_performs {ops : List (SlotOp ι O)} (h : Loaded reg ptr n (ops.map word) s)
    (ht : table s.handler) {v : ι → V} (hv : holds s v) (hfree : SlotOp.Free eval stuck ops v) :
    ∃ trace t, Run (customOps host) s trace t ∧
      CarriesOut does (Quiet ptr n) trace ops ∧
      t.cpu.pc = s.cpu.pc + BitVec.ofNat 32 (4 * ops.length) ∧ OnlyWrites ptr n ops s t ∧
      holds t (SlotOp.run eval ops v) := by
  induction ops generalizing s v with
  | nil => exact ⟨[], s, .done s, .nil, (BitVec.add_zero _).symm, fun _ _ => rfl, hv⟩
  | cons o ops ih =>
    obtain ⟨hstuck, hrest⟩ := hfree
    have ho := hdoes s o h.fetch h.regs ht
    obtain ⟨s₁, hs, hv₁⟩ := hstep s o v ho hv hstuck
    obtain ⟨trace, t, hrun, hperf, hpc, hbytes, hlast⟩ := ih (h.next hs) (hs.handler ▸ ht) hv₁ hrest
    refine ⟨s :: trace, t, .next hs.iteration hrun, .act ho hperf, ?_, fun a ha => ?_, hlast⟩
    · have hlen : 4 * (o :: ops).length = 4 + 4 * ops.length := by
        rw [List.length_cons]
        ring
      rw [hpc, hs.pc, BitVec.add_assoc, hlen, BitVec.ofNat_add]
    · obtain ⟨hfirst, hothers⟩ := List.forall_mem_cons.mp ha
      exact (hbytes a hothers).trans (hs.bytes a hfirst)

end Code

/-! ### The words of a program -/

section Assembled
variable {ι : Type} (reg : ι → Reg)

/-- The INT256 word of an operation. -/
def wideWord (o : SlotOp ι WideOp) : Word :=
  Isa.rType (o.op.funct7.setWidth 7) (reg o.right) (reg o.left) (F3_INT256.setWidth 3) (reg o.dest)
    (OPCODE_CUSTOM_0.setWidth 7)

/-- The word of an operation of the table entry with the given index. -/
def opWord {O : Type} (f3 : Word) (code : O → Word) (idx : BitVec 4) (o : SlotOp ι O) : Word :=
  tableWord (f3.setWidth 3) ((code o.op).setWidth 3) idx (reg o.right) (reg o.left) (reg o.dest)

/-- The modular word of an operation of the entry with the given index. -/
abbrev modularWord (idx : BitVec 4) (o : SlotOp ι FieldOp) : Word :=
  opWord reg F3_MODULAR FieldOp.code idx o

variable {reg} {ptr : ι → Word} {s : Machine}

theorem isWideOp_of_fetch {o : SlotOp ι WideOp} (h : s.cpu.fetch = wideWord reg o)
    (hr : ∀ i, s.cpu.readReg (reg i) = ptr i) : IsWideOp ptr s o := by
  rw [wideWord] at h
  refine ⟨⟨?_, ?_⟩, ?_, ?_, ?_, ?_⟩
  · rw [h, opcode_rType]
    rfl
  · rw [h, funct3_rType]
    rfl
  · rw [h, funct7_rType]
    cases o.op <;> rfl
  · rw [h, rd_rType, hr]
  · rw [h, rs1_rType, hr]
  · rw [h, rs2_rType, hr]

theorem isTableOp_of_fetch {O E : Type} {f3 : Word} {code : O → Word}
    {entries : PrecompileHandler → List E} {entry : E} {idx : BitVec 4} {o : SlotOp ι O}
    (hf : (f3.setWidth 3).setWidth 32 = f3) (hcode : ∀ op, ((code op).setWidth 3).setWidth 32 = code op)
    (h : s.cpu.fetch = opWord reg f3 code idx o) (hr : ∀ i, s.cpu.readReg (reg i) = ptr i)
    (ht : (entries s.handler)[idx.toNat]? = some entry) :
    IsTableOp f3 code entries entry ptr s o := by
  rw [opWord] at h
  refine ⟨?_, ?_, ?_, ?_, ?_, ?_⟩
  · have hword := isCustom1_tableWord (reg o.right) (reg o.left) (reg o.dest) (f3.setWidth 3)
      ((code o.op).setWidth 3) idx
    rwa [hf, ← h] at hword
  · rw [h, tableOp_tableWord, hcode]
  · rw [h, tableIdx_tableWord]
    exact ht
  · rw [h, tableWord, rd_rType, hr]
  · rw [h, tableWord, rs1_rType, hr]
  · rw [h, tableWord, rs2_rType, hr]

theorem isModularOp_of_fetch {idx : BitVec 4} {entry : ModulusEntry} {o : SlotOp ι FieldOp}
    (h : s.cpu.fetch = modularWord reg idx o) (hr : ∀ i, s.cpu.readReg (reg i) = ptr i)
    (ht : s.handler.moduli[idx.toNat]? = some entry) : IsModularOp entry ptr s o :=
  isTableOp_of_fetch rfl (fun op => by cases op <;> rfl) h hr ht

variable [DecidableEq ι] (host : Host)

/-- No INT256 operation is ever stuck. -/
theorem free_wide (ops : List (SlotOp ι WideOp)) (v : ι → BitVec 256) :
    SlotOp.Free WideOp.value (fun _ _ _ => False) ops v := by
  induction ops generalizing v with
  | nil => trivial
  | cons o ops ih => exact ⟨not_false, ih _⟩

theorem wide_code (hcells : Cells ptr 32) {ops : List (SlotOp ι WideOp)}
    (hs : Loaded reg ptr 32 (ops.map (wideWord reg)) s) :
    ∃ trace t, Run (customOps host) s trace t ∧
      CarriesOut (IsWideOp ptr) (Quiet ptr 32) trace ops ∧
      t.cpu.pc = s.cpu.pc + BitVec.ofNat 32 (4 * ops.length) ∧
      OnlyWrites ptr 32 ops s t ∧
      wide ptr t = SlotOp.run WideOp.value ops (wide ptr s) := by
  refine code_performs (IsWideOp ptr) (fun _ => True) (fun u v => wide ptr u = v)
    (fun u o hf hr _ => ?_) ?_ hs trivial rfl (free_wide ops _)
  · exact isWideOp_of_fetch hf hr
  rintro u o v ho rfl -
  obtain ⟨u', hu⟩ := storesAt_of_writes (.inl ho.word.1) (wide_writes host ho)
  rw [ho.dest] at hu
  exact ⟨u', hu, wide_op hcells hu.iteration ho⟩

theorem modular_code {entry : ModulusEntry} [Fact entry.modulus.Prime]
    (hlt : entry.modulus < 256 ^ entry.limbBytes) (hcells : Cells ptr entry.limbBytes)
    {idx : BitVec 4} {ops : List (SlotOp ι FieldOp)}
    (hs : Loaded reg ptr entry.limbBytes (ops.map (modularWord reg idx)) s)
    (ht : s.handler.moduli[idx.toNat]? = some entry)
    (hfree : SlotOp.Free (FieldOp.residue entry.modulus) (FieldOp.Stuck entry.modulus) ops
      (slots ptr entry.limbBytes s)) :
    ∃ trace t, Run (customOps host) s trace t ∧
      CarriesOut (IsModularOp entry ptr) (Quiet ptr entry.limbBytes) trace ops ∧
      t.cpu.pc = s.cpu.pc + BitVec.ofNat 32 (4 * ops.length) ∧
      OnlyWrites ptr entry.limbBytes ops s t ∧
      slots ptr entry.limbBytes t =
        SlotOp.run (FieldOp.residue entry.modulus) ops (slots ptr entry.limbBytes s) := by
  refine code_performs (IsModularOp entry ptr)
    (fun handler => handler.moduli[idx.toNat]? = some entry)
    (fun u v => slots ptr entry.limbBytes u = v) (fun u o hf hr htab => ?_) ?_ hs ht rfl hfree
  · exact isModularOp_of_fetch hf hr htab
  rintro u o v ho rfl hstuck
  obtain ⟨u', hu⟩ := storesAt_of_writes (.inr ho.word.1) (field_writes host hlt ho hstuck)
  rw [ho.dest] at hu
  exact ⟨u', hu, field_op hcells hlt hu.iteration ho⟩

end Assembled

/-- **Assembled programs calculate.** Words assembled from a list of INT256 operations, or of modular
operations of one entry, on slots that are apart and with the pointers to them in registers, are
executed one after the other when they are next in memory and in no slot: the run comes to the end
of the words, having carried out the list, leaves in the slots what the list makes of them, and
changes no byte outside of those it writes to. Modular words also need a prime modulus below
`256 ^ n` and that no operation is stuck on what those before it have left. -/
theorem slot_code (host : Host) {ι : Type} [DecidableEq ι] {reg : ι → Reg} {ptr : ι → Word}
    {s : Machine} :
    (∀ ops, Cells ptr 32 → Loaded reg ptr 32 (ops.map (wideWord reg)) s →
      ∃ trace t, Run (customOps host) s trace t ∧
        CarriesOut (IsWideOp ptr) (Quiet ptr 32) trace ops ∧
        t.cpu.pc = s.cpu.pc + BitVec.ofNat 32 (4 * ops.length) ∧
        OnlyWrites ptr 32 ops s t ∧
        wide ptr t = SlotOp.run WideOp.value ops (wide ptr s)) ∧
    ∀ (entry : ModulusEntry) [Fact entry.modulus.Prime] (idx : BitVec 4) ops,
      entry.modulus < 256 ^ entry.limbBytes → Cells ptr entry.limbBytes →
      s.handler.moduli[idx.toNat]? = some entry →
      Loaded reg ptr entry.limbBytes (ops.map (modularWord reg idx)) s →
      SlotOp.Free (FieldOp.residue entry.modulus) (FieldOp.Stuck entry.modulus) ops
        (slots ptr entry.limbBytes s) →
      ∃ trace t, Run (customOps host) s trace t ∧
        CarriesOut (IsModularOp entry ptr) (Quiet ptr entry.limbBytes) trace ops ∧
        t.cpu.pc = s.cpu.pc + BitVec.ofNat 32 (4 * ops.length) ∧
        OnlyWrites ptr entry.limbBytes ops s t ∧
        slots ptr entry.limbBytes t =
          SlotOp.run (FieldOp.residue entry.modulus) ops (slots ptr entry.limbBytes s) :=
  ⟨fun _ hcells hs => wide_code host hcells hs,
    fun _ _ _ _ hlt hcells ht hs hfree => modular_code host hlt hcells hs ht hfree⟩

/-- The pointer at 4096 is in `x1`. -/
def pairReg (second : Bool) : Reg := if second then 1#5 else 0#5

/-- Words from address 64 on are in neither slot. -/
theorem loaded_pair {s : Machine} {n : ℕ} {words : List Word} (hn : n ≤ 64)
    (hlen : words.length ≤ 256) (hpc : s.cpu.pc = 64#32)
    (hregs : ∀ i, s.cpu.readReg (pairReg i) = pairPtr i)
    (hcode : ∀ k < words.length,
      words[k]? = some (s.cpu.mem.readU32 (64#32 + BitVec.ofNat 32 (4 * k)))) :
    Loaded pairReg pairPtr n words s := by
  refine ⟨hregs, fun k w hk => ?_, fun i k j hk hj => ?_⟩
  · rw [hpc]
    exact Option.some.inj ((hcode k (List.getElem?_eq_some_iff.mp hk).1).symm.trans hk)
  · rw [hpc]
    cases i
    · show n ≤ (64#32 + BitVec.ofNat 32 (4 * k + j) - 0#32).toNat
      bv_omega
    · show n ≤ (64#32 + BitVec.ofNat 32 (4 * k + j) - 4096#32).toNat
      bv_omega

/-- The words of a division and a multiplication, and those of a negation and a doubling. -/
theorem slot_code_seven :
    (∃ trace t, Run (customOps Host.constant) sevenMachine trace t ∧ t.cpu.pc = 72#32 ∧
      slots pairPtr 1 t = fun second => if second then 3 else 2) ∧
    ∃ trace t, Run (customOps Host.constant) negateMachine trace t ∧ t.cpu.pc = 72#32 ∧
      wide pairPtr t true = -2#256 := by
  constructor
  · have hloaded : Loaded pairReg pairPtr sevenEntry.limbBytes
        ([⟨.div, false, false, true⟩, ⟨.mul, true, false, true⟩].map (modularWord pairReg 0#4))
        sevenMachine :=
      loaded_pair (by decide) (by decide) rfl (by decide +kernel) (by decide +kernel)
    have hstart : slots pairPtr sevenEntry.limbBytes sevenMachine = _ := slots_sevenMachine
    have hfree : SlotOp.Free (FieldOp.residue sevenEntry.modulus) (FieldOp.Stuck sevenEntry.modulus)
        [⟨.div, false, false, true⟩, ⟨.mul, true, false, true⟩]
        (slots pairPtr sevenEntry.limbBytes sevenMachine) := by
      rw [hstart]
      exact ⟨by decide, not_false, trivial⟩
    obtain ⟨trace, t, hrun, -, hpc, -, hlast⟩ :=
      (slot_code Host.constant).2 sevenEntry 0#4 _ (by decide) pairPtr_cells_one rfl hloaded hfree
    rw [hstart] at hlast
    refine ⟨trace, t, hrun, hpc, hlast.trans ?_⟩
    funext second
    cases second <;> decide +kernel
  · have hloaded : Loaded pairReg pairPtr 32
        ([⟨.sub, true, false, true⟩, ⟨.add, true, true, true⟩].map (wideWord pairReg))
        negateMachine :=
      loaded_pair (by decide) (by decide) rfl (by decide +kernel) (by decide +kernel)
    obtain ⟨trace, t, hrun, -, hpc, -, hlast⟩ :=
      (slot_code Host.constant).1 _ pairPtr_cells hloaded
    refine ⟨trace, t, hrun, hpc, ?_⟩
    rw [hlast, wide_negateMachine]
    decide +kernel

end OpenvmSim.Precompiles
