import OpenvmSim.Precompiles.CurveRuns

/-! The addition formulas of a curve as programs.

A guest may add points with modular words on the coordinates it keeps in slots. The formulas of the
chord and of the tangent are programs of nine and of twelve operations; they leave in memory what
one AddNe or Double word stores (`curve_programs`). -/
namespace OpenvmSim.Precompiles
open Rv32im

/-! ### The programs -/

/-- The numbers of an addition: two points, the coefficient of the curve, what is calculated on the
way, and the sum. -/
inductive CurveSlot where
  | x1 | y1 | x2 | y2 | a | den | lam | x3 | y3
  deriving DecidableEq

namespace CurveSlot

/-- The third point on the line of slope `lam`, reflected; `x` is the second intersection. -/
def third (x : CurveSlot) : List (SlotOp CurveSlot FieldOp) :=
  [⟨.mul, x3, lam, lam⟩, ⟨.sub, x3, x3, x1⟩, ⟨.sub, x3, x3, x⟩, ⟨.sub, y3, x1, x3⟩,
    ⟨.mul, y3, lam, y3⟩, ⟨.sub, y3, y3, y1⟩]

/-- The sum of two points: the slope of the chord, and the third point. -/
def chord : List (SlotOp CurveSlot FieldOp) :=
  [⟨.sub, den, x2, x1⟩, ⟨.sub, lam, y2, y1⟩] ++ ⟨.div, lam, lam, den⟩ :: third x2

/-- The double of a point: the slope of the tangent, and the third point. -/
def tangent : List (SlotOp CurveSlot FieldOp) :=
  [⟨.mul, den, x1, x1⟩, ⟨.add, lam, den, den⟩, ⟨.add, lam, lam, den⟩, ⟨.add, lam, lam, a⟩,
    ⟨.add, den, y1, y1⟩] ++ ⟨.div, lam, lam, den⟩ :: third x1

section Values
variable {p : ℕ} [Fact p.Prime] (v : CurveSlot → ZMod p)

/-- The divisor is the difference of the first coordinates. -/
theorem run_chord_den :
    SlotOp.run FieldOp.value [⟨.sub, den, x2, x1⟩, ⟨.sub, lam, y2, y1⟩] v den = v x2 - v x1 := by
  simp [SlotOp.apply, FieldOp.value]

theorem run_chord :
    (SlotOp.run FieldOp.value chord v x3, SlotOp.run FieldOp.value chord v y3) =
      thirdPoint (chordSlope (v x1, v y1) (v x2, v y2)) (v x1, v y1) (v x2) := by
  simp [chord, third, SlotOp.apply, FieldOp.value, thirdPoint, chordSlope, div_eq_mul_inv, pow_two]

/-- The divisor is twice the second coordinate. -/
theorem run_tangent_den :
    SlotOp.run FieldOp.value [⟨.mul, den, x1, x1⟩, ⟨.add, lam, den, den⟩, ⟨.add, lam, lam, den⟩,
      ⟨.add, lam, lam, a⟩, ⟨.add, den, y1, y1⟩] v den = 2 * v y1 := by
  simp [SlotOp.apply, FieldOp.value, two_mul]

theorem run_tangent :
    (SlotOp.run FieldOp.value tangent v x3, SlotOp.run FieldOp.value tangent v y3) =
      thirdPoint (tangentSlope (v a) (v x1, v y1)) (v x1, v y1) (v x1) := by
  have htriple : v x1 * v x1 + v x1 * v x1 + v x1 * v x1 = 3 * (v x1 * v x1) := by ring
  simp [tangent, third, SlotOp.apply, FieldOp.value, thirdPoint, tangentSlope, div_eq_mul_inv,
    pow_two, two_mul, htriple]

end Values

end CurveSlot

section Programs
variable {host : Host} {curve : CurveEntry} {entry : ModulusEntry} {ptr : CurveSlot → Word}
  {s t : Machine} {trace : List Machine} [Fact entry.modulus.Prime]

/-- A run of a program whose third point is `q` leaves the canonical coordinates of `q`. -/
theorem canonical_result (ops : List (SlotOp CurveSlot FieldOp))
    (hops : ∃ o ∈ ops, o.dest = .x3) (hops' : ∃ o ∈ ops, o.dest = .y3)
    (v : CurveSlot → ℕ) {q : ZMod entry.modulus × ZMod entry.modulus}
    (hq : (SlotOp.run FieldOp.value ops (fun i => (v i : ZMod entry.modulus)) .x3,
      SlotOp.run FieldOp.value ops (fun i => (v i : ZMod entry.modulus)) .y3) = q) :
    pointOf q = (SlotOp.run (FieldOp.residue entry.modulus) ops v .x3,
      SlotOp.run (FieldOp.residue entry.modulus) ops v .y3) := by
  have hmap := SlotOp.run_map (FieldOp.cast_residue entry.modulus) ops v
  have hlt : ∀ i, (∃ o ∈ ops, o.dest = i) →
      SlotOp.run (FieldOp.residue entry.modulus) ops v i < entry.modulus := fun i hi =>
    SlotOp.run_written (P := (· < entry.modulus)) _ (FieldOp.residue_lt entry.modulus) hi _
  rw [← hmap] at hq
  subst hq
  rw [pointOf, ZMod.val_natCast, ZMod.val_natCast, Nat.mod_eq_of_lt (hlt _ hops),
    Nat.mod_eq_of_lt (hlt _ hops')]

/-- The word at hand is an operation of the curve table on the given first point. -/
structure IsCurveWord (curve : CurveEntry) (insn : Word) (u : Machine) (op : Word) (p1 : Point) :
    Prop where
  custom : IsCustom1 insn F3_SW
  table : u.handler.curves[tableIdx insn]? = some curve
  isOp : tableOp insn = op
  left : leftPair insn u curve.coordBytes = p1

variable (hp : curve.modulus = entry.modulus) (hn : curve.coordBytes = entry.limbBytes)
  (hlt : entry.modulus < 256 ^ entry.limbBytes) (hcells : Cells ptr entry.limbBytes)
  (hrun : Run (customOps host) s trace t) {host' : Host} {insn : Word} {u : Machine}
include hp hn hlt hcells hrun

/-- What the program for the chord leaves is what AddNe stores. -/
theorem chord_writes (hops : CarriesOut (IsModularOp entry ptr) (Quiet ptr entry.limbBytes)
      trace CurveSlot.chord)
    (h : IsCurveWord curve insn u SW_ADD_NE
      (slots ptr entry.limbBytes s .x1, slots ptr entry.limbBytes s .y1))
    (hright : rightPair insn u curve.coordBytes =
      (slots ptr entry.limbBytes s .x2, slots ptr entry.limbBytes s .y2)) :
    WritesPair host' insn u entry.limbBytes
      (slots ptr entry.limbBytes t .x3, slots ptr entry.limbBytes t .y3) := by
  have hm := handleSw_addNe host' insn u h.table h.isOp
  rw [h.left, hright, hn] at hm
  have hne : (slots ptr entry.limbBytes s .x1 : ZMod entry.modulus) ≠
      slots ptr entry.limbBytes s .x2 := by
    have hstuck := slots_run_at hcells hlt hrun hops rfl
    have hden := congrFun (SlotOp.run_map (FieldOp.cast_residue entry.modulus)
      [⟨.sub, .den, .x2, .x1⟩, ⟨.sub, .lam, .y2, .y1⟩] (slots ptr entry.limbBytes s)) .den
    intro heq
    refine hstuck (hden.trans ?_)
    rw [CurveSlot.run_chord_den, heq, sub_self]
  have hresult := canonical_result CurveSlot.chord ⟨⟨.mul, .x3, .lam, .lam⟩, by decide, rfl⟩
    ⟨⟨.sub, .y3, .x1, .x3⟩, by decide, rfl⟩ (slots ptr entry.limbBytes s)
    (CurveSlot.run_chord fun i => (slots ptr entry.limbBytes s i : ZMod entry.modulus))
  rw [← slots_run hcells hlt hrun hops] at hresult
  rw [← hresult]
  refine writesPair_of_stored ((ZMod.val_lt _).trans hlt) ((ZMod.val_lt _).trans hlt)
    (yields_stored (calls_sw h.custom) hm ?_)
  rw [addNe_eq hp hne]
  rfl

/-- What the program for the tangent leaves is what Double stores. -/
theorem tangent_writes (hops : CarriesOut (IsModularOp entry ptr) (Quiet ptr entry.limbBytes)
      trace CurveSlot.tangent)
    (ha : (slots ptr entry.limbBytes s .a : ZMod entry.modulus) = (curve.a : ZMod entry.modulus))
    (h : IsCurveWord curve insn u SW_DOUBLE
      (slots ptr entry.limbBytes s .x1, slots ptr entry.limbBytes s .y1)) :
    WritesPair host' insn u entry.limbBytes
      (slots ptr entry.limbBytes t .x3, slots ptr entry.limbBytes t .y3) := by
  have hm := handleSw_double host' insn u h.table h.isOp
  rw [h.left, hn] at hm
  have hne : (2 : ZMod entry.modulus) * slots ptr entry.limbBytes s .y1 ≠ 0 := by
    have hstuck := slots_run_at hcells hlt hrun hops rfl
    have hden := congrFun (SlotOp.run_map (FieldOp.cast_residue entry.modulus)
      [⟨.mul, .den, .x1, .x1⟩, ⟨.add, .lam, .den, .den⟩, ⟨.add, .lam, .lam, .den⟩,
        ⟨.add, .lam, .lam, .a⟩, ⟨.add, .den, .y1, .y1⟩] (slots ptr entry.limbBytes s)) .den
    exact fun hzero => hstuck (hden.trans ((CurveSlot.run_tangent_den _).trans hzero))
  have hresult := canonical_result CurveSlot.tangent ⟨⟨.mul, .x3, .lam, .lam⟩, by decide, rfl⟩
    ⟨⟨.sub, .y3, .x1, .x3⟩, by decide, rfl⟩ (slots ptr entry.limbBytes s)
    (CurveSlot.run_tangent fun i => (slots ptr entry.limbBytes s i : ZMod entry.modulus))
  rw [← slots_run hcells hlt hrun hops, ha] at hresult
  rw [← hresult]
  refine writesPair_of_stored ((ZMod.val_lt _).trans hlt) ((ZMod.val_lt _).trans hlt)
    (yields_stored (calls_sw h.custom) hm ?_)
  have hdouble : double curve (slots ptr entry.limbBytes s .x1, slots ptr entry.limbBytes s .y1) =
      .ok (pointOf (thirdPoint _ _ _)) := double_eq hp hne
  rw [hdouble]
  rfl

end Programs

/-- **The curve words compute what a guest gets from modular words.** Take a curve entry, and an
entry of the modular table with its modulus, a prime below `256 ^ n`, and its width. If a guest
calculates the sum of two points, or the double of one, by the nine or twelve SUB, ADD, MUL and DIV
words of the addition formula on numbers in its memory that are apart, and the run completes, then
AddNe or Double of the same operands completes and stores the same coordinates. For Double the
number in the slot `a` has to be the coefficient of the curve modulo the prime. -/
theorem curve_programs (host : Host) {curve : CurveEntry} {entry : ModulusEntry}
    [Fact entry.modulus.Prime] (hp : curve.modulus = entry.modulus)
    (hn : curve.coordBytes = entry.limbBytes) (hlt : entry.modulus < 256 ^ entry.limbBytes)
    {ptr : CurveSlot → Word} (hcells : Cells ptr entry.limbBytes) {trace : List Machine}
    {s t : Machine} (hrun : Run (customOps host) s trace t) (host' : Host) (insn : Word)
    (u : Machine) :
    (CarriesOut (IsModularOp entry ptr) (Quiet ptr entry.limbBytes) trace CurveSlot.chord →
      IsCurveWord curve insn u SW_ADD_NE
        (slots ptr entry.limbBytes s .x1, slots ptr entry.limbBytes s .y1) →
      rightPair insn u curve.coordBytes =
        (slots ptr entry.limbBytes s .x2, slots ptr entry.limbBytes s .y2) →
      WritesPair host' insn u entry.limbBytes
        (slots ptr entry.limbBytes t .x3, slots ptr entry.limbBytes t .y3)) ∧
    (CarriesOut (IsModularOp entry ptr) (Quiet ptr entry.limbBytes) trace CurveSlot.tangent →
      (slots ptr entry.limbBytes s .a : ZMod entry.modulus) = (curve.a : ZMod entry.modulus) →
      IsCurveWord curve insn u SW_DOUBLE
        (slots ptr entry.limbBytes s .x1, slots ptr entry.limbBytes s .y1) →
      WritesPair host' insn u entry.limbBytes
        (slots ptr entry.limbBytes t .x3, slots ptr entry.limbBytes t .y3)) :=
  ⟨fun hops h hright => chord_writes hp hn hlt hcells hrun hops h hright,
    fun hops ha h => tangent_writes hp hn hlt hcells hrun hops ha h⟩

/-! ### A sum on a small curve -/

/-- A register for each slot. -/
def curveReg : CurveSlot → Reg
  | .x1 => 1#5
  | .y1 => 2#5
  | .x2 => 3#5
  | .y2 => 4#5
  | .a => 5#5
  | .den => 6#5
  | .lam => 7#5
  | .x3 => 8#5
  | .y3 => 9#5

/-- The slots are next to each other from 4096 on. -/
def curvePtr (i : CurveSlot) : Word := 4096#32 + (curveReg i).setWidth 32

/-- A machine about to add the points `(1, 2)` and `(2, 2)` by modular words. -/
def chordMachine : Machine :=
  let s := Sim.loaded (CurveSlot.chord.map (modularWord curveReg 0#4)) [[]]
  let s := [CurveSlot.x1, .y1, .x2, .y2, .a, .den, .lam, .x3, .y3].foldl
    (fun s i => s.setReg (curveReg i) (curvePtr i)) s
  let s := s.store 4097#32 [1#8, 2#8, 2#8, 2#8]
  { s with handler := { s.handler with moduli := [sevenEntry], curves := [sevenCurve] } }

/-- AddNe of the points at `[x1]` and `[x3]`. -/
def addNeWord : Word :=
  Isa.rType 0#7 3#5 1#5 (F3_SW.setWidth 3) 8#5 (OPCODE_CUSTOM_1.setWidth 7)

theorem loaded_chordMachine : Loaded curveReg curvePtr 1
    (CurveSlot.chord.map (modularWord curveReg 0#4)) chordMachine where
  regs i := by cases i <;> decide +kernel
  code := by
    have hwords : ∀ k < 9, (CurveSlot.chord.map (modularWord curveReg 0#4))[k]? =
        some (chordMachine.cpu.mem.readU32 (chordMachine.cpu.pc + BitVec.ofNat 32 (4 * k))) := by
      decide +kernel
    intro k w hk
    have hlt : k < 9 := (List.getElem?_eq_some_iff.mp hk).1
    exact Option.some.inj ((hwords k hlt).symm.trans hk)
  apart i k j hk hj := by
    have hlen : k < 9 := hk
    have hpc : chordMachine.cpu.pc = 64#32 := rfl
    rw [hpc]
    cases i <;> simp only [curvePtr, curveReg] <;> bv_omega

/-- The numbers at the start, in the order of the slots. -/
theorem slots_chordMachine : slots curvePtr 1 chordMachine = fun
    | .x1 => 1
    | .y1 | .x2 | .y2 => 2
    | _ => 0 := by
  funext i
  cases i <;> decide +kernel

/-- AddNe of `(1, 2)` and `(2, 2)` stores `(4, 5)`. -/
theorem curve_programs_seven :
    WritesPair Host.constant addNeWord chordMachine 1 (4, 5) := by
  have hlt : sevenEntry.modulus < 256 ^ sevenEntry.limbBytes := by decide
  have hcells : Cells curvePtr sevenEntry.limbBytes := ⟨by decide, fun i j hij k hk => by
    have hk : k = 0 := by change k < 1 at hk; omega
    subst hk
    revert hij
    cases i <;> cases j <;> decide⟩
  have hfree : SlotOp.Free (FieldOp.residue sevenEntry.modulus) (FieldOp.Stuck sevenEntry.modulus)
      CurveSlot.chord (slots curvePtr sevenEntry.limbBytes chordMachine) := by
    rw [show slots curvePtr sevenEntry.limbBytes chordMachine = _ from slots_chordMachine]
    exact ⟨by decide, by decide, by decide +kernel, by decide +kernel, by decide +kernel,
      by decide +kernel, by decide +kernel, by decide +kernel, by decide +kernel, trivial⟩
  obtain ⟨trace, t, hrun, hops, -, -, hlast⟩ := modular_code Host.constant hlt hcells
    loaded_chordMachine rfl hfree
  rw [show slots curvePtr sevenEntry.limbBytes chordMachine = _ from slots_chordMachine] at hlast
  have hx : slots curvePtr 1 t .x3 = 4 := by
    refine (congrFun hlast .x3).trans ?_
    decide +kernel
  have hy : slots curvePtr 1 t .y3 = 5 := by
    refine (congrFun hlast .y3).trans ?_
    decide +kernel
  rw [← hx, ← hy]
  refine (@curve_programs Host.constant sevenCurve sevenEntry _ rfl rfl hlt _ hcells _ _ _ hrun
    Host.constant addNeWord chordMachine).1 hops ⟨by decide, rfl, by decide, ?_⟩ ?_
  · decide +kernel
  · decide +kernel

end OpenvmSim.Precompiles
