import OpenvmSim.Base.AddChain
import OpenvmSim.Precompiles.CurveGroup
import OpenvmSim.Precompiles.PairSlots

/-! Runs of curve words as programs in the group of the curve.

A guest keeps points in slots of its memory. AddNe and Double words on slots are additions and
doublings in the group, and complete unless the formula they use has an exception there
(`run_points`). Double-and-add, assembled from them, computes every multiple of a point below its
order (`double_and_add`). -/
namespace OpenvmSim.Precompiles
open Rv32im WeierstrassCurve.Affine

/-- The word of the operation in the curve table. -/
def curveCode : AddOp → Word
  | .add => SW_ADD_NE
  | .double => SW_DOUBLE

section Points
variable {ι : Type} {curve : CurveEntry} {ptr : ι → Word} {host : Host} {s s' : Machine}
  {o : SlotOp ι AddOp}

/-- The next word is an operation of an entry of the curve table on slots. -/
abbrev IsPointOp (curve : CurveEntry) (ptr : ι → Word) (s : Machine) (o : SlotOp ι AddOp) : Prop :=
  IsTableOp F3_SW curveCode PrecompileHandler.curves curve ptr s o

/-- The numbers are the coordinates of the point. -/
def IsPoint (curve : CurveEntry) (c : Point) (P : curve.weierstrass.Point) : Prop :=
  ∃ h : curve.weierstrass.Nonsingular (c.1 : ZMod curve.modulus) c.2, P = .some _ _ h

/-- The slots hold points of the curve, none of them the one at infinity. -/
abbrev HoldsPoints (curve : CurveEntry) (ptr : ι → Word) (s : Machine)
    (v : ι → curve.weierstrass.Point) : Prop :=
  HoldsPairs (IsPoint curve) ptr curve.coordBytes s v

variable [Fact curve.modulus.Prime]

/-- A sum is an exception if the first coordinates are equal. -/
theorem stuck_add_iff {c d : Point} {P Q : curve.weierstrass.Point} (hP : IsPoint curve c P)
    (hQ : IsPoint curve d Q) :
    AddOp.Stuck .add P Q ↔ (c.1 : ZMod curve.modulus) = d.1 := by
  obtain ⟨h1, rfl⟩ := hP
  obtain ⟨h2, rfl⟩ := hQ
  rw [AddOp.Stuck, Point.neg_some, Point.some.injEq, Point.some.injEq]
  constructor
  · rintro (⟨hx, -⟩ | ⟨hx, -⟩) <;> exact hx
  · intro hx
    obtain hy | hy := Y_eq_of_X_eq h1.1 h2.1 hx
    · exact .inl ⟨hx, hy⟩
    · exact .inr ⟨hx, hy⟩

/-- A double is an exception if the second coordinate is zero. -/
theorem stuck_double_iff {c : Point} {P Q : curve.weierstrass.Point} (hP : IsPoint curve c P) :
    AddOp.Stuck .double P Q ↔ (2 : ZMod curve.modulus) * c.2 = 0 := by
  obtain ⟨h1, rfl⟩ := hP
  have hneg : curve.weierstrass.negY (c.1 : ZMod curve.modulus) c.2 = -c.2 := by
    rw [negY, CurveEntry.weierstrass]
    ring
  have hiff : (c.2 : ZMod curve.modulus) = -c.2 ↔ (2 : ZMod curve.modulus) * c.2 = 0 := by
    rw [eq_neg_iff_add_eq_zero, two_mul]
  rw [AddOp.Stuck, ← eq_neg_iff_add_eq_zero, Point.neg_some, Point.some.injEq, hneg, ← hiff]
  exact ⟨fun h => h.2, fun h => ⟨rfl, h⟩⟩

variable {v : ι → curve.weierstrass.Point}

omit [Fact curve.modulus.Prime] in
theorem IsPointOp.left_point (h : IsPointOp curve ptr s o) (hv : HoldsPoints curve ptr s v) :
    IsPoint curve (leftPair s.cpu.fetch s curve.coordBytes) (v o.left) := by
  rw [h.leftPair_eq]
  exact hv o.left

omit [Fact curve.modulus.Prime] in
theorem IsPointOp.right_point (h : IsPointOp curve ptr s o) (hv : HoldsPoints curve ptr s v) :
    IsPoint curve (rightPair s.cpu.fetch s curve.coordBytes) (v o.right) := by
  rw [h.rightPair_eq]
  exact hv o.right

/-- A word that meets no exception stores the point of the group. -/
theorem point_writes (host : Host) (hodd : curve.modulus ≠ 2)
    (hlt : curve.modulus < 256 ^ curve.coordBytes) (h : IsPointOp curve ptr s o)
    (hv : HoldsPoints curve ptr s v) (hfree : ¬o.op.Stuck (v o.left) (v o.right)) :
    ∃ r, IsPoint curve r (o.op.value (v o.left) (v o.right)) ∧
      WritesPair host s.cpu.fetch s curve.coordBytes r := by
  have hP := h.left_point hv
  have hQ := h.right_point hv
  have hopcode := h.op
  cases hop : o.op with
  | add =>
    rw [hop] at hfree hopcode
    rw [stuck_add_iff hP hQ, ZMod.natCast_eq_natCast_iff] at hfree
    obtain ⟨h1, hPeq⟩ := hP
    obtain ⟨h2, hQeq⟩ := hQ
    obtain ⟨r, hsum, hw⟩ : ∃ r, IsSum curve _ _ r ∧
        WritesPair host s.cpu.fetch s curve.coordBytes r :=
      addNe_writes hlt h.word h.table hopcode ((onCurve_iff _ _).mpr h1.1)
        ((onCurve_iff _ _).mpr h2.1) hfree
    obtain ⟨hr, hadd⟩ := hsum.sum h1 h2
    exact ⟨r, ⟨hr, by rw [hPeq, hQeq]; exact hadd⟩, hw⟩
  | double =>
    rw [hop] at hfree hopcode
    rw [stuck_double_iff hP] at hfree
    obtain ⟨h1, hPeq⟩ := hP
    have hy : ¬(leftPair s.cpu.fetch s curve.coordBytes).2 ≡ 0 [MOD curve.modulus] := by
      rw [← ZMod.natCast_eq_natCast_iff]
      intro hzero
      rw [hzero, Nat.cast_zero, mul_zero] at hfree
      exact hfree rfl
    obtain ⟨r, hsum, hw⟩ : ∃ r, IsSum curve _ _ r ∧
        WritesPair host s.cpu.fetch s curve.coordBytes r :=
      double_writes hlt h.word h.table hodd hopcode ((onCurve_iff _ _).mpr h1.1) hy
    obtain ⟨hr, hadd⟩ := hsum.sum h1 h1
    exact ⟨r, ⟨hr, by rw [hPeq]; exact hadd⟩, hw⟩

/-- A word that meets an exception does not complete. -/
theorem point_stuck (h : IsPointOp curve ptr s o) (hv : HoldsPoints curve ptr s v)
    (hs : o.op.Stuck (v o.left) (v o.right)) : ¬Iteration (customOps host) s s' := by
  have hP := h.left_point hv
  have hQ := h.right_point hv
  intro hit
  obtain ⟨t, ht, -⟩ := iteration_iff.mp hit
  rw [step_custom _ (.inr h.word.1)] at ht
  have hopcode := h.op
  cases hop : o.op with
  | add =>
    rw [hop] at hs hopcode
    have hm := handleSw_addNe host s.cpu.fetch s h.table hopcode
    rw [addNe_panics rfl ((stuck_add_iff hP hQ).mp hs)] at hm
    cases (handle_run_error (calls_sw h.word) hm).symm.trans ht
  | double =>
    rw [hop] at hs hopcode
    have hm := handleSw_double host s.cpu.fetch s h.table hopcode
    rw [double_panics rfl ((stuck_double_iff hP).mp hs)] at hm
    cases (handle_run_error (calls_sw h.word) hm).symm.trans ht

/-- One word is one operation on the points in the slots. -/
theorem point_step [DecidableEq ι] (host : Host) (hodd : curve.modulus ≠ 2)
    (hlt : curve.modulus < 256 ^ curve.coordBytes) (hcells : Cells ptr (2 * curve.coordBytes))
    (h : IsPointOp curve ptr s o) (hv : HoldsPoints curve ptr s v)
    (hfree : ¬o.op.Stuck (v o.left) (v o.right)) :
    ∃ s', StoresAt host s s' (ptr o.dest) (2 * curve.coordBytes) ∧
      HoldsPoints curve ptr s' (SlotOp.apply AddOp.value v o) := by
  obtain ⟨r, hr, hw⟩ := point_writes host hodd hlt h hv hfree
  exact pair_step hcells (.inr h.word.1) h.dest hw hr hv

end Points

section Runs
variable {ι : Type} [DecidableEq ι] {curve : CurveEntry} [Fact curve.modulus.Prime]
  {ptr : ι → Word} {s t : Machine} {trace : List Machine} {ops : List (SlotOp ι AddOp)}
  {v : ι → curve.weierstrass.Point}

/-- The curve words of a run are a program on the points in the slots. -/
theorem points_run (host : Host) (hodd : curve.modulus ≠ 2)
    (hlt : curve.modulus < 256 ^ curve.coordBytes) (hcells : Cells ptr (2 * curve.coordBytes))
    (hrun : Run (customOps host) s trace t)
    (hops : CarriesOut (IsPointOp curve ptr) (Quiet ptr (2 * curve.coordBytes)) trace ops)
    (hv : HoldsPoints curve ptr s v) :
    HoldsPoints curve ptr t (SlotOp.run AddOp.value ops v) := by
  refine passes_run (HoldsPoints curve ptr) (fun u u' w o hit ho hw => ?_)
    (fun u u' w hit hq hw => ?_)
    (passes_of_run hrun) hops hv
  · obtain ⟨u₁, hs, hw'⟩ := point_step host hodd hlt hcells ho hw fun hs => point_stuck ho hw hs hit
    obtain rfl : u₁ = u' := Option.some.inj (hs.iteration.symm.trans hit)
    exact hw'
  · exact holdsPairs_quiet hit hq hw

end Runs

/-- **The curve words of a run are a program in the group of the curve.** Take a curve entry with an
odd prime modulus below `256 ^ n`, slots of `2 n` bytes that are apart, and a state whose slots hold
points of the curve. AddNe of two slots completes unless the points are equal or negatives of each
other, and Double of a slot unless the point is its own negative. A run in which such words carry
out a list of operations, and whose other steps write into no slot, ends with the points that the
list makes of those at its start; of multiples of one point it makes the multiples whose
coefficients it adds up. -/
theorem run_points (host : Host) {curve : CurveEntry} [Fact curve.modulus.Prime]
    (hodd : curve.modulus ≠ 2) (hlt : curve.modulus < 256 ^ curve.coordBytes) {ι : Type}
    [DecidableEq ι] {ptr : ι → Word} (hcells : Cells ptr (2 * curve.coordBytes)) :
    (∀ s o v, IsPointOp curve ptr s o → HoldsPoints curve ptr s v →
      ((∃ s', Iteration (customOps host) s s') ↔ ¬o.op.Stuck (v o.left) (v o.right))) ∧
    ∀ trace s t ops, Run (customOps host) s trace t →
      CarriesOut (IsPointOp curve ptr) (Quiet ptr (2 * curve.coordBytes)) trace ops →
      (∀ v, HoldsPoints curve ptr s v → HoldsPoints curve ptr t (SlotOp.run AddOp.value ops v)) ∧
      ∀ (P : curve.weierstrass.Point) (k : ι → ℤ), HoldsPoints curve ptr s (fun i => k i • P) →
        HoldsPoints curve ptr t fun i => SlotOp.run AddOp.value ops k i • P := by
  refine ⟨fun s o v ho hv => ⟨fun ⟨s', h⟩ hs => point_stuck ho hv hs h, fun hfree => ?_⟩,
    fun trace s t ops hrun hops => ⟨fun v hv => points_run host hodd hlt hcells hrun hops hv,
      fun P k hv => ?_⟩⟩
  · obtain ⟨s', hs, -⟩ := point_step host hodd hlt hcells ho hv hfree
    exact ⟨s', hs.iteration⟩
  · have hlast := points_run host hodd hlt hcells hrun hops hv
    rwa [AddOp.run_smul] at hlast

/-! ### A small curve -/

/-- The curve `y ^ 2 = x ^ 3 + 3` modulo seven. -/
def sevenCurve : CurveEntry :=
  { name := "seven", coordBytes := 1, modulus := 7, a := 0, b := 3 }

instance factPrimeSevenCurve : Fact sevenCurve.modulus.Prime := ⟨by decide⟩

theorem nonsingular_seven : sevenCurve.weierstrass.Nonsingular
    ((1 : ℕ) : ZMod sevenCurve.modulus) ((2 : ℕ) : ZMod sevenCurve.modulus) := by
  rw [nonsingular_iff]
  exact ⟨(onCurve_iff sevenCurve (1, 2)).mp (by decide), .inr (by decide)⟩

/-- The point `(1, 2)`. -/
def sevenPoint : sevenCurve.weierstrass.Point := .some _ _ nonsingular_seven

/-- A machine with the point at address zero and at `[x1]`, about to double the one at `[x1]` and to
add the other to it. -/
def triplingMachine : Machine :=
  let s := (((Sim.loaded [0x021090ab#32, 0x000090ab#32] [[]]).setReg 1#5 4096#32).store
    4096#32 [1#8, 2#8]).store 0#32 [1#8, 2#8]
  { s with handler := { s.handler with curves := [sevenCurve] } }

theorem holds_triplingMachine :
    HoldsPoints sevenCurve pairPtr triplingMachine fun _ => sevenPoint := by
  have hread : ∀ i, readPair triplingMachine.cpu.mem (pairPtr i) 1 = (1, 2) := by decide +kernel
  intro i
  rw [show readPair _ _ sevenCurve.coordBytes = (1, 2) from hread i]
  exact ⟨nonsingular_seven, rfl⟩

theorem run_triplingMachine : Run (customOps Host.constant) triplingMachine
    [triplingMachine, triplingMachine.after (customOps Host.constant) 1]
    (triplingMachine.after (customOps Host.constant) 2) :=
  run_after (n := 2) (by decide +kernel)

theorem triplingMachine_double :
    IsPointOp sevenCurve pairPtr triplingMachine ⟨.double, true, true, true⟩ :=
  ⟨by decide +kernel, by decide +kernel, rfl, by decide +kernel, by decide +kernel,
    by decide +kernel⟩

/-- Three times the point is computed. -/
theorem run_points_seven : IsPoint sevenCurve
    (readPair (triplingMachine.after (customOps Host.constant) 2).cpu.mem 4096#32 1)
    ((3 : ℤ) • sevenPoint) := by
  have hadd : IsPointOp sevenCurve pairPtr (triplingMachine.after (customOps Host.constant) 1)
      ⟨.add, true, true, false⟩ :=
    ⟨by decide +kernel, by decide +kernel, by decide +kernel, by decide +kernel, by decide +kernel,
      by decide +kernel⟩
  have hstart : HoldsPoints sevenCurve pairPtr triplingMachine fun _ => (1 : ℤ) • sevenPoint := by
    simpa only [one_zsmul] using holds_triplingMachine
  have hruns := (@run_points Host.constant sevenCurve _ (by decide) (by decide) Bool _ pairPtr
    pairPtr_cells_two).2 _ _ _ _ run_triplingMachine (.act triplingMachine_double (.act hadd .nil))
  exact hruns.2 sevenPoint (fun _ => 1) hstart true

/-! ### Scalar multiplication -/

section Scalar
variable {ι : Type} {reg : ι → Reg} {ptr : ι → Word} {curve : CurveEntry} {s : Machine}

/-- The curve word of an operation of the entry with the given index. -/
abbrev pointWord (reg : ι → Reg) (idx : BitVec 4) (o : SlotOp ι AddOp) : Word :=
  opWord reg F3_SW curveCode idx o

theorem isPointOp_of_fetch {idx : BitVec 4} {o : SlotOp ι AddOp}
    (h : s.cpu.fetch = pointWord reg idx o) (hr : ∀ i, s.cpu.readReg (reg i) = ptr i)
    (ht : s.handler.curves[idx.toNat]? = some curve) : IsPointOp curve ptr s o :=
  isTableOp_of_fetch rfl (fun op => by cases op <;> rfl) h hr ht

variable [DecidableEq ι] [Fact curve.modulus.Prime]

theorem point_code (host : Host) (hodd : curve.modulus ≠ 2)
    (hlt : curve.modulus < 256 ^ curve.coordBytes) (hcells : Cells ptr (2 * curve.coordBytes))
    {idx : BitVec 4} {ops : List (SlotOp ι AddOp)}
    (hs : Loaded reg ptr (2 * curve.coordBytes) (ops.map (pointWord reg idx)) s)
    (ht : s.handler.curves[idx.toNat]? = some curve) {v : ι → curve.weierstrass.Point}
    (hv : HoldsPoints curve ptr s v) (hfree : SlotOp.Free AddOp.value AddOp.Stuck ops v) :
    ∃ trace t, Run (customOps host) s trace t ∧
      CarriesOut (IsPointOp curve ptr) (Quiet ptr (2 * curve.coordBytes)) trace ops ∧
      t.cpu.pc = s.cpu.pc + BitVec.ofNat 32 (4 * ops.length) ∧
      OnlyWrites ptr (2 * curve.coordBytes) ops s t ∧
      HoldsPoints curve ptr t (SlotOp.run AddOp.value ops v) := by
  refine code_performs (IsPointOp curve ptr)
    (fun handler => handler.curves[idx.toNat]? = some curve) (HoldsPoints curve ptr)
    (fun u o hf hr htab => ?_) (fun u o w ho hw hstuck => ?_) hs ht hv hfree
  · exact isPointOp_of_fetch hf hr htab
  · exact point_step host hodd hlt hcells ho hw hstuck

end Scalar

/-- **Scalar multiplication.** Take a curve entry with an odd prime modulus below `256 ^ n`, slots of
`2 n` bytes that are apart and hold points of the curve, and the point `P` in two of them, the
accumulator and the base. The curve words of double-and-add over the bits of `k`, next in memory and
in no slot, are executed one after the other, leave `k • P` in the accumulator and change no byte
outside of it, if no multiple of `P` up to `k` is the point at infinity. Every positive `k` is one
followed by some bits. -/
theorem double_and_add (host : Host) {curve : CurveEntry} [Fact curve.modulus.Prime]
    (hodd : curve.modulus ≠ 2) (hlt : curve.modulus < 256 ^ curve.coordBytes) {ι : Type}
    [DecidableEq ι] {reg : ι → Reg} {ptr : ι → Word} (hcells : Cells ptr (2 * curve.coordBytes))
    {acc b : ι} (hne : acc ≠ b) {idx : BitVec 4} {bits : List Bool} {s : Machine}
    (hs : Loaded reg ptr (2 * curve.coordBytes)
      ((AddOp.doubleAdd acc b bits).map (pointWord reg idx)) s)
    (ht : s.handler.curves[idx.toNat]? = some curve) {v : ι → curve.weierstrass.Point}
    (hv : HoldsPoints curve ptr s v) (hacc : v acc = v b)
    (hord : ∀ m, 0 < m → m ≤ MulOp.readBits 1 bits → m • v b ≠ 0) :
    (∃ trace t, Run (customOps host) s trace t ∧
      t.cpu.pc = s.cpu.pc + BitVec.ofNat 32 (4 * (AddOp.doubleAdd acc b bits).length) ∧
      IsPoint curve (readPair t.cpu.mem (ptr acc) curve.coordBytes) (MulOp.readBits 1 bits • v b) ∧
      (∀ i, i ≠ acc → IsPoint curve (readPair t.cpu.mem (ptr i) curve.coordBytes) (v i)) ∧
      ∀ a, 2 * curve.coordBytes ≤ (a - ptr acc).toNat → t.cpu.mem.bytes a = s.cpu.mem.bytes a) ∧
    ∀ k, 0 < k → ∃ bits, MulOp.readBits 1 bits = k := by
  have hone : v acc = 1 • v b := by rw [hacc, one_nsmul]
  have hdest : ∀ o ∈ AddOp.doubleAdd acc b bits, o.dest = acc := fun o ho => AddOp.dest_doubleAdd ho
  obtain ⟨trace, t, hrun, -, hpc, hbytes, hlast⟩ := point_code host hodd hlt hcells hs ht hv
    (AddOp.free_doubleAdd hne Nat.one_pos hone rfl hord)
  refine ⟨⟨trace, t, hrun, hpc, ?_, fun i hi => ?_, fun a ha => hbytes a fun o ho => ?_⟩,
    fun k hk => AddOp.exists_readBits_one hk⟩
  · rw [← AddOp.run_doubleAdd hne hone rfl bits]
    exact hlast acc
  · have hother : ∀ o ∈ AddOp.doubleAdd acc b bits, o.dest ≠ i := fun o ho =>
      (hdest o ho).trans_ne (Ne.symm hi)
    rw [← SlotOp.run_kept AddOp.value hother v]
    exact hlast i
  · rwa [hdest o ho]

/-- The point is not its own negative. -/
theorem sevenPoint_free : ¬AddOp.Stuck .double sevenPoint sevenPoint := by
  have hP : IsPoint sevenCurve (1, 2) sevenPoint := ⟨nonsingular_seven, rfl⟩
  rw [stuck_double_iff hP]
  decide

/-- Twice the point is `(6, 3)`. -/
theorem isPoint_two : IsPoint sevenCurve (6, 3) (sevenPoint + sevenPoint) := by
  have hrun : Run (customOps Host.constant) triplingMachine [triplingMachine]
      (triplingMachine.after (customOps Host.constant) 1) := run_after (n := 1) (by decide +kernel)
  have hpoints := points_run Host.constant (by decide) (by decide) pairPtr_cells_two hrun
    (.act triplingMachine_double .nil) holds_triplingMachine true
  have hread : readPair (triplingMachine.after (customOps Host.constant) 1).cpu.mem
      (pairPtr true) sevenCurve.coordBytes = (6, 3) := by decide +kernel
  rwa [hread] at hpoints

/-- The point is of no order up to three. -/
theorem sevenPoint_order {m : ℕ} (hm : 0 < m) (hle : m ≤ 3) : m • sevenPoint ≠ 0 := by
  have hP : IsPoint sevenCurve (1, 2) sevenPoint := ⟨nonsingular_seven, rfl⟩
  have hfree : ¬AddOp.Stuck .add (sevenPoint + sevenPoint) sevenPoint := by
    rw [stuck_add_iff isPoint_two hP]
    decide
  obtain rfl | rfl | rfl : m = 1 ∨ m = 2 ∨ m = 3 := by omega
  · rw [one_nsmul]
    exact Point.some_ne_zero _
  · rw [two_nsmul]
    exact sevenPoint_free
  · rw [succ_nsmul, two_nsmul]
    exact fun h => hfree (.inr (eq_neg_of_add_eq_zero_left h))

/-- Three times the point, by one bit. -/
theorem double_and_add_seven : ∃ trace t, Run (customOps Host.constant) triplingMachine trace t ∧
    t.cpu.pc = 72#32 ∧ IsPoint sevenCurve (readPair t.cpu.mem 4096#32 1) (3 • sevenPoint) := by
  have hloaded : Loaded pairReg pairPtr (2 * sevenCurve.coordBytes)
      ((AddOp.doubleAdd true false [true]).map (pointWord pairReg 0#4)) triplingMachine :=
    loaded_pair (by decide) (by decide) rfl (by decide +kernel) (by decide +kernel)
  obtain ⟨⟨trace, t, hrun, hpc, hacc, -⟩, -⟩ := double_and_add Host.constant (by decide) (by decide)
    pairPtr_cells_two (by decide) hloaded rfl holds_triplingMachine rfl
    fun m hm hle => sevenPoint_order hm hle
  exact ⟨trace, t, hrun, hpc, hacc⟩

end OpenvmSim.Precompiles
