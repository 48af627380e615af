import OpenvmSim.Base.Fill
import OpenvmSim.Base.Fips202
import OpenvmSim.Base.Loop
import OpenvmSim.Precompiles.Outcomes
import OpenvmSim.Precompiles.Snapshot

/-! KECCAKF is the permutation of FIPS 202.

`stateArray` reads the lanes as the state array of the standard. Under it every step of the
code is a step mapping, for every state: `theta` and `chi`, which are done in place, `rho` and
`pi`, which are one walk along the lanes, and `iota`. -/
namespace OpenvmSim.Precompiles
open Rv32im

/-! ### Lanes and bits -/

def laneIdx (a : Fin 5 × Fin 5) : Fin 25 := ⟨a.1.val + 5 * a.2.val, by omega⟩

theorem laneIdx_injective {a b : Fin 5 × Fin 5} (h : laneIdx a = laneIdx b) : a = b := by
  have hval := congrArg Fin.val h
  simp only [laneIdx] at hval
  ext
  · omega
  · omega

/-- The state array of the lanes: bit `z` of lane `x + 5 y`. -/
def stateArray (s : Lanes) : Fips202.StateArray 64 := fun x y z =>
  s[x.val + 5 * y.val].getLsbD z

theorem stateArray_apply (s : Lanes) (x y : Fin 5) (z : Fin 64) :
    stateArray s x y z = s[laneIdx (x, y)].getLsbD z := rfl

/-- A rotation moves the bit that lies `n` below. -/
theorem getLsbD_rotateLeft_sub (v : BitVec 64) (n : ℕ) (z : Fin 64) :
    (v.rotateLeft n).getLsbD z = v.getLsbD (z - Fin.ofNat 64 n).val := by
  have hz := z.isLt
  have hn := Nat.mod_lt n (show 64 > 0 by decide)
  have hsub : (z - Fin.ofNat 64 n).val = (64 - n % 64 + z.val) % 64 := by
    rw [Fin.sub_def]
    rfl
  rw [hsub, BitVec.getLsbD_rotateLeft]
  by_cases h : z.val < n % 64
  · have hidx : (64 - n % 64 + z.val) % 64 = 64 - n % 64 + z.val := by omega
    rw [hidx, decide_eq_true h]
    rfl
  · have hidx : (64 - n % 64 + z.val) % 64 = z.val - n % 64 := by omega
    rw [hidx, decide_eq_false h, decide_eq_true hz]
    rfl

section Coordinates
variable (x y : Fin 5)

theorem mod_lane : (x.val + 5 * y.val) % 5 = x.val := by omega

theorem div_lane : (x.val + 5 * y.val) / 5 = y.val := by omega

theorem val_pred : (x - 1).val = (x.val + 4) % 5 := by
  rw [Fin.sub_def]
  show (5 - 1 + x.val) % 5 = _
  omega

end Coordinates

/-! ### The step mappings -/

theorem theta_eq (s : Lanes) : stateArray (Keccak.theta s) = Fips202.theta (stateArray s) := by
  funext x y z
  simp only [stateArray, Keccak.theta, Fips202.theta, Fips202.columnParity, Vector.getElem_ofFn,
    BitVec.getLsbD_xor, getLsbD_rotateLeft_sub, mod_lane, val_pred, Fin.val_add]
  rfl

theorem chi_eq (s : Lanes) : stateArray (Keccak.chi s) = Fips202.chi (stateArray s) := by
  funext x y z
  simp only [stateArray, Keccak.chi, Fips202.chi, Vector.getElem_ofFn, BitVec.getLsbD_xor,
    BitVec.getLsbD_and, BitVec.getLsbD_not, mod_lane, div_lane, Fin.val_add, z.isLt, decide_true,
    Bool.true_and, Bool.xor_true]
  rfl

/-- The round constants are those of the shift register. -/
theorem RC_eq : ∀ (i : ℕ) (h : i < 24) (z : Fin 64),
    Keccak.RC[i].getLsbD z = Fips202.roundConstant 64 i z := by decide

theorem iota_eq {i : ℕ} (h : i < 24) (s : Lanes) :
    stateArray (Keccak.iota Keccak.RC[i] s) = Fips202.iota (stateArray s) i := by
  funext x y z
  rw [Fips202.iota, stateArray_apply, Keccak.iota]
  split
  · next horigin =>
    obtain ⟨rfl, rfl⟩ := Prod.mk.inj horigin
    have hset : (s.set 0 (s[0] ^^^ Keccak.RC[i]))[laneIdx (0, 0)] = s[0] ^^^ Keccak.RC[i] :=
      Vector.getElem_set_self _
    rw [← RC_eq i h, hset]
    exact BitVec.getLsbD_xor
  · next horigin =>
    have hne : 0 ≠ (laneIdx (x, y)).val := fun heq => horigin (laneIdx_injective (Fin.ext heq.symm))
    exact congrArg (BitVec.getLsbD · z) (Vector.getElem_set_ne (by decide) _ hne)

/-! ### The walk of rho and pi -/

/-- The lane that step `t` of the walk comes from. -/
def walkLane (t : ℕ) : Fin 25 := laneIdx (Fips202.walk t)

theorem PIL_eq : ∀ (i : ℕ) (h : i < 24), Keccak.PIL[i] = walkLane (i + 1) := by decide

theorem ROTC_eq : ∀ (i : ℕ) (h : i < 24), Keccak.ROTC[i] = Fips202.offset i % 64 := by decide

theorem walkLane_succ_injective {t t' : ℕ} (h : t < 24) (h' : t' < 24)
    (heq : walkLane (t + 1) = walkLane (t' + 1)) : t = t' := by
  have hwalk : Fips202.walk (t + 1) = Fips202.walk (t' + 1) := laneIdx_injective heq
  have hsrc := Fips202.pi_source (Prod.mk.eta (p := Fips202.walk (t + 1))).symm
  have hsrc' := Fips202.pi_source (hwalk.symm.trans (Prod.mk.eta (p := Fips202.walk (t + 1))).symm)
  exact Fips202.walk_injective h h' (hsrc.trans hsrc'.symm)

theorem walkLane_succ_ne_zero {t : ℕ} (h : t < 24) : walkLane (t + 1) ≠ 0 := fun heq =>
  have horigin : Fips202.walk (t + 1) = (0, 0) := laneIdx_injective heq
  Fips202.walk_ne_origin h (Fips202.pi_source horigin)

/-- After `n` steps the lanes that were passed hold the rotated lanes before them, and the
next one is carried along. -/
structure WalkInv (s : Lanes) (n : ℕ) (st : Lanes × BitVec 64) : Prop where
  carried : st.2 = s[walkLane n]
  moved : ∀ t < n, st.1[walkLane (t + 1)] = s[walkLane t].rotateLeft (Fips202.offset t)
  kept : ∀ k (_ : k < 25), (∀ t < n, (walkLane (t + 1)).val ≠ k) → st.1[k] = s[k]

theorem WalkInv.step {s : Lanes} {n : ℕ} (hn : n < 24) {st : Lanes × BitVec 64}
    (h : WalkInv s n st) : WalkInv s (n + 1)
      (st.1.set (walkLane (n + 1)) (st.2.rotateLeft (Fips202.offset n % 64)),
        st.1[walkLane (n + 1)]) := by
  have hfresh : ∀ t < n, walkLane (t + 1) ≠ walkLane (n + 1) := fun t ht heq =>
    absurd (walkLane_succ_injective (ht.trans hn) hn heq) ht.ne
  refine ⟨h.kept _ (walkLane (n + 1)).isLt fun t ht heq => hfresh t ht (Fin.ext heq),
    fun t ht => ?_, fun k hk hfree => ?_⟩
  · rcases Nat.lt_succ_iff_lt_or_eq.mp ht with hlt | rfl
    · have hne := hfresh t hlt
      rw [← h.moved t hlt]
      exact Vector.getElem_set_ne (walkLane (n + 1)).isLt (walkLane (t + 1)).isLt
        fun heq => hne (Fin.ext heq.symm)
    · rw [← h.carried, ← BitVec.rotateLeft_mod_eq_rotateLeft (r := Fips202.offset t)]
      exact Vector.getElem_set_self _
  · rw [← h.kept k hk fun t ht => hfree t (Nat.lt_succ_of_lt ht)]
    exact Vector.getElem_set_ne (walkLane (n + 1)).isLt hk (hfree n (Nat.lt_succ_self n))

theorem rhoPi_walk (s : Lanes) : ∃ st, Keccak.rhoPi s = st.1 ∧ WalkInv s 24 st := by
  refine ⟨_, rfl, fold_inv (WalkInv s) _ ?_ ?_⟩
  · exact ⟨rfl, fun t ht => absurd ht (Nat.not_lt_zero t), fun k _ _ => rfl⟩
  · intro i hi st h
    simp only [PIL_eq i hi, ROTC_eq i hi]
    exact h.step hi

theorem rhoPi_eq (s : Lanes) :
    stateArray (Keccak.rhoPi s) = Fips202.pi (Fips202.rho (stateArray s)) := by
  obtain ⟨st, hst, hinv⟩ := rhoPi_walk s
  funext x y z
  rw [hst]
  by_cases horigin : (x, y) = (0, 0)
  · obtain ⟨rfl, rfl⟩ := Prod.mk.inj horigin
    rw [Fips202.pi_rho_origin]
    exact congrArg (BitVec.getLsbD · z) (hinv.kept 0 (by decide)
      fun t ht heq => walkLane_succ_ne_zero ht (Fin.ext heq))
  · obtain ⟨t, ht, hwalk⟩ := Fips202.exists_walk_succ horigin
    have hmoved := hinv.moved t ht
    have hlane : walkLane (t + 1) = laneIdx (x, y) := congrArg laneIdx hwalk
    simp only [hlane] at hmoved
    rw [Fips202.pi_rho_walk (stateArray s) ht rfl hwalk, stateArray_apply, stateArray_apply,
      hmoved, getLsbD_rotateLeft_sub]
    rfl

/-! ### The loops of theta and chi -/

/-- The lanes before lane `(x, y)` when columns are visited one after the other. -/
def ColumnsBefore (x y k : ℕ) : Prop := k % 5 < x ∨ k % 5 = x ∧ k / 5 < y

/-- The lanes before lane `(x, y)` when rows are visited one after the other. -/
def RowsBefore (x y k : ℕ) : Prop := k / 5 < y ∨ k / 5 = y ∧ k % 5 < x

theorem thetaInPlace_eq (s : Lanes) : Keccak.thetaInPlace s = Keccak.theta s := by
  refine (fold_inv (fun x => Between s (Keccak.theta s) (ColumnsBefore x 0)) _ ?_ ?_).eq ?_
  · refine .start fun k hk => ?_
    unfold ColumnsBefore
    omega
  · intro x hx v hv
    refine (fold_inv (fun y => Between s (Keccak.theta s) (ColumnsBefore x y)) _ hv ?_).congr ?_
    · intro y hy v hv
      have hold := (hv (x + 5 * y) (by omega)).2 (by unfold ColumnsBefore; omega)
      have hx' : (x + 5 * y) % 5 = x := by omega
      refine hv.set (by omega) ?_ fun k => ?_
      · simp only [hold, Keccak.theta, Vector.getElem_ofFn, hx']
        rfl
      · unfold ColumnsBefore
        omega
    · unfold ColumnsBefore
      omega
  · intro k hk hn
    unfold ColumnsBefore at hn
    omega

theorem chiInPlace_eq (s : Lanes) : Keccak.chiInPlace s = Keccak.chi s := by
  refine (fold_inv (fun y => Between s (Keccak.chi s) (RowsBefore 0 y)) _ ?_ ?_).eq ?_
  · refine .start fun k hk => ?_
    unfold RowsBefore
    omega
  · intro y hy v hv
    refine (fold_inv (fun x => Between s (Keccak.chi s) (RowsBefore x y)) _ hv ?_).congr ?_
    · intro x hx w hw
      have hold : ∀ x' (h' : x' < 5), v[x' + 5 * y] = s[x' + 5 * y] := fun x' h' =>
        (hv (x' + 5 * y) (by omega)).2 (by unfold RowsBefore; omega)
      have hx' : (x + 5 * y) % 5 = x := by omega
      have hy' : (x + 5 * y) / 5 = y := by omega
      refine hw.set (by omega) ?_ fun k => ?_
      · simp only [hold x hx, hold _ (Nat.mod_lt _ (show 5 > 0 by decide)), Keccak.chi,
          Vector.getElem_ofFn, hx', hy']
        rfl
      · unfold RowsBefore
        omega
    · unfold RowsBefore
      omega
  · intro k hk hn
    unfold RowsBefore at hn
    omega

/-! ### The permutation -/

theorem round_eq {i : ℕ} (h : i < 24) (s : Lanes) :
    stateArray (Keccak.round Keccak.RC[i] s) = Fips202.round (stateArray s) i := by
  rw [Keccak.round, iota_eq h, chi_eq, rhoPi_eq, theta_eq]
  rfl

theorem iteration_eq {i : ℕ} (h : i < 24) (s : Lanes) :
    Keccak.iteration i h s = Keccak.round Keccak.RC[i] s := by
  rw [Keccak.iteration, thetaInPlace_eq, chiInPlace_eq, Keccak.round]

theorem keccakf1600_eq_fold (s : Lanes) :
    keccakf1600 s = Nat.fold 24 (fun i h s => Keccak.iteration i h s) s := by
  simp only [iteration_eq]
  rfl

theorem keccakf1600_eq (s : Lanes) :
    stateArray (keccakf1600 s) = Fips202.keccakF (stateArray s) :=
  fold_inv (fun i t => stateArray t = Fips202.rounds (stateArray s) i) _ rfl
    fun i hi t h => (round_eq hi t).trans (congrArg (Fips202.round · i) h)

/-! ### The state in memory -/

/-- The state array of the 200 bytes at `ptr`, eight bits of a lane in each byte. -/
def memoryArray (mem : Memory) (ptr : Word) : Fips202.StateArray 64 := fun x y z =>
  (mem.readU8 (ptr + BitVec.ofNat 32 ((x.val + 5 * y.val) * 8 + z.val / 8))).getLsbD (z.val % 8)

theorem stateArray_readLanes (mem : Memory) (ptr : Word) :
    stateArray (readLanes mem ptr) = memoryArray mem ptr := by
  funext x y z
  have hbyte : z.val / 8 < 8 := by omega
  rw [stateArray, readLanes, Vector.getElem_ofFn, LittleEndian.getLsbD_word64 z.isLt,
    List.getElem?_map, List.getElem?_range hbyte]
  rfl

theorem lanesOf_laneBytes (v : Lanes) : lanesOf (laneBytes v) = v := by
  apply Vector.ext
  intro i hi
  have hbytes : (List.range 8).map (fun j => byteOf (laneBytes v) (i * 8 + j)) =
      LittleEndian.ofNat 8 v[i].toNat := by
    apply List.ext_getElem?
    intro j
    by_cases hj : j < 8
    · have hlen : j < (LittleEndian.ofNat 8 v[i].toNat).length := by rwa [LittleEndian.length_ofNat]
      rw [List.getElem?_map, List.getElem?_range hj, Option.map_some, byteOf, laneBytes,
        LittleEndian.getElem?_flatMap_ofNat hj, Vector.getElem?_toList, Vector.getElem?_eq_getElem hi,
        Option.bind_some, List.getElem?_eq_getElem hlen, Option.getD_some]
    · rw [List.getElem?_eq_none (by simpa using hj), List.getElem?_eq_none (by simpa using hj)]
  rw [lanesOf, Vector.getElem_ofFn, hbytes, LittleEndian.word64]
  apply BitVec.eq_of_toNat_eq
  rw [BitVec.toNat_ofNat, LittleEndian.toNat_ofNat]
  have hlane := v[i].isLt
  omega

/-- What is read back of lanes that were stored. -/
theorem memoryArray_store (s : Machine) (ptr : Word) (v : Lanes) :
    memoryArray (s.store ptr (laneBytes v)).cpu.mem ptr = stateArray v := by
  have hlen := length_laneBytes v
  have hload := Flat.load_overlay s.cpu.mem.bytes ptr (laneBytes v) (by rw [hlen]; decide)
  rw [hlen] at hload
  rw [← stateArray_readLanes, readLanes_eq, Memory.readVec_eq_load, Sim.mem_store,
    Memory.bytes_writeSlice, hload, lanesOf_laneBytes]

theorem memoryArray_keccakf (s : Machine) (ptr : Word) :
    memoryArray (s.store ptr (laneBytes (keccakf1600 (readLanes s.cpu.mem ptr)))).cpu.mem ptr =
      Fips202.keccakF (memoryArray s.cpu.mem ptr) := by
  rw [memoryArray_store, keccakf1600_eq, stateArray_readLanes]

/-! ### The word -/

def IsKeccakf (insn : Word) : Prop := IsCustom0 insn F3_HASH ∧ funct7 insn = F7_KECCAKF

instance (insn : Word) : Decidable (IsKeccakf insn) := inferInstanceAs (Decidable (_ ∧ _))

theorem keccakf_run {host : Host} {insn : Word} (h : IsKeccakf insn) (s : Machine) :
    (handle host insn).run s = .ok .continue (advanced s.cpu.pc (s.store (s.cpu.readReg (rd insn))
      (laneBytes (keccakf1600 (readLanes s.cpu.mem (s.cpu.readReg (rd insn))))))) := by
  refine handle_run_ok (calls_hash h.1) ?_
  show (if funct7 insn = F7_KECCAKF then doKeccakf insn else _ : HandlerM Unit).run s = _
  rw [if_pos h.2]
  rfl

/-- Every iteration is a round of the standard, for all states, and KECCAKF replaces the 200
bytes at `[rd]` by their permutation and does nothing else. -/
theorem keccakf_fips202 (host : Host) (insn : Word) (s : Machine) (h0 : IsCustom0 insn F3_HASH)
    (hf : funct7 insn = F7_KECCAKF) :
    (∀ (i : ℕ) (h : i < 24) (lanes : Lanes),
      stateArray (Keccak.iteration i h lanes) = Fips202.iota (Fips202.chi (Fips202.pi
        (Fips202.rho (Fips202.theta (stateArray lanes))))) i) ∧
    (∀ lanes : Lanes,
      keccakf1600 lanes = Nat.fold 24 (fun i h lanes => Keccak.iteration i h lanes) lanes) ∧
    ∃ bs, Yields host insn s (.stored bs) ∧ bs.length = 200 ∧
      memoryArray (s.store (s.cpu.readReg (rd insn)) bs).cpu.mem (s.cpu.readReg (rd insn)) =
        Fips202.keccakF (memoryArray s.cpu.mem (s.cpu.readReg (rd insn))) := by
  refine ⟨fun i h lanes => ?_, keccakf1600_eq_fold, _, keccakf_run ⟨h0, hf⟩ s,
    length_laneBytes _, memoryArray_keccakf s _⟩
  rw [iteration_eq h, round_eq h]
  rfl

/-- KECCAKF of the state at address zero. -/
def keccakfWord : Word := F7_KECCAKF <<< 25 ||| F3_HASH <<< 12 ||| OPCODE_CUSTOM_0

theorem keccakf_fips202_blank : ∃ bs, Yields Host.constant keccakfWord Sim.blank (.stored bs) ∧
    memoryArray (Sim.blank.store 0#32 bs).cpu.mem 0#32 =
      Fips202.keccakF (memoryArray Sim.blank.cpu.mem 0#32) := by
  obtain ⟨-, -, bs, hy, -, harray⟩ :=
    keccakf_fips202 Host.constant keccakfWord Sim.blank (by decide) (by decide)
  exact ⟨bs, hy, harray⟩

end OpenvmSim.Precompiles
