import OpenvmSim.Base.Sponge
import OpenvmSim.Precompiles.SlotRuns
import OpenvmSim.Precompiles.Sponge

/-! Runs that hash.

A guest keeps the state of a hash function in its memory. XORIN adds bytes to the state, KECCAKF
permutes it, and a guest that does so piece by piece, whatever it does in between, gets the hash of
its message as the standard defines it on strings of bits (`run_keccak`). -/
namespace OpenvmSim.Precompiles
open Rv32im

/-! ### Words on a state -/

section Words
variable {buf : Word} {host : Host} {s s' : Machine}

/-- The next word adds bytes to the state at `buf`, or permutes it. The bytes that are added may be
anywhere but where they are added to. -/
inductive IsHashOp (buf : Word) (s : Machine) : Fips202.HashOp → Prop where
  | xorin {offset : ℕ} (hx : IsXorin s.cpu.fetch)
      (hdst : xorinDst s.cpu.fetch s = buf + BitVec.ofNat 32 offset)
      (hfits : offset + xorinLen s.cpu.fetch s ≤ 200)
      (hapart : ∀ i < xorinLen s.cpu.fetch s, xorinLen s.cpu.fetch s ≤
        (xorinSrc s.cpu.fetch s + BitVec.ofNat 32 i - xorinDst s.cpu.fetch s).toNat) :
      IsHashOp buf s (.xor offset
        (s.cpu.mem.readVec (xorinSrc s.cpu.fetch s) (xorinLen s.cpu.fetch s)))
  | keccakf (hk : IsKeccakf s.cpu.fetch) (hptr : s.cpu.readReg (rd s.cpu.fetch) = buf) :
      IsHashOp buf s .permute

/-- The state after XORIN at an offset. -/
theorem memoryArray_xorin {src : Word} {offset len : ℕ} (hfits : offset + len ≤ 200)
    (hapart : ∀ i < len,
      len ≤ (src + BitVec.ofNat 32 i - (buf + BitVec.ofNat 32 offset)).toNat) (mem : Memory) :
    memoryArray (xorBytes mem (buf + BitVec.ofNat 32 offset) src len) buf =
      Fips202.xorBlock (memoryArray mem buf)
        (List.replicate offset 0#8 ++ mem.readVec src len) := by
  funext x y z
  generalize hk : (x.val + 5 * y.val) * 8 + z.val / 8 = k
  have hk200 : k < 200 := by omega
  have hbyte : (64 * (5 * y.val + x.val) + z.val) / 8 = k := by omega
  have hbit : (64 * (5 * y.val + x.val) + z.val) % 8 = z.val % 8 := by omega
  rw [memoryArray, Fips202.xorBlock, memoryArray, Fips202.bitOf, hk, hbyte, hbit,
    ← Memory.bytes_apply, bytes_xorBytes, Flat.combine_apart _ _ _ _ (by omega) hapart]
  have hsub : buf + BitVec.ofNat 32 k - (buf + BitVec.ofNat 32 offset) =
      BitVec.ofNat 32 k - BitVec.ofNat 32 offset := by grind
  by_cases hlow : k < offset
  · have hdist : (buf + BitVec.ofNat 32 k - (buf + BitVec.ofNat 32 offset)).toNat =
        2 ^ 32 + k - offset := by
      rw [hsub, BitVec.toNat_sub, BitVec.toNat_ofNat, BitVec.toNat_ofNat]
      omega
    rw [hdist, if_neg (by omega), List.getD_append _ _ _ _ (by rwa [List.length_replicate]),
      List.getD_replicate _ hlow, BitVec.getLsbD_zero, Bool.xor_false]
    rfl
  · have hdist : (buf + BitVec.ofNat 32 k - (buf + BitVec.ofNat 32 offset)).toNat = k - offset := by
      rw [hsub, BitVec.toNat_sub, BitVec.toNat_ofNat, BitVec.toNat_ofNat]
      omega
    rw [hdist, List.getD_append_right _ _ _ _ (by rw [List.length_replicate]; omega),
      List.length_replicate]
    split
    · next hlt =>
      rw [BitVec.getLsbD_xor, List.getD_eq_getElem?_getD, Memory.readVec, List.getElem?_map,
        List.getElem?_range hlt]
      rfl
    · next hge =>
      rw [List.getD_eq_default _ _ (by rw [Memory.length_readVec]; omega), BitVec.getLsbD_zero,
        Bool.xor_false]
      rfl

theorem store_eq_setMem (s : Machine) (ptr : Word) (bs : List Byte) :
    s.store ptr bs = s.setMem (s.store ptr bs).cpu.mem := rfl

/-- A word on the state does its operation, and the word after it is next. -/
theorem hash_calls (host : Host) {op : Fips202.HashOp} (h : IsHashOp buf s op) :
    ∃ mem, (Cpu.step (customOps host)).run s = .ok .continue (advanced s.cpu.pc (s.setMem mem)) ∧
      memoryArray mem buf = op.apply (memoryArray s.cpu.mem buf) := by
  cases h with
  | xorin hx hdst hfits hapart =>
    refine ⟨_, (step_custom _ (.inl hx.1.1)).trans (xorin_run s.cpu.fetch s hx), ?_⟩
    rw [hdst] at hapart ⊢
    exact memoryArray_xorin hfits hapart s.cpu.mem
  | keccakf hk hptr =>
    have hrun := (step_custom (customOps host) (.inl hk.1.1)).trans (keccakf_run hk s)
    rw [hptr, store_eq_setMem] at hrun
    exact ⟨_, hrun, memoryArray_keccakf s buf⟩

theorem hash_completes (host : Host) {op : Fips202.HashOp} (h : IsHashOp buf s op) :
    ∃ s', Iteration (customOps host) s s' ∧ s'.cpu.pc = s.cpu.pc + 4#32 := by
  obtain ⟨mem, hstep, -⟩ := hash_calls host h
  refine ⟨_, iteration_iff.mpr ⟨_, hstep, rfl⟩, ?_⟩
  rw [pc_countStep, pc_advanced]
  exact if_pos rfl

theorem hash_op (h : Iteration (customOps host) s s') {op : Fips202.HashOp}
    (hop : IsHashOp buf s op) :
    memoryArray s'.cpu.mem buf = op.apply (memoryArray s.cpu.mem buf) := by
  obtain ⟨mem, hstep, hmem⟩ := hash_calls host hop
  obtain ⟨t, ht, rfl⟩ := iteration_iff.mp h
  cases hstep.symm.trans ht
  rw [mem_countStep, mem_advanced]
  exact hmem

theorem hash_quiet (h : Iteration (customOps host) s s') (hq : Quiet (fun _ : Unit => buf) 200 s) :
    memoryArray s'.cpu.mem buf = memoryArray s.cpu.mem buf := by
  funext x y z
  have hbyte : s'.cpu.mem.readU8 (buf + BitVec.ofNat 32 ((x.val + 5 * y.val) * 8 + z.val / 8)) =
      s.cpu.mem.readU8 (buf + BitVec.ofNat 32 ((x.val + 5 * y.val) * 8 + z.val / 8)) := by
    refine (iteration_frame h).bytes _ (hq () _ ?_)
    rw [Flat.distance_add _ (by omega)]
    omega
  rw [memoryArray, memoryArray, hbyte]

end Words

/-! ### The digest in memory -/

/-- The front of the state is the bytes at its address. -/
theorem bitsOf_readVec (mem : Memory) (buf : Word) {n : ℕ} (h : n ≤ 200) :
    Fips202.bitsOf (mem.readVec buf n) = Fips202.trunc (8 * n) (memoryArray mem buf) := by
  have hlen : (Fips202.bitsOf (mem.readVec buf n)).length =
      (Fips202.trunc (8 * n) (memoryArray mem buf)).length := by
    rw [Fips202.length_bitsOf, Fips202.length_trunc, Memory.length_readVec]
  refine List.ext_getElem hlen fun k hk _ => ?_
  rw [Fips202.length_bitsOf, Memory.length_readVec] at hk
  have hx : k / 64 % 5 + 5 * (k / 64 / 5 % 5) = k / 64 := by omega
  have hz : k / 64 * 8 + k % 64 / 8 = k / 8 := by omega
  have hbit : k % 64 % 8 = k % 8 := by omega
  have hbyte : k / 8 < n := by omega
  rw [← List.getD_eq_getElem _ false, Fips202.getD_bitsOf, Fips202.bitOf, Memory.readVec,
    List.getD_eq_getElem?_getD, List.getElem?_map, List.getElem?_range hbyte, Option.map_some,
    Option.getD_some]
  simp only [Fips202.trunc, List.getElem_map, List.getElem_range, Fips202.stateBit, memoryArray,
    hx, hz, hbit]

theorem memoryArray_zero {mem : Memory} {buf : Word}
    (h : ∀ k < 200, mem.readU8 (buf + BitVec.ofNat 32 k) = 0#8) :
    memoryArray mem buf = Fips202.zeroState := by
  funext x y z
  rw [memoryArray, h _ (by omega), BitVec.getLsbD_zero]
  rfl

/-- **A guest that hashes gets the hash of the standard.** Take the 200 bytes at an address as the
state of Keccak. A XORIN into them, of bytes that it does not write to, and a KECCAKF of them always
complete. In a run in which such words do a list of operations, and whose other steps write no byte
of the state, the state becomes what the list makes of it. If the list hashes a message in blocks
of `R` bytes, in any pieces, with a suffix of at most six bits, and the state is zero in the
beginning, the first bytes of the state at the end, up to `R` of them, are the digest
`KECCAK[1600 - 8 R]` of the message and the suffix. -/
theorem run_keccak (host : Host) (buf : Word) :
    (∀ s op, IsHashOp buf s op →
      ∃ s', Iteration (customOps host) s s' ∧ s'.cpu.pc = s.cpu.pc + 4#32) ∧
    ∀ trace s t ops, Run (customOps host) s trace t →
      CarriesOut (IsHashOp buf) (Quiet (fun _ : Unit => buf) 200) trace ops →
      memoryArray t.cpu.mem buf = ops.foldl Fips202.HashOp.apply (memoryArray s.cpu.mem buf) ∧
      ∀ R suffix message n, R ≤ 200 → suffix.length ≤ 6 → n ≤ R →
        (∀ k < 200, s.cpu.mem.readU8 (buf + BitVec.ofNat 32 k) = 0#8) →
        Fips202.Streams R suffix 0 message ops →
        Fips202.bitsOf (t.cpu.mem.readVec buf n) =
          Fips202.keccak (1600 - 8 * R) (Fips202.bitsOf message ++ suffix) (8 * n) := by
  refine ⟨fun s op h => hash_completes host h, fun trace s t ops hrun hops => ?_⟩
  have hstate : memoryArray t.cpu.mem buf =
      ops.foldl Fips202.HashOp.apply (memoryArray s.cpu.mem buf) := by
    refine passes_run (fun u A => memoryArray u.cpu.mem buf = A) ?_ ?_ (passes_of_run hrun) hops rfl
    · rintro u u' A op h hop rfl
      exact hash_op h hop
    · rintro u u' A h hq rfl
      exact hash_quiet h hq
  refine ⟨hstate, fun R suffix message n hR hsuffix hn hzero hstreams => ?_⟩
  have hrate : 1600 - (1600 - 8 * R) = 8 * R := by omega
  rw [bitsOf_readVec t.cpu.mem buf (hn.trans hR), hstate, memoryArray_zero hzero,
    hstreams.digest hsuffix (by omega), Fips202.keccak, hrate]

/-- A machine about to hash the empty message, whose padding is at 12288, into the state at
8192. -/
def hashMachine : Machine :=
  let s := ((Sim.loaded [xorinX1, keccakfX1] [[]]).setReg 1#5 8192#32).setReg 2#5 12288#32
  ((s.setReg 3#5 136#32).store 12288#32 [0x01#8]).store 12423#32 [0x80#8]

/-- The machine after the padding has been added. -/
def paddedMachine : Machine :=
  (advanced hashMachine.cpu.pc
    (hashMachine.setMem (xorBytes hashMachine.cpu.mem 8192#32 12288#32 136))).countStep

theorem hashMachine_word : IsXorin hashMachine.cpu.fetch ∧
    xorinDst hashMachine.cpu.fetch hashMachine = 8192#32 ∧
    xorinSrc hashMachine.cpu.fetch hashMachine = 12288#32 ∧
    xorinLen hashMachine.cpu.fetch hashMachine = 136 := by decide +kernel

theorem hashMachine_hashOp :
    IsHashOp 8192#32 hashMachine (.xor 0 (Fips202.padBytes 136 [] 0)) := by
  obtain ⟨hx, hdst, hsrc, hlen⟩ := hashMachine_word
  have hbytes : hashMachine.cpu.mem.readVec 12288#32 136 = Fips202.padBytes 136 [] 0 := by
    decide +kernel
  have hapart : ∀ i < 136, 136 ≤ (12288#32 + BitVec.ofNat 32 i - 8192#32).toNat := by
    decide +kernel
  have hop := IsHashOp.xorin hx (hdst.trans (BitVec.add_zero _).symm)
  rw [hdst, hsrc, hlen, hbytes] at hop
  exact hop (by decide) hapart

theorem hashMachine_iteration :
    Iteration (customOps Host.constant) hashMachine paddedMachine := by
  obtain ⟨hx, hdst, hsrc, hlen⟩ := hashMachine_word
  have hstep := (step_custom (customOps Host.constant) (.inl hx.1.1)).trans
    (xorin_run hashMachine.cpu.fetch hashMachine hx)
  rw [hdst, hsrc, hlen] at hstep
  exact iteration_iff.mpr ⟨_, hstep, rfl⟩

/-- KECCAK-256 of the empty message. -/
theorem run_keccak_empty : ∃ trace t, Run (customOps Host.constant) hashMachine trace t ∧
    Fips202.bitsOf (t.cpu.mem.readVec 8192#32 32) = Fips202.keccak 512 [] 256 := by
  obtain ⟨hstep, hruns⟩ := run_keccak Host.constant 8192#32
  have hpermute : IsHashOp 8192#32 paddedMachine .permute :=
    .keccakf (by decide +kernel) (by decide +kernel)
  obtain ⟨t, hlast, -⟩ := hstep _ _ hpermute
  have hrun : Run (customOps Host.constant) hashMachine [hashMachine, paddedMachine] t :=
    .next hashMachine_iteration (.next hlast (.done t))
  obtain ⟨-, hdigest⟩ := hruns _ _ _ _ hrun (.act hashMachine_hashOp (.act hpermute .nil))
  have hzero : ∀ k < 200, hashMachine.cpu.mem.readU8 (8192#32 + BitVec.ofNat 32 k) = 0#8 := by
    decide +kernel
  exact ⟨_, t, hrun, hdigest 136 [] [] 32 (by decide) (by decide) (by decide) hzero
    (.padded (by decide))⟩

end OpenvmSim.Precompiles
