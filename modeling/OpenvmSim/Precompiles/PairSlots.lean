import OpenvmSim.Precompiles.ComplexField
import OpenvmSim.Precompiles.SlotCode

/-! Slots that hold pairs.

The curve table and the complex table work on pairs of numbers, each of which stands for a point or
a field element. What a slot stands for changes with a word that stores a pair there, and not
otherwise. -/
namespace OpenvmSim.Precompiles
open Rv32im

section Pairs
variable {ι V : Type} {ptr : ι → Word} {n : ℕ} {host : Host} {s s' : Machine} {Rep : Pair → V → Prop}
  {v : ι → V}

/-- The pair in slot `i` stands for `v i`. -/
def HoldsPairs (Rep : Pair → V → Prop) (ptr : ι → Word) (n : ℕ) (s : Machine) (v : ι → V) : Prop :=
  ∀ i, Rep (readPair s.cpu.mem (ptr i) n) (v i)

/-- The two numbers of a slot are its bytes. -/
theorem readPair_eq_of_bytes {m m' : Memory} {p : Word}
    (h : ∀ a, (a - p).toNat < 2 * n → m'.bytes a = m.bytes a) :
    readPair m' p n = readPair m p n := by
  have hlow : readLe m' p n = readLe m p n := readLe_eq_of_bytes fun a ha => h a (by omega)
  have hhigh : readLe m' (p + BitVec.ofNat 32 n) n = readLe m (p + BitVec.ofNat 32 n) n := by
    refine readLe_eq_of_bytes fun a ha => h a ?_
    have hsum : a - p = (a - (p + BitVec.ofNat 32 n)) + BitVec.ofNat 32 n := by grind
    rw [hsum, BitVec.toNat_add, BitVec.toNat_ofNat]
    have hle := Nat.mod_le ((a - (p + BitVec.ofNat 32 n)).toNat + n % 2 ^ 32) (2 ^ 32)
    have hle' := Nat.mod_le n (2 ^ 32)
    omega
  rw [readPair, readPair, hlow, hhigh]

theorem holdsPairs_quiet (h : Iteration (customOps host) s s') (hq : Quiet ptr (2 * n) s)
    (hv : HoldsPairs Rep ptr n s v) : HoldsPairs Rep ptr n s' v := by
  intro i
  rw [readPair_eq_of_bytes fun a ha => (iteration_frame h).bytes a (hq i a ha)]
  exact hv i

/-- What a word that stores a pair leaves. -/
theorem readPair_next {r : Pair} (hn : 2 * n ≤ 2 ^ 32) (hc : IsCustom s.cpu.fetch)
    (hw : WritesPair host s.cpu.fetch s n r) (h : Iteration (customOps host) s s') :
    readPair s'.cpu.mem (s.cpu.readReg (rd s.cpu.fetch)) n = r := by
  obtain ⟨t, ht, rfl⟩ := iteration_iff.mp h
  rw [step_custom _ hc] at ht
  have hread : readPair t.cpu.mem _ n = r := readPair_of_writes hn hw ht
  exact hread

/-- A word that stores a pair in a slot completes, and changes what that slot stands for. -/
theorem pair_step [DecidableEq ι] (hcells : Cells ptr (2 * n)) (hc : IsCustom s.cpu.fetch) {d : ι}
    (hd : s.cpu.readReg (rd s.cpu.fetch) = ptr d) {r : Pair}
    (hw : WritesPair host s.cpu.fetch s n r) {x : V} (hr : Rep r x)
    (hv : HoldsPairs Rep ptr n s v) :
    ∃ s', StoresAt host s s' (ptr d) (2 * n) ∧ HoldsPairs Rep ptr n s' (Function.update v d x) := by
  obtain ⟨s', hs⟩ : ∃ s', StoresAt host s s' _ (2 * n) := by
    obtain ⟨bs, hlen, -, hy⟩ := hw
    exact storesAt_of_writes hc ⟨bs, hlen, rfl, hy⟩
  have hread := readPair_next hcells.fits hc hw hs.iteration
  rw [hd] at hs hread
  refine ⟨s', hs, fun i => ?_⟩
  by_cases hi : i = d
  · rw [hi, Function.update_self, hread]
    exact hr
  · rw [Function.update_of_ne hi, readPair_eq_of_bytes fun a ha => hs.bytes a ?_]
    · exact hv i
    · have hapart := hcells.apart d i (Ne.symm hi) (a - ptr i).toNat ha
      have hsum : ptr i + BitVec.ofNat 32 (a - ptr i).toNat = a := by
        rw [BitVec.ofNat_toNat, BitVec.setWidth_eq]
        grind
      rwa [hsum] at hapart

end Pairs

theorem pairPtr_cells_two : Cells pairPtr 2 where
  fits := by decide
  apart := by
    unfold Apart
    decide

end OpenvmSim.Precompiles
