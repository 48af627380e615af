import Mathlib.Data.List.Induction
import OpenvmSim.Rv32im.Memory

/-! The paged memory is a flat memory.

`Memory.bytes` is the flat view of a memory: the byte at every address. Each
operation of `Memory` is shown to be the flat operation of the same name on that
view, so that nothing after this module looks at a page. The aligned fast paths
of `readU32` and `writeU32` are the places where this says something: they touch
one page four times instead of four bytes once. -/
namespace OpenvmSim.Rv32im.Memory
open LittleEndian

/-- The byte at every address. -/
def bytes (m : Memory) : Word → Byte := m.readU8

theorem bytes_apply (m : Memory) (a : Word) : m.bytes a = m.readU8 a := rfl

@[simp] theorem bytes_new : new.bytes = fun _ => 0#8 := rfl

/-! ### Pages -/

theorem pageIdx_toNat (a : Word) : (pageIdx a).toNat = a.toNat / 4096 := by
  rw [pageIdx, BitVec.toNat_ushiftRight, Nat.shiftRight_eq_div_pow]
  rfl

theorem pageIdx_eq_iff (a b : Word) : pageIdx a = pageIdx b ↔ a.toNat / 4096 = b.toNat / 4096 := by
  rw [← pageIdx_toNat, ← pageIdx_toNat]
  exact ⟨congrArg _, BitVec.eq_of_toNat_eq⟩

/-- Page number and offset determine the address. -/
theorem eq_of_page {a b : Word} (hi : pageIdx a = pageIdx b) (ho : pageOff a = pageOff b) : a = b := by
  rw [pageIdx_eq_iff] at hi
  rw [pageOff_eq, pageOff_eq] at ho
  apply BitVec.eq_of_toNat_eq
  omega

/-- Reading a byte is reading the page that `pageMut` would give. -/
theorem readU8_eq (m : Memory) (a : Word) (_ : pageOff a < 4096) :
    m.readU8 a = (m.pageMut (pageIdx a))[pageOff a] := by
  unfold readU8 pageMut
  cases m.pages (pageIdx a) with
  | some p => rfl
  | none => simp

@[simp] theorem pageMut_putPage_self (m : Memory) (i : Word) (p : Page) :
    (m.putPage i p).pageMut i = p := by
  simp [pageMut, putPage]

theorem pageMut_putPage_ne (m : Memory) {i j : Word} (p : Page) (h : j ≠ i) :
    (m.putPage i p).pageMut j = m.pageMut j := by
  simp [pageMut, putPage, Function.update_of_ne h]

/-! ### Single bytes -/

theorem bytes_writeU8 (m : Memory) (a : Word) (v : Byte) :
    (m.writeU8 a v).bytes = Function.update m.bytes a v := by
  funext x
  rw [bytes_apply, readU8_eq _ _ (pageOff_lt _), writeU8]
  by_cases hi : pageIdx x = pageIdx a
  · rw [hi, pageMut_putPage_self]
    by_cases hx : x = a
    · subst hx
      simp
    · have ho : pageOff a ≠ pageOff x := fun h => hx (eq_of_page hi h.symm)
      rw [Function.update_of_ne hx, bytes_apply, readU8_eq _ _ (pageOff_lt _), hi]
      simp [ho]
  · have hx : x ≠ a := fun h => hi (by rw [h])
    rw [pageMut_putPage_ne _ _ hi, Function.update_of_ne hx, bytes_apply, readU8_eq _ _ (pageOff_lt _)]

/-! ### Byte strings -/

theorem readVec_eq_load (m : Memory) (a : Word) (n : ℕ) : m.readVec a n = Flat.load m.bytes a n := rfl

@[simp] theorem length_readVec (m : Memory) (a : Word) (n : ℕ) : (m.readVec a n).length = n := by
  simp [readVec]

/-- Storing one more byte at the end of a slice. -/
theorem writeSlice_concat (m : Memory) (a : Word) (data : List Byte) (b : Byte) :
    m.writeSlice a (data ++ [b]) =
      (m.writeSlice a data).writeU8 (a + BitVec.ofNat 32 data.length) b := by
  simp [writeSlice, List.zipIdx_append]

theorem writeSlice_append (m : Memory) (a : Word) (xs ys : List Byte) :
    m.writeSlice a (xs ++ ys) =
      (m.writeSlice a xs).writeSlice (a + BitVec.ofNat 32 xs.length) ys := by
  induction ys using List.reverseRecOn with
  | nil => simp [writeSlice]
  | append_singleton ys y ih =>
    rw [← List.append_assoc, writeSlice_concat, ih, writeSlice_concat, List.length_append,
      BitVec.ofNat_add, BitVec.add_assoc]

theorem bytes_writeSlice (m : Memory) (a : Word) (data : List Byte) :
    (m.writeSlice a data).bytes = Flat.overlay m.bytes a data := by
  induction data using List.reverseRecOn with
  | nil => rfl
  | append_singleton data b ih =>
    rw [writeSlice_concat, bytes_writeU8, ih, Flat.overlay_concat]

/-! ### Words -/

theorem readU16_eq (m : Memory) (a : Word) :
    m.readU16 a = word16 (m.bytes a) (m.bytes (a + 1#32)) :=
  or_word16 _ _

/-- Inside an aligned word the page number stays and the offset advances. -/
theorem aligned_next {a : Word} (h : a &&& 3#32 = 0#32) {k : ℕ} (hk : k < 4) :
    pageIdx (a + BitVec.ofNat 32 k) = pageIdx a ∧
      pageOff (a + BitVec.ofNat 32 k) = pageOff a + k := by
  have h4 := (aligned_iff a).mp h
  have ha := a.isLt
  have hsum : (a + BitVec.ofNat 32 k).toNat = a.toNat + k := by
    rw [BitVec.toNat_add, BitVec.toNat_ofNat, Nat.mod_eq_of_lt (a := k) (by omega)]
    exact Nat.mod_eq_of_lt (by omega)
  constructor
  · rw [pageIdx_eq_iff, hsum]
    omega
  · rw [pageOff_eq, pageOff_eq, hsum]
    omega

/-- A byte of an aligned word, read through the word's page. -/
theorem bytes_aligned (m : Memory) {a : Word} (h : a &&& 3#32 = 0#32) {k : ℕ} (hk : k < 4)
    (_ : pageOff a + k < 4096) :
    m.bytes (a + BitVec.ofNat 32 k) = (m.pageMut (pageIdx a))[pageOff a + k] := by
  obtain ⟨hi, ho⟩ := aligned_next h hk
  rw [bytes_apply, readU8_eq _ _ (pageOff_lt _)]
  simp only [hi, ho]

theorem readU32_eq (m : Memory) (a : Word) :
    m.readU32 a =
      word32 (m.bytes a) (m.bytes (a + 1#32)) (m.bytes (a + 2#32)) (m.bytes (a + 3#32)) := by
  unfold readU32
  split
  · next h =>
    have ho := offset_fits h
    have h0 := bytes_aligned m h (k := 0) (by decide) (by omega)
    have h1 := bytes_aligned m h (k := 1) (by decide) (by omega)
    have h2 := bytes_aligned m h (k := 2) (by decide) (by omega)
    have h3 := bytes_aligned m h (k := 3) (by decide) (by omega)
    rw [show a + BitVec.ofNat 32 0 = a from BitVec.add_zero a] at h0
    rw [h0, h1, h2, h3]
    unfold pageMut
    cases m.pages (pageIdx a) with
    | some p => rfl
    | none => simp [word32]
  · exact or_word32 _ _ _ _

theorem bytes_writeU16 (m : Memory) (a : Word) (v : BitVec 16) :
    (m.writeU16 a v).bytes = Flat.overlay m.bytes a (LittleEndian.ofNat 2 v.toNat) := by
  have hlo : v.setWidth 8 = BitVec.ofNat 8 v.toNat := BitVec.eq_of_toNat_eq (by simp)
  have hhi : (v >>> 8).setWidth 8 = BitVec.ofNat 8 (v.toNat / 256) :=
    BitVec.eq_of_toNat_eq (by simp [Nat.shiftRight_eq_div_pow])
  rw [writeU16, bytes_writeU8, bytes_writeU8, hlo, hhi]
  rfl

/-- A page with four bytes replaced, offset by offset. -/
theorem getElem_set_four (p : Page) (o : ℕ) (ho : o + 3 < 4096) (b₀ b₁ b₂ b₃ : Byte) (k : ℕ)
    (hk : k < 4096) :
    ((((p.set o b₀ (by omega)).set (o + 1) b₁ (by omega)).set (o + 2) b₂ (by omega)).set (o + 3) b₃
        ho)[k] =
      if k = o + 3 then b₃ else if k = o + 2 then b₂ else if k = o + 1 then b₁
      else if k = o then b₀ else p[k] := by
  simp only [Vector.getElem_set, eq_comm (b := k)]

theorem bytes_writeU32 (m : Memory) (a : Word) (v : Word) :
    (m.writeU32 a v).bytes = Flat.overlay m.bytes a (LittleEndian.ofNat 4 v.toNat) := by
  unfold writeU32
  split
  · next h =>
    have h4 := (aligned_iff a).mp h
    have ha := a.isLt
    have hlen : (LittleEndian.ofNat 4 v.toNat).length = 4 := LittleEndian.length_ofNat 4 _
    funext x
    have hx := x.isLt
    rw [Flat.overlay_apply _ _ _ (by rw [hlen]; decide), bytes_apply, readU8_eq _ _ (pageOff_lt _)]
    by_cases hi : pageIdx x = pageIdx a
    · rw [hi, pageMut_putPage_self, getElem_set_four, bytes_apply, readU8_eq _ _ (pageOff_lt _), hi]
      rw [pageIdx_eq_iff] at hi
      simp only [pageOff_eq]
      by_cases hin : a.toNat ≤ x.toNat ∧ x.toNat < a.toNat + 4
      · obtain ⟨k, hk, hxk⟩ : ∃ k, k < 4 ∧ x.toNat = a.toNat + k := ⟨x.toNat - a.toNat, by omega⟩
        have hd : (x - a).toNat = k := by
          rw [BitVec.toNat_sub]
          omega
        rw [hd]
        have hk' : k = 0 ∨ k = 1 ∨ k = 2 ∨ k = 3 := by omega
        rcases hk' with rfl | rfl | rfl | rfl
        · rw [if_neg (by omega), if_neg (by omega), if_neg (by omega), if_pos (by omega)]
          rfl
        · rw [if_neg (by omega), if_neg (by omega), if_pos (by omega)]
          rfl
        · rw [if_neg (by omega), if_pos (by omega)]
          rfl
        · rw [if_pos (by omega)]
          rfl
      · have hd : 4 ≤ (x - a).toNat := by
          rw [BitVec.toNat_sub]
          omega
        rw [if_neg (by omega), if_neg (by omega), if_neg (by omega), if_neg (by omega),
          List.getElem?_eq_none (by omega)]
        rfl
    · rw [pageMut_putPage_ne _ _ hi, bytes_apply, readU8_eq _ _ (pageOff_lt _)]
      rw [pageIdx_eq_iff] at hi
      have hd : 4 ≤ (x - a).toNat := by
        rw [BitVec.toNat_sub]
        omega
      rw [List.getElem?_eq_none (by omega)]
      rfl
  · exact bytes_writeSlice m a _

/-- A word reads back as it was written. -/
theorem readU32_writeU32 (m : Memory) (a v : Word) : (m.writeU32 a v).readU32 a = v := by
  have hload := Flat.load_overlay m.bytes a (LittleEndian.ofNat 4 v.toNat) (by simp)
  rw [LittleEndian.length_ofNat, ← bytes_writeU32] at hload
  have hbytes : [(m.writeU32 a v).bytes a, (m.writeU32 a v).bytes (a + 1#32),
      (m.writeU32 a v).bytes (a + 2#32), (m.writeU32 a v).bytes (a + 3#32)] =
      LittleEndian.ofNat 4 v.toNat := by
    rw [← hload]
    simp [Flat.load, List.range_succ]
  apply BitVec.eq_of_toNat_eq
  rw [readU32_eq, word32_toNat, hbytes, LittleEndian.toNat_ofNat]
  exact Nat.mod_eq_of_lt v.isLt

/-! ### Histories of writes -/

/-- A call that writes to a memory. A slice is no longer than the address space. -/
inductive Write where
  | u8 (addr : Word) (val : Byte)
  | u16 (addr : Word) (val : BitVec 16)
  | u32 (addr : Word) (val : Word)
  | slice (addr : Word) (data : List Byte) (h : data.length ≤ 2 ^ 32)

namespace Write

/-- What the call does to a paged memory. -/
def run (m : Memory) : Write → Memory
  | u8 addr val => m.writeU8 addr val
  | u16 addr val => m.writeU16 addr val
  | u32 addr val => m.writeU32 addr val
  | slice addr data _ => m.writeSlice addr data

def addr : Write → Word
  | u8 addr _ => addr
  | u16 addr _ => addr
  | u32 addr _ => addr
  | slice addr _ _ => addr

/-- The bytes the call writes, from its address on. -/
def data : Write → List Byte
  | u8 _ val => LittleEndian.ofNat 1 val.toNat
  | u16 _ val => LittleEndian.ofNat 2 val.toNat
  | u32 _ val => LittleEndian.ofNat 4 val.toNat
  | slice _ data _ => data

/-- What the call does to a flat memory: the byte at distance `i` from its address is the
`i`-th byte written, and every other byte stays. -/
def store (flat : Word → Byte) (w : Write) : Word → Byte := fun x =>
  (w.data[(x - w.addr).toNat]?).getD (flat x)

theorem length_data (w : Write) : w.data.length ≤ 2 ^ 32 := by
  cases w with
  | u8 addr val => simp [data]
  | u16 addr val => simp [data]
  | u32 addr val => simp [data]
  | slice addr data h => exact h

theorem store_eq (flat : Word → Byte) (w : Write) :
    w.store flat = Flat.overlay flat w.addr w.data := by
  funext x
  rw [Flat.overlay_apply _ _ _ w.length_data]
  rfl

/-- One call on a paged memory is the call on its flat view. -/
theorem bytes_run (m : Memory) (w : Write) : (w.run m).bytes = w.store m.bytes := by
  rw [store_eq]
  cases w with
  | u8 addr val =>
    have hval : LittleEndian.ofNat 1 val.toNat = [val] := by
      show [BitVec.ofNat 8 val.toNat] = [val]
      rw [BitVec.ofNat_toNat, BitVec.setWidth_eq]
    rw [run, bytes_writeU8, data, hval]
    rfl
  | u16 addr val => exact bytes_writeU16 m addr val
  | u32 addr val => exact bytes_writeU32 m addr val
  | slice addr data h => exact bytes_writeSlice m addr data

end Write

/-- A history of calls on a paged memory is the history on its flat view. -/
theorem bytes_history (history : List Write) (m : Memory) :
    (history.foldl Write.run m).bytes = history.foldl Write.store m.bytes := by
  induction history generalizing m with
  | nil => rfl
  | cons w history ih => rw [List.foldl_cons, ih, Write.bytes_run, List.foldl_cons]

/-- The bytes of an aligned word all lie in the page the word is in, so that the fast paths
read and write what the byte-by-byte paths do. -/
theorem fast_paths (m : Memory) :
    (∀ a, pageOff a < PAGE_SIZE ∧ (a &&& 3#32 = 0#32 → pageOff a + 3 < PAGE_SIZE)) ∧
    (∀ a, m.readU32 a = (m.readU8 a).setWidth 32 ||| (m.readU8 (a + 1#32)).setWidth 32 <<< 8 |||
      (m.readU8 (a + 2#32)).setWidth 32 <<< 16 ||| (m.readU8 (a + 3#32)).setWidth 32 <<< 24) ∧
    ∀ a v, (m.writeU32 a v).bytes = (m.writeSlice a (LittleEndian.ofNat 4 v.toNat)).bytes := by
  refine ⟨fun a => ⟨pageOff_lt a, offset_fits⟩, fun a => ?_, fun a v => ?_⟩
  · rw [readU32_eq]
    exact (or_word32 _ _ _ _).symm
  · rw [bytes_writeU32, bytes_writeSlice]

/-- **The paged memory refines a flat one.** After any history of writes to a new memory,
every read returns what it returns on the flat function from addresses to bytes that is zero
at first and takes the same writes, little-endian and modulo 2^32; no access to a page is
outside it, and the aligned fast paths agree with the byte-by-byte ones. -/
theorem history_refines (history : List Write) :
    let m := history.foldl Write.run new
    let flat := history.foldl Write.store fun _ => 0#8
    (∀ a, m.readU8 a = flat a) ∧
    (∀ a, m.readU16 a = BitVec.ofNat 16 (toNat [flat a, flat (a + 1#32)])) ∧
    (∀ a, m.readU32 a =
      BitVec.ofNat 32 (toNat [flat a, flat (a + 1#32), flat (a + 2#32), flat (a + 3#32)])) ∧
    (∀ a n, m.readVec a n = (List.range n).map fun i => flat (a + BitVec.ofNat 32 i)) ∧
    (∀ a, pageOff a < PAGE_SIZE ∧ (a &&& 3#32 = 0#32 → pageOff a + 3 < PAGE_SIZE)) ∧
    (∀ a, m.readU32 a = (m.readU8 a).setWidth 32 ||| (m.readU8 (a + 1#32)).setWidth 32 <<< 8 |||
      (m.readU8 (a + 2#32)).setWidth 32 <<< 16 ||| (m.readU8 (a + 3#32)).setWidth 32 <<< 24) ∧
    ∀ a v, (m.writeU32 a v).bytes = (m.writeSlice a (LittleEndian.ofNat 4 v.toNat)).bytes := by
  intro m flat
  have hflat : m.bytes = flat := bytes_history history new
  refine ⟨fun a => congrFun hflat a, fun a => ?_, fun a => ?_, fun a n => ?_, fast_paths m⟩
  · rw [readU16_eq, hflat, ← word16_toNat, BitVec.ofNat_toNat, BitVec.setWidth_eq]
  · rw [readU32_eq, hflat, ← word32_toNat, BitVec.ofNat_toNat, BitVec.setWidth_eq]
  · rw [readVec_eq_load, hflat, Flat.load]

end OpenvmSim.Rv32im.Memory
