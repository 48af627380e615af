import OpenvmSim.Rv32im.Decode

/-! What the ELF loader hands to the CPU: an entry point and loadable segments. -/
namespace OpenvmSim.Elf
open Rv32im (Byte Word)

/-- One loadable segment ready to be copied into simulator memory. -/
structure Segment where
  vaddr : Word
  memSize : Word
  writable : Bool
  executable : Bool
  /-- File data; if shorter than `memSize` the remainder is zero-filled (BSS). -/
  data : List Byte

structure LoadedProgram where
  entry : Word
  segments : List Segment

namespace Segment

/-- The segment has file data for the address. Distances from the start of a segment wrap at
the end of the address space. -/
def Covers (seg : Segment) (a : Word) : Prop := (a - seg.vaddr).toNat < seg.data.length

/-- The address is in the range of the segment. -/
def Contains (seg : Segment) (a : Word) : Prop := (a - seg.vaddr).toNat < seg.memSize.toNat

/-- The two ranges have no address in common. -/
def Apart (s t : Segment) : Prop := ∀ a, ¬(s.Contains a ∧ t.Contains a)

instance symmApart : Std.Symm Apart := ⟨fun _ _ h a ha => h a ha.symm⟩

/-- The file data are no longer than the segment. -/
def Fits (seg : Segment) : Prop := seg.data.length ≤ seg.memSize.toNat

section Decidable
variable (seg : Segment) (a : Word)

instance decidableCovers : Decidable (seg.Covers a) := inferInstanceAs (Decidable (_ < _))
instance decidableContains : Decidable (seg.Contains a) := inferInstanceAs (Decidable (_ < _))
instance decidableFits : Decidable seg.Fits := inferInstanceAs (Decidable (_ ≤ _))

end Decidable

theorem Fits.contains {seg : Segment} {a : Word} (h : seg.Fits) (hc : seg.Covers a) :
    seg.Contains a := Nat.lt_of_lt_of_le hc h

end Segment

end OpenvmSim.Elf
