import OpenvmSim.Rv32im.Decode

/-! OpenVM custom-opcode encoding constants.

Only the constants the dispatcher and the handlers use, as `u32` values, and the
number formats of the error texts. -/
namespace OpenvmSim.Precompiles
open Rv32im (Word)

/-! ### custom-0 funct3 -/

def F3_TERMINATE : Word := 0b000#32
def F3_HINT : Word := 0b001#32
def F3_REVEAL : Word := 0b010#32
def F3_PHANTOM : Word := 0b011#32
def F3_HASH : Word := 0b100#32
def F3_INT256 : Word := 0b101#32
def F3_BEQ256 : Word := 0b110#32
def F3_NATIVE_STOREW : Word := 0b111#32

/-! ### Hash funct7, hint and phantom immediates -/

def F7_KECCAKF : Word := 0#32
def F7_XORIN : Word := 1#32
def F7_SHA256_COMPRESS : Word := 2#32

def HINT_STOREW_IMM : Word := 0#32
def HINT_BUFFER_IMM : Word := 1#32

def PHANTOM_HINT_INPUT : Word := 0#32

/-! ### custom-1 funct3 and the base operations in funct7 -/

def F3_MODULAR : Word := 0b000#32
def F3_SW : Word := 0b001#32
def F3_COMPLEX : Word := 0b010#32
def F3_PAIRING : Word := 0b011#32

def MODULAR_MAX_KINDS : Word := 8#32
def MOD_ADD : Word := 0#32
def MOD_SUB : Word := 1#32
def MOD_MUL : Word := 2#32
def MOD_DIV : Word := 3#32
def MOD_ISEQ : Word := 4#32
def MOD_SETUP : Word := 5#32
def MOD_HINT_NON_QR : Word := 6#32
def MOD_HINT_SQRT : Word := 7#32

def SW_MAX_KINDS : Word := 8#32
def SW_ADD_NE : Word := 0#32
def SW_DOUBLE : Word := 1#32
def SW_SETUP : Word := 2#32
def SW_HINT_DECOMPRESS : Word := 3#32
def SW_HINT_NON_QR : Word := 4#32

def PAIRING_MAX_KINDS : Word := 16#32

/-! ### int256 operations -/

def INT256_ADD : Word := 0#32
def INT256_SUB : Word := 1#32
def INT256_XOR : Word := 2#32
def INT256_OR : Word := 3#32
def INT256_AND : Word := 4#32
def INT256_SLL : Word := 5#32
def INT256_SRL : Word := 6#32
def INT256_SRA : Word := 7#32
def INT256_SLT : Word := 8#32
def INT256_SLTU : Word := 9#32
def INT256_MUL : Word := 10#32

/-! ### Number formats of the error texts -/

/-- The digits of `w` in `base`, with zeros in front up to `width`. -/
def padded (base width : ℕ) (w : Word) : String :=
  let ds := Nat.toDigits base w.toNat
  String.ofList (List.replicate (width - ds.length) '0' ++ ds)

/-- `{}` -/
def dec (w : Word) : String := padded 10 1 w

/-- `{:x}` -/
def hex (w : Word) : String := padded 16 1 w

/-- `{:08x}` -/
def hex8 (w : Word) : String := padded 16 8 w

/-- `{:03b}` -/
def bin3 (w : Word) : String := padded 2 3 w

end OpenvmSim.Precompiles
