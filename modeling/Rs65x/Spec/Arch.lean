import Rs65x.Bus
import Rs65x.Isa.Basic

/-!
# The programmer's model: addressing

The registers and the memory between two instructions. `pc` is the address of the opcode.
-/

namespace Rs65x
open Words

structure Arch where
  a : U8
  x : U8
  y : U8
  s : U8
  p : U8
  pc : U16
  ram : U16 → U8

def AddressMode.isMemory : AddressMode → Bool
  | .directPage _ | .absolute _ | .dpIndirect _ => true
  | _ => false

/-- The length in bytes of an instruction that does not jump. -/
def AddressMode.length : AddressMode → U16
  | .noMemory .immediate | .directPage _ | .dpIndirect _ => 2
  | .absolute _ => 3
  | _ => 1

/-- The index that is added to a whole word, after any indirection. -/
def AddressMode.wordIndex : AddressMode → OffsetType
  | .absolute offset => offset
  | .dpIndirect .y => .y
  | _ => .none

namespace Arch

def word (ram : U16 → U8) (addr : U16) : U16 := fromLeBytes (ram addr) (ram (addr + 1))

/-- The word at a zero-page address; its second byte is in the zero page too. -/
def zeroPageWord (ram : U16 → U8) (addr : U8) : U16 :=
  fromLeBytes (ram (addr.setWidth 16)) (ram ((addr + 1).setWidth 16))

variable (s : Arch)

def index : OffsetType → U8
  | .none => 0
  | .x => s.x
  | .y => s.y

def operand : U8 := s.ram (s.pc + 1)

/-- The address of the operand, of an immediate one too. -/
def effectiveAddress : AddressMode → U16
  | .directPage offset => (s.operand + s.index offset).setWidth 16
  | .absolute offset => word s.ram (s.pc + 1) + (s.index offset).setWidth 16
  | .dpIndirect .none => zeroPageWord s.ram s.operand
  | .dpIndirect .x => zeroPageWord s.ram (s.operand + s.x)
  | .dpIndirect .y => zeroPageWord s.ram s.operand + s.y.setWidth 16
  | _ => s.pc + 1

/-- The address of the operand without the index that is added to a whole word. -/
def baseAddress : AddressMode → U16
  | .directPage offset => (s.operand + s.index offset).setWidth 16
  | .absolute _ => word s.ram (s.pc + 1)
  | .dpIndirect .x => zeroPageWord s.ram (s.operand + s.x)
  | .dpIndirect _ => zeroPageWord s.ram s.operand
  | _ => s.pc + 1

theorem effectiveAddress_eq (mode : AddressMode) : s.effectiveAddress mode =
    s.baseAddress mode + (s.index mode.wordIndex).setWidth 16 := by
  rcases mode with _ | _ | _ | _ | (_ | _ | _) | _ <;>
    simp [effectiveAddress, baseAddress, AddressMode.wordIndex, index]

/-- The addresses that are read before the operand, the opcode's apart. -/
def pointerReads : AddressMode → List U16
  | .directPage offset =>
      (s.pc + 1) :: (if offset = .none then [] else [s.operand.setWidth 16])
  | .absolute _ => [s.pc + 1, s.pc + 2]
  | .dpIndirect offset =>
      let pointer := if offset = .x then s.operand + s.x else s.operand
      (s.pc + 1) :: (if offset = .x then [s.operand.setWidth 16] else []) ++
        [pointer.setWidth 16, (pointer + 1).setWidth 16]
  | _ => []

end Arch

end Rs65x
