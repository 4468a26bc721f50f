import Rs65x.Isa.Microop
import Rs65x.Isa.Table

/-!
# CPU flavors
-/

namespace Rs65x

/-- The constants of the trait that the cores read. -/
structure Flavor where
  micro : MicroCode
  decimal : DecimalSemantics
  decimalAdcImmediateRead : U32 := 0x00
  invalidAddrRead : Bool
  rmwDummyWrite : Bool
  opcodeTable : OpcodeTable

def emitJsr8bit (_ctx : DecodeContext) : Emission :=
  .ok [.read .pc .eaLo true, .read .sp .none false, .push .pcHi, .push .pcLo,
    ⟨⟨.pc, false, true, true⟩, false, .eaHi, .swapEaPc⟩]

def emitRts8bit (_ctx : DecodeContext) : Emission :=
  .ok [.dummyRead .pc, .read .sp .none true, .read .sp .pcLo true, .read .sp .pcHi false,
    .read .pc .none true]

def micro6502 : MicroCode where
  emitJmpind _ :=
    .ok [.read .pc .ptrLo true, .read .pc .ptrHi false,
      -- wraps around on Lo byte, does not affect Hi
      ⟨⟨.ptr, true, false, true⟩, false, .pcLo, .incLatch .ptrLo⟩,
      .read .ptr .pcHi false]
  emitJsr := emitJsr8bit
  emitRts := emitRts8bit
  emitJam _ :=
    .ok [.read .pc .none false, .read (.constant 0xFFFF) .none false,
      .read (.constant 0xFFFE) .none false, .read (.constant 0xFFFE) .none false,
      ⟨⟨.constant 0xFFFF, false, false, true⟩, false, .none, .jam⟩,
      -- this will never be reached, we just dont want the queue to be empty
      .dummyRead .none]

/-- The `while cycles > 1` loop, by the number of turns left; `i` counts the turns made. -/
def cmosNopReads (i : Nat) : Nat → List MicroOp
  | 0 => []
  | n + 1 => .read .pc .none (i = 0 || i = 2) :: cmosNopReads (i + 1) n

def micro65C02 : MicroCode where
  emitJmpind _ :=
    .ok [.read .pc .ptrLo true, .read .pc .ptrHi false, .readPtr1 .pcLo, .readInvPtr2 .pcHi,
      .read .ptr .pcHi false]
  emitJsr := emitJsr8bit
  emitRts := emitRts8bit
  emitCmosNop _ bytes cycles :=
    if bytes = 3 ∧ cycles = 3 then .ok [.read .pc .none true, .read .pc .none true]
    else .ok (cmosNopReads 0 (cycles - 1))

/-- The flavors that the crate ships. -/
inductive Variant where
  | nmos6502 | wdc65C02 | synertek65C02 | rockwell65C02 | nes
  deriving DecidableEq, Repr

def Variant.flavor : Variant → Flavor
  | .nmos6502 =>
    { micro := micro6502
      decimal := .nmos6502
      invalidAddrRead := true
      rmwDummyWrite := true
      opcodeTable := .nmos }
  | .wdc65C02 =>
    { micro := micro65C02
      decimal := .cmos65C02
      decimalAdcImmediateRead := 0x007F
      invalidAddrRead := false
      rmwDummyWrite := false
      opcodeTable := .wdc65c02 }
  | .synertek65C02 =>
    { micro := micro65C02
      decimal := .cmos65C02
      decimalAdcImmediateRead := 0x0056
      invalidAddrRead := false
      rmwDummyWrite := false
      opcodeTable := .synertek }
  | .rockwell65C02 =>
    { micro := micro65C02
      decimal := .cmos65C02
      decimalAdcImmediateRead := 0x0059
      invalidAddrRead := false
      rmwDummyWrite := false
      opcodeTable := .rockwell }
  | .nes =>
    { micro := micro6502
      decimal := .none
      invalidAddrRead := true
      rmwDummyWrite := true
      opcodeTable := .nmos }

end Rs65x
