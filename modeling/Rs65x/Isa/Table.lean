import Rs65x.Isa.Basic

/-!
# Opcode tables

`Wdc816` is left out: no flavor decodes with it, so neither do the entries that only it has.
-/

namespace Rs65x

inductive Mnemonic where
  | undefined
  | lda | ldx | ldy | sta | stx | sty | tax | tay | txa | tya | tsx | txs | pha | php | pla | plp
  | and | eor | ora | bit | adc | sbc | cmp | cpx | cpy | inc | inx | iny | dec | dex | dey
  | asl | lsr | rol | ror | jmp | jsr | rts | bcc | bcs | beq | bmi | bne | bpl | bvc | bvs
  | clc | cld | cli | clv | sec | sed | sei | brk | rti | nop
  -- illegal NMOS opcodes
  | alr | anc | ane | arr | dcp | isc | las | lax | lxa | rla | rra | sax | sbx | sha | shx | shy
  | slo | sre | tas | usbc | jam
  -- 65C02
  | bra | phx | phy | plx | ply | stz | trb | tsb | stp | wai
  -- R65C02
  | bbr0 | bbr1 | bbr2 | bbr3 | bbr4 | bbr5 | bbr6 | bbr7
  | bbs0 | bbs1 | bbs2 | bbs3 | bbs4 | bbs5 | bbs6 | bbs7
  | rmb0 | rmb1 | rmb2 | rmb3 | rmb4 | rmb5 | rmb6 | rmb7
  | smb0 | smb1 | smb2 | smb3 | smb4 | smb5 | smb6 | smb7
  deriving DecidableEq, Repr

structure Instruction where
  mnemonic : Mnemonic
  addressMode : AddressMode
  memoryAction : MemoryAction
  deriving DecidableEq, Repr

/-- `action_for_mnemonic` -/
def Mnemonic.action : Mnemonic → MemoryAction
  | .sta | .stx | .sty | .stz | .pha | .php | .phx | .phy | .sax | .sha | .tas | .shy | .shx =>
      .write
  | .asl | .lsr | .rol | .ror | .inc | .dec | .tsb | .trb | .slo | .rla | .sre | .rra | .dcp
  | .isc => .readModifyWrite
  | .rmb0 | .rmb1 | .rmb2 | .rmb3 | .rmb4 | .rmb5 | .rmb6 | .rmb7
  | .smb0 | .smb1 | .smb2 | .smb3 | .smb4 | .smb5 | .smb6 | .smb7 => .readModifyWrite
  | _ => .read

inductive OpcodeTable where
  | nmos | synertek | rockwell | wdc65c02
  deriving DecidableEq, Repr

/-- The tables that an entry is for; the entries without a filter are for all of them. -/
abbrev Filter := Option (List OpcodeTable)

namespace Filter

def common : Filter := none
def cmos : Filter := some [.synertek, .rockwell, .wdc65c02]
def bitOps : Filter := some [.rockwell, .wdc65c02]
def every : Filter := some [.nmos, .synertek, .rockwell, .wdc65c02]
def only (tables : List OpcodeTable) : Filter := some tables

def includes : Filter → OpcodeTable → Bool
  | none, _ => true
  | some tables, table => tables.contains table

end Filter

structure Entry where
  instruction : Instruction
  filter : Filter
  code : Nat

open Rs65x.Filter in
/-- The invocation of `define_opcodes!`. -/
def definitions : List (Mnemonic × List (AddressMode × Filter × Nat)) := [
  (.lda, [(.noMemory .immediate, common, 0xA9), (.directPage .none, common, 0xA5),
    (.directPage .x, common, 0xB5), (.absolute .none, common, 0xAD), (.absolute .x, common, 0xBD),
    (.absolute .y, common, 0xB9), (.dpIndirect .x, common, 0xA1), (.dpIndirect .y, common, 0xB1),
    (.dpIndirect .none, cmos, 0xB2)]),
  (.ldx, [(.noMemory .immediate, common, 0xA2), (.directPage .none, common, 0xA6),
    (.directPage .y, common, 0xB6), (.absolute .none, common, 0xAE), (.absolute .y, common, 0xBE)]),
  (.ldy, [(.noMemory .immediate, common, 0xA0), (.directPage .none, common, 0xA4),
    (.directPage .x, common, 0xB4), (.absolute .none, common, 0xAC), (.absolute .x, common, 0xBC)]),
  (.sta, [(.directPage .none, common, 0x85), (.directPage .x, common, 0x95),
    (.absolute .none, common, 0x8D), (.absolute .x, common, 0x9D), (.absolute .y, common, 0x99),
    (.dpIndirect .x, common, 0x81), (.dpIndirect .y, common, 0x91),
    (.dpIndirect .none, cmos, 0x92)]),
  (.stx, [(.directPage .none, common, 0x86), (.directPage .y, common, 0x96),
    (.absolute .none, common, 0x8E)]),
  (.sty, [(.directPage .none, common, 0x84), (.directPage .x, common, 0x94),
    (.absolute .none, common, 0x8C)]),
  (.tax, [(.noMemory .implied, common, 0xAA)]),
  (.tay, [(.noMemory .implied, common, 0xA8)]),
  (.txa, [(.noMemory .implied, common, 0x8A)]),
  (.tya, [(.noMemory .implied, common, 0x98)]),
  (.tsx, [(.noMemory .implied, common, 0xBA)]),
  (.txs, [(.noMemory .implied, common, 0x9A)]),
  (.pha, [(.stack, common, 0x48)]),
  (.php, [(.stack, common, 0x08)]),
  (.pla, [(.stack, common, 0x68)]),
  (.plp, [(.stack, common, 0x28)]),
  (.and, [(.noMemory .immediate, common, 0x29), (.directPage .none, common, 0x25),
    (.directPage .x, common, 0x35), (.absolute .none, common, 0x2D), (.absolute .x, common, 0x3D),
    (.absolute .y, common, 0x39), (.dpIndirect .x, common, 0x21), (.dpIndirect .y, common, 0x31),
    (.dpIndirect .none, cmos, 0x32)]),
  (.eor, [(.noMemory .immediate, common, 0x49), (.directPage .none, common, 0x45),
    (.directPage .x, common, 0x55), (.absolute .none, common, 0x4D), (.absolute .x, common, 0x5D),
    (.absolute .y, common, 0x59), (.dpIndirect .x, common, 0x41), (.dpIndirect .y, common, 0x51),
    (.dpIndirect .none, cmos, 0x52)]),
  (.ora, [(.noMemory .immediate, common, 0x09), (.directPage .none, common, 0x05),
    (.directPage .x, common, 0x15), (.absolute .none, common, 0x0D), (.absolute .x, common, 0x1D),
    (.absolute .y, common, 0x19), (.dpIndirect .x, common, 0x01), (.dpIndirect .y, common, 0x11),
    (.dpIndirect .none, cmos, 0x12)]),
  (.bit, [(.directPage .none, common, 0x24), (.absolute .none, common, 0x2C),
    (.noMemory .immediate, cmos, 0x89), (.directPage .x, cmos, 0x34), (.absolute .x, cmos, 0x3C)]),
  (.adc, [(.noMemory .immediate, common, 0x69), (.directPage .none, common, 0x65),
    (.directPage .x, common, 0x75), (.absolute .none, common, 0x6D), (.absolute .x, common, 0x7D),
    (.absolute .y, common, 0x79), (.dpIndirect .x, common, 0x61), (.dpIndirect .y, common, 0x71),
    (.dpIndirect .none, cmos, 0x72)]),
  (.sbc, [(.noMemory .immediate, common, 0xE9), (.directPage .none, common, 0xE5),
    (.directPage .x, common, 0xF5), (.absolute .none, common, 0xED), (.absolute .x, common, 0xFD),
    (.absolute .y, common, 0xF9), (.dpIndirect .x, common, 0xE1), (.dpIndirect .y, common, 0xF1),
    (.dpIndirect .none, cmos, 0xF2)]),
  (.cmp, [(.noMemory .immediate, common, 0xC9), (.directPage .none, common, 0xC5),
    (.directPage .x, common, 0xD5), (.absolute .none, common, 0xCD), (.absolute .x, common, 0xDD),
    (.absolute .y, common, 0xD9), (.dpIndirect .x, common, 0xC1), (.dpIndirect .y, common, 0xD1),
    (.dpIndirect .none, cmos, 0xD2)]),
  (.cpx, [(.noMemory .immediate, common, 0xE0), (.directPage .none, common, 0xE4),
    (.absolute .none, common, 0xEC)]),
  (.cpy, [(.noMemory .immediate, common, 0xC0), (.directPage .none, common, 0xC4),
    (.absolute .none, common, 0xCC)]),
  (.inc, [(.directPage .none, common, 0xE6), (.directPage .x, common, 0xF6),
    (.absolute .none, common, 0xEE), (.absolute .x, common, 0xFE),
    (.noMemory .implied, cmos, 0x1A)]),
  (.inx, [(.noMemory .implied, common, 0xE8)]),
  (.iny, [(.noMemory .implied, common, 0xC8)]),
  (.dec, [(.directPage .none, common, 0xC6), (.directPage .x, common, 0xD6),
    (.absolute .none, common, 0xCE), (.absolute .x, common, 0xDE),
    (.noMemory .implied, cmos, 0x3A)]),
  (.dex, [(.noMemory .implied, common, 0xCA)]),
  (.dey, [(.noMemory .implied, common, 0x88)]),
  (.asl, [(.noMemory .implied, common, 0x0A), (.directPage .none, common, 0x06),
    (.directPage .x, common, 0x16), (.absolute .none, common, 0x0E), (.absolute .x, common, 0x1E)]),
  (.lsr, [(.noMemory .implied, common, 0x4A), (.directPage .none, common, 0x46),
    (.directPage .x, common, 0x56), (.absolute .none, common, 0x4E), (.absolute .x, common, 0x5E)]),
  (.rol, [(.noMemory .implied, common, 0x2A), (.directPage .none, common, 0x26),
    (.directPage .x, common, 0x36), (.absolute .none, common, 0x2E), (.absolute .x, common, 0x3E)]),
  (.ror, [(.noMemory .implied, common, 0x6A), (.directPage .none, common, 0x66),
    (.directPage .x, common, 0x76), (.absolute .none, common, 0x6E), (.absolute .x, common, 0x7E)]),
  (.jmp, [(.jump .jmpAbsolute, common, 0x4C), (.jump .jmpIndirect, common, 0x6C),
    (.jump .jmpAbsoluteX, cmos, 0x7C)]),
  (.jsr, [(.jump .toSubroutine, common, 0x20)]),
  (.rts, [(.jump .fromSubroutine, common, 0x60)]),
  (.bcc, [(.branch .relative, common, 0x90)]),
  (.bcs, [(.branch .relative, common, 0xB0)]),
  (.beq, [(.branch .relative, common, 0xF0)]),
  (.bmi, [(.branch .relative, common, 0x30)]),
  (.bne, [(.branch .relative, common, 0xD0)]),
  (.bpl, [(.branch .relative, common, 0x10)]),
  (.bvc, [(.branch .relative, common, 0x50)]),
  (.bvs, [(.branch .relative, common, 0x70)]),
  (.clc, [(.noMemory .implied, common, 0x18)]),
  (.cld, [(.noMemory .implied, common, 0xD8)]),
  (.cli, [(.noMemory .implied, common, 0x58)]),
  (.clv, [(.noMemory .implied, common, 0xB8)]),
  (.sec, [(.noMemory .implied, common, 0x38)]),
  (.sed, [(.noMemory .implied, common, 0xF8)]),
  (.sei, [(.noMemory .implied, common, 0x78)]),
  (.brk, [(.interrupt .brk, common, 0x00)]),
  (.rti, [(.jump .fromInterrupt, common, 0x40)]),
  (.nop, [(.noMemory .implied, common, 0xEA), (.noMemory .implied, only [.nmos], 0x1A),
    (.noMemory .implied, only [.nmos], 0x3A), (.noMemory .implied, only [.nmos], 0x5A),
    (.noMemory .implied, only [.nmos], 0x7A), (.noMemory .implied, only [.nmos], 0xDA),
    (.noMemory .implied, only [.nmos], 0xFA), (.noMemory .immediate, only [.nmos], 0x80),
    (.noMemory .immediate, only [.nmos], 0x82), (.noMemory .immediate, only [.nmos], 0x89),
    (.noMemory .immediate, only [.nmos], 0xC2), (.noMemory .immediate, only [.nmos], 0xE2),
    (.directPage .none, only [.nmos], 0x04), (.directPage .none, every, 0x44),
    (.directPage .none, only [.nmos], 0x64), (.directPage .x, only [.nmos], 0x14),
    (.directPage .x, only [.nmos], 0x34), (.directPage .x, every, 0x54),
    (.directPage .x, only [.nmos], 0x74), (.directPage .x, every, 0xD4),
    (.directPage .x, every, 0xF4), (.absolute .none, only [.nmos], 0x0C),
    (.absolute .x, only [.nmos], 0x1C), (.absolute .x, only [.nmos], 0x3C),
    (.absolute .x, only [.nmos], 0x5C), (.absolute .x, only [.nmos], 0x7C),
    (.absolute .x, only [.nmos], 0xDC), (.absolute .x, only [.nmos], 0xFC),
    (.cmosNop 1 1, cmos, 0x03), (.cmosNop 1 1, cmos, 0x13), (.cmosNop 1 1, cmos, 0x23),
    (.cmosNop 1 1, cmos, 0x33), (.cmosNop 1 1, cmos, 0x43), (.cmosNop 1 1, cmos, 0x53),
    (.cmosNop 1 1, cmos, 0x63), (.cmosNop 1 1, cmos, 0x73), (.cmosNop 1 1, cmos, 0x83),
    (.cmosNop 1 1, cmos, 0x93), (.cmosNop 1 1, cmos, 0xA3), (.cmosNop 1 1, cmos, 0xB3),
    (.cmosNop 1 1, cmos, 0xC3), (.cmosNop 1 1, cmos, 0xD3), (.cmosNop 1 1, cmos, 0xE3),
    (.cmosNop 1 1, cmos, 0xF3), (.cmosNop 1 1, cmos, 0x0B), (.cmosNop 1 1, cmos, 0x1B),
    (.cmosNop 1 1, cmos, 0x2B), (.cmosNop 1 1, cmos, 0x3B), (.cmosNop 1 1, cmos, 0x4B),
    (.cmosNop 1 1, cmos, 0x5B), (.cmosNop 1 1, cmos, 0x6B), (.cmosNop 1 1, cmos, 0x7B),
    (.cmosNop 1 1, cmos, 0x8B), (.cmosNop 1 1, cmos, 0x9B), (.cmosNop 1 1, cmos, 0xAB),
    (.cmosNop 1 1, cmos, 0xBB), (.cmosNop 1 1, cmos, 0xEB), (.cmosNop 1 1, cmos, 0xFB),
    (.cmosNop 2 2, cmos, 0x02), (.cmosNop 2 2, cmos, 0x22), (.cmosNop 2 2, cmos, 0x42),
    (.cmosNop 2 2, cmos, 0x62), (.cmosNop 2 2, cmos, 0x82), (.cmosNop 2 2, cmos, 0xC2),
    (.cmosNop 2 2, cmos, 0xE2), (.cmosNop 3 4, cmos, 0xDC), (.cmosNop 3 4, cmos, 0xFC),
    (.cmosNop 3 8, only [.wdc65c02], 0x5C), (.cmosNop 3 4, only [.synertek, .rockwell], 0x5C),
    (.noMemory .implied, only [.synertek, .rockwell], 0xCB),
    (.directPage .x, only [.synertek, .rockwell], 0xDB),
    (.directPage .none, only [.synertek], 0x07), (.cmosNop 3 3, only [.synertek], 0x0F),
    (.directPage .x, only [.synertek], 0x17), (.cmosNop 3 4, only [.synertek], 0x1F),
    (.directPage .none, only [.synertek], 0x27), (.cmosNop 3 3, only [.synertek], 0x2F),
    (.directPage .x, only [.synertek], 0x37), (.cmosNop 3 4, only [.synertek], 0x3F),
    (.directPage .none, only [.synertek], 0x47), (.cmosNop 3 3, only [.synertek], 0x4F),
    (.directPage .x, only [.synertek], 0x57), (.cmosNop 3 4, only [.synertek], 0x5F),
    (.directPage .none, only [.synertek], 0x67), (.cmosNop 3 3, only [.synertek], 0x6F),
    (.directPage .x, only [.synertek], 0x77), (.cmosNop 3 4, only [.synertek], 0x7F),
    (.directPage .none, only [.synertek], 0x87), (.cmosNop 3 3, only [.synertek], 0x8F),
    (.directPage .x, only [.synertek], 0x97), (.cmosNop 3 4, only [.synertek], 0x9F),
    (.directPage .none, only [.synertek], 0xA7), (.cmosNop 3 3, only [.synertek], 0xAF),
    (.directPage .x, only [.synertek], 0xB7), (.cmosNop 3 4, only [.synertek], 0xBF),
    (.directPage .none, only [.synertek], 0xC7), (.cmosNop 3 3, only [.synertek], 0xCF),
    (.directPage .x, only [.synertek], 0xD7), (.cmosNop 3 4, only [.synertek], 0xDF),
    (.directPage .none, only [.synertek], 0xE7), (.cmosNop 3 3, only [.synertek], 0xEF),
    (.directPage .x, only [.synertek], 0xF7), (.cmosNop 3 4, only [.synertek], 0xFF)]),
  (.alr, [(.noMemory .immediate, only [.nmos], 0x4B)]),
  (.anc, [(.noMemory .immediate, only [.nmos], 0x0B), (.noMemory .immediate, only [.nmos], 0x2B)]),
  (.ane, [(.noMemory .immediate, only [.nmos], 0x8B)]),
  (.arr, [(.noMemory .immediate, only [.nmos], 0x6B)]),
  (.dcp, [(.directPage .none, only [.nmos], 0xC7), (.directPage .x, only [.nmos], 0xD7),
    (.absolute .none, only [.nmos], 0xCF), (.absolute .x, only [.nmos], 0xDF),
    (.absolute .y, only [.nmos], 0xDB), (.dpIndirect .x, only [.nmos], 0xC3),
    (.dpIndirect .y, only [.nmos], 0xD3)]),
  (.isc, [(.directPage .none, only [.nmos], 0xE7), (.directPage .x, only [.nmos], 0xF7),
    (.absolute .none, only [.nmos], 0xEF), (.absolute .x, only [.nmos], 0xFF),
    (.absolute .y, only [.nmos], 0xFB), (.dpIndirect .x, only [.nmos], 0xE3),
    (.dpIndirect .y, only [.nmos], 0xF3)]),
  (.las, [(.absolute .y, only [.nmos], 0xBB)]),
  (.lax, [(.directPage .none, only [.nmos], 0xA7), (.directPage .y, only [.nmos], 0xB7),
    (.absolute .none, only [.nmos], 0xAF), (.absolute .y, only [.nmos], 0xBF),
    (.dpIndirect .x, only [.nmos], 0xA3), (.dpIndirect .y, only [.nmos], 0xB3)]),
  (.lxa, [(.noMemory .immediate, only [.nmos], 0xAB)]),
  (.rla, [(.directPage .none, only [.nmos], 0x27), (.directPage .x, only [.nmos], 0x37),
    (.absolute .none, only [.nmos], 0x2F), (.absolute .x, only [.nmos], 0x3F),
    (.absolute .y, only [.nmos], 0x3B), (.dpIndirect .x, only [.nmos], 0x23),
    (.dpIndirect .y, only [.nmos], 0x33)]),
  (.rra, [(.directPage .none, only [.nmos], 0x67), (.directPage .x, only [.nmos], 0x77),
    (.absolute .none, only [.nmos], 0x6F), (.absolute .x, only [.nmos], 0x7F),
    (.absolute .y, only [.nmos], 0x7B), (.dpIndirect .x, only [.nmos], 0x63),
    (.dpIndirect .y, only [.nmos], 0x73)]),
  (.sax, [(.directPage .none, only [.nmos], 0x87), (.directPage .y, only [.nmos], 0x97),
    (.absolute .none, only [.nmos], 0x8F), (.dpIndirect .x, only [.nmos], 0x83)]),
  (.sbx, [(.noMemory .immediate, only [.nmos], 0xCB)]),
  (.sha, [(.absolute .y, only [.nmos], 0x9F), (.dpIndirect .y, only [.nmos], 0x93)]),
  (.shx, [(.absolute .y, only [.nmos], 0x9E)]),
  (.shy, [(.absolute .x, only [.nmos], 0x9C)]),
  (.slo, [(.directPage .none, only [.nmos], 0x07), (.directPage .x, only [.nmos], 0x17),
    (.absolute .none, only [.nmos], 0x0F), (.absolute .x, only [.nmos], 0x1F),
    (.absolute .y, only [.nmos], 0x1B), (.dpIndirect .x, only [.nmos], 0x03),
    (.dpIndirect .y, only [.nmos], 0x13)]),
  (.sre, [(.directPage .none, only [.nmos], 0x47), (.directPage .x, only [.nmos], 0x57),
    (.absolute .none, only [.nmos], 0x4F), (.absolute .x, only [.nmos], 0x5F),
    (.absolute .y, only [.nmos], 0x5B), (.dpIndirect .x, only [.nmos], 0x43),
    (.dpIndirect .y, only [.nmos], 0x53)]),
  (.tas, [(.absolute .y, only [.nmos], 0x9B)]),
  (.usbc, [(.noMemory .immediate, only [.nmos], 0xEB)]),
  (.jam, [(.jam, only [.nmos], 0x02), (.jam, only [.nmos], 0x12), (.jam, only [.nmos], 0x22),
    (.jam, only [.nmos], 0x32), (.jam, only [.nmos], 0x42), (.jam, only [.nmos], 0x52),
    (.jam, only [.nmos], 0x62), (.jam, only [.nmos], 0x72), (.jam, only [.nmos], 0x92),
    (.jam, only [.nmos], 0xB2), (.jam, only [.nmos], 0xD2), (.jam, only [.nmos], 0xF2)]),
  (.bra, [(.branch .relative, cmos, 0x80)]),
  (.phx, [(.stack, cmos, 0xDA)]),
  (.phy, [(.stack, cmos, 0x5A)]),
  (.plx, [(.stack, cmos, 0xFA)]),
  (.ply, [(.stack, cmos, 0x7A)]),
  (.stz, [(.directPage .none, cmos, 0x64), (.directPage .x, cmos, 0x74),
    (.absolute .none, cmos, 0x9C), (.absolute .x, cmos, 0x9E)]),
  (.trb, [(.directPage .none, cmos, 0x14), (.absolute .none, cmos, 0x1C)]),
  (.tsb, [(.directPage .none, cmos, 0x04), (.absolute .none, cmos, 0x0C)]),
  (.stp, [(.noMemory .implied, only [.wdc65c02], 0xDB)]),
  (.wai, [(.noMemory .implied, only [.wdc65c02], 0xCB)]),
  (.bbr0, [(.branch .dpRelative, bitOps, 0x0F)]),
  (.bbr1, [(.branch .dpRelative, bitOps, 0x1F)]),
  (.bbr2, [(.branch .dpRelative, bitOps, 0x2F)]),
  (.bbr3, [(.branch .dpRelative, bitOps, 0x3F)]),
  (.bbr4, [(.branch .dpRelative, bitOps, 0x4F)]),
  (.bbr5, [(.branch .dpRelative, bitOps, 0x5F)]),
  (.bbr6, [(.branch .dpRelative, bitOps, 0x6F)]),
  (.bbr7, [(.branch .dpRelative, bitOps, 0x7F)]),
  (.bbs0, [(.branch .dpRelative, bitOps, 0x8F)]),
  (.bbs1, [(.branch .dpRelative, bitOps, 0x9F)]),
  (.bbs2, [(.branch .dpRelative, bitOps, 0xAF)]),
  (.bbs3, [(.branch .dpRelative, bitOps, 0xBF)]),
  (.bbs4, [(.branch .dpRelative, bitOps, 0xCF)]),
  (.bbs5, [(.branch .dpRelative, bitOps, 0xDF)]),
  (.bbs6, [(.branch .dpRelative, bitOps, 0xEF)]),
  (.bbs7, [(.branch .dpRelative, bitOps, 0xFF)]),
  (.rmb0, [(.directPage .none, bitOps, 0x07)]),
  (.rmb1, [(.directPage .none, bitOps, 0x17)]),
  (.rmb2, [(.directPage .none, bitOps, 0x27)]),
  (.rmb3, [(.directPage .none, bitOps, 0x37)]),
  (.rmb4, [(.directPage .none, bitOps, 0x47)]),
  (.rmb5, [(.directPage .none, bitOps, 0x57)]),
  (.rmb6, [(.directPage .none, bitOps, 0x67)]),
  (.rmb7, [(.directPage .none, bitOps, 0x77)]),
  (.smb0, [(.directPage .none, bitOps, 0x87)]),
  (.smb1, [(.directPage .none, bitOps, 0x97)]),
  (.smb2, [(.directPage .none, bitOps, 0xA7)]),
  (.smb3, [(.directPage .none, bitOps, 0xB7)]),
  (.smb4, [(.directPage .none, bitOps, 0xC7)]),
  (.smb5, [(.directPage .none, bitOps, 0xD7)]),
  (.smb6, [(.directPage .none, bitOps, 0xE7)]),
  (.smb7, [(.directPage .none, bitOps, 0xF7)])
]

def entries : List Entry :=
  definitions.flatMap fun (mnemonic, modes) =>
    modes.map fun (mode, filter, code) => ⟨⟨mnemonic, mode, mnemonic.action⟩, filter, code⟩

/-- What a slot of a table holds before it is filled. -/
def Instruction.undefined : Instruction := ⟨.undefined, .noMemory .implied, .read⟩

/-- The slot `op` of a table: the entries are written into it in turn. -/
def OpcodeTable.decode (table : OpcodeTable) (op : U8) : Instruction :=
  entries.foldl
    (fun slot e => if e.code == op.toNat && e.filter.includes table then e.instruction else slot)
    .undefined

/-- `Instruction::from_byte` -/
def Instruction.fromByte (op : U8) (table : OpcodeTable) : Instruction := table.decode op

end Rs65x
