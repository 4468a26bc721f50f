import Rs65x.Cpu6502.Flavor
import Rs65x.Spec.Arch
import Rs65x.Spec.Modify

/-!
# The programmer's model: the documented instructions

What each of the 151 documented opcodes does while D is clear.
-/

namespace Rs65x
open Words Alu Fallible

/-- The opcodes that the NMOS 6502 documents. -/
def documentedOpcodes : List Nat := [
  0x00, 0x01, 0x05, 0x06, 0x08, 0x09, 0x0A, 0x0D, 0x0E,
  0x10, 0x11, 0x15, 0x16, 0x18, 0x19, 0x1D, 0x1E,
  0x20, 0x21, 0x24, 0x25, 0x26, 0x28, 0x29, 0x2A, 0x2C, 0x2D, 0x2E,
  0x30, 0x31, 0x35, 0x36, 0x38, 0x39, 0x3D, 0x3E,
  0x40, 0x41, 0x45, 0x46, 0x48, 0x49, 0x4A, 0x4C, 0x4D, 0x4E,
  0x50, 0x51, 0x55, 0x56, 0x58, 0x59, 0x5D, 0x5E,
  0x60, 0x61, 0x65, 0x66, 0x68, 0x69, 0x6A, 0x6C, 0x6D, 0x6E,
  0x70, 0x71, 0x75, 0x76, 0x78, 0x79, 0x7D, 0x7E,
  0x81, 0x84, 0x85, 0x86, 0x88, 0x8A, 0x8C, 0x8D, 0x8E,
  0x90, 0x91, 0x94, 0x95, 0x96, 0x98, 0x99, 0x9A, 0x9D,
  0xA0, 0xA1, 0xA2, 0xA4, 0xA5, 0xA6, 0xA8, 0xA9, 0xAA, 0xAC, 0xAD, 0xAE,
  0xB0, 0xB1, 0xB4, 0xB5, 0xB6, 0xB8, 0xB9, 0xBA, 0xBC, 0xBD, 0xBE,
  0xC0, 0xC1, 0xC4, 0xC5, 0xC6, 0xC8, 0xC9, 0xCA, 0xCC, 0xCD, 0xCE,
  0xD0, 0xD1, 0xD5, 0xD6, 0xD8, 0xD9, 0xDD, 0xDE,
  0xE0, 0xE1, 0xE4, 0xE5, 0xE6, 0xE8, 0xE9, 0xEA, 0xEC, 0xED, 0xEE,
  0xF0, 0xF1, 0xF5, 0xF6, 0xF8, 0xF9, 0xFD, 0xFE]

example : documentedOpcodes.length = 151 := rfl

def Mnemonic.taken (op : Mnemonic) (p : U8) : Bool :=
  match op with
  | .bcc => !flagSet p Psr.C
  | .bcs => flagSet p Psr.C
  | .bne => !flagSet p Psr.Z
  | .beq => flagSet p Psr.Z
  | .bpl => !flagSet p Psr.N
  | .bmi => flagSet p Psr.N
  | .bvc => !flagSet p Psr.V
  | .bvs => flagSet p Psr.V
  | _ => false

/-- The status that a byte pulled from the stack stands for. -/
def pulledStatus (value : U8) : U8 := (value ||| Psr.U6502) &&& ~~~Psr.B6502

namespace Arch

def stackAddr (sp : U8) : U16 := 0x0100 + sp.setWidth 16

variable (s : Arch)

def push (value : U8) : Arch :=
  { s with s := s.s - 1, ram := Function.update s.ram (stackAddr s.s) value }

def top : U8 := s.ram (stackAddr (s.s + 1))

def drop : Arch := { s with s := s.s + 1 }

def loadA (value : U8) : Arch := { s with a := value, p := signZero s.p value }
def loadX (value : U8) : Arch := { s with x := value, p := signZero s.p value }
def loadY (value : U8) : Arch := { s with y := value, p := signZero s.p value }

def arith (result : Except Fault (AluResult U8)) : Arch :=
  { s with a := (get result (zn s.a)).value, p := ((get result (zn s.a)).apply s.p).2 }

def read (op : Mnemonic) (value : U8) : Arch :=
  match op with
  | .lda | .pla => s.loadA value
  | .ldx => s.loadX value
  | .ldy => s.loadY value
  | .and => s.loadA (s.a &&& value)
  | .ora => s.loadA (s.a ||| value)
  | .eor => s.loadA (s.a ^^^ value)
  | .adc => s.arith (Alu.adc .release s.a value s.p .none)
  | .sbc => s.arith (Alu.sbc .release s.a value s.p .none)
  | .cmp => { s with p := compared s.p s.a value }
  | .cpx => { s with p := compared s.p s.x value }
  | .cpy => { s with p := compared s.p s.y value }
  | .bit => { s with p := (s.p &&& ~~~(Psr.Z ||| Psr.N ||| Psr.V)) |||
      (if s.a &&& value == 0 then Psr.Z else 0) ||| (value &&& 0xC0) }
  | .plp => { s with p := pulledStatus value }
  | _ => s

def implied (op : Mnemonic) : Arch :=
  match op with
  | .asl | .lsr | .rol | .ror =>
      let r := op.modify .none s.a s.p s.a
      { s with a := r.value, p := r.p }
  | .tax => s.loadX s.a
  | .tay => s.loadY s.a
  | .txa => s.loadA s.x
  | .tya => s.loadA s.y
  | .tsx => s.loadX s.s
  | .txs => { s with s := s.x }
  | .inx => s.loadX (s.x + 1)
  | .iny => s.loadY (s.y + 1)
  | .dex => s.loadX (s.x - 1)
  | .dey => s.loadY (s.y - 1)
  | .clc => { s with p := setFlag s.p Psr.C false }
  | .cld => { s with p := setFlag s.p Psr.D false }
  | .cli => { s with p := setFlag s.p Psr.I false }
  | .clv => { s with p := setFlag s.p Psr.V false }
  | .sec => { s with p := setFlag s.p Psr.C true }
  | .sed => { s with p := setFlag s.p Psr.D true }
  | .sei => { s with p := setFlag s.p Psr.I true }
  | _ => s

/-- An instruction with its operand in memory or right after the opcode. -/
def operate (i : Instruction) : Arch :=
  let addr := s.effectiveAddress i.addressMode
  match i.memoryAction with
  | .read => s.read i.mnemonic (s.ram addr)
  | .write =>
      { s with ram := Function.update s.ram addr ((i.mnemonic.stored s.a s.x s.y s.p).getD 0) }
  | .readModifyWrite =>
      let r := i.mnemonic.modify .none s.a s.p (s.ram addr)
      { s with a := r.a, p := r.p, ram := Function.update s.ram addr r.value }

def stack (op : Mnemonic) : Arch :=
  match op.stored s.a s.x s.y s.p with
  | some value => s.push value
  | none => s.drop.read op s.top

/-- The effect of an instruction. -/
def perform (i : Instruction) : Arch :=
  let following := s.pc + i.addressMode.length
  match i.addressMode with
  | .noMemory .implied => { s.implied i.mnemonic with pc := following }
  | .stack => { s.stack i.mnemonic with pc := following }
  | .branch _ =>
      let offset := if i.mnemonic.taken s.p then s.operand.signExtend 16 else 0
      { s with pc := s.pc + 2 + offset }
  | .jump .jmpAbsolute => { s with pc := word s.ram (s.pc + 1) }
  | .jump .jmpIndirect => { s with pc := word s.ram (word s.ram (s.pc + 1)) }
  | .jump .toSubroutine =>
      -- the high byte of the target is read after the pushes
      let called := (s.push (hiByte (s.pc + 2))).push (loByte (s.pc + 2))
      { called with pc := fromLeBytes s.operand (called.ram (s.pc + 2)) }
  | .jump .fromSubroutine => { s.drop.drop with pc := fromLeBytes s.top s.drop.top + 1 }
  | .jump .fromInterrupt =>
      { s.drop.drop.drop with
        p := pulledStatus s.top
        pc := fromLeBytes s.drop.top s.drop.drop.top }
  | .interrupt _ =>
      let pushed := ((s.push (hiByte (s.pc + 2))).push (loByte (s.pc + 2))).push
        (s.p ||| Psr.B6502 ||| Psr.U6502)
      { pushed with p := setFlag s.p Psr.I true, pc := word pushed.ram 0xFFFE }
  | _ => { s.operate i with pc := following }

/-- A documented opcode with D clear, but for the JMP (ind) with its pointer across a page. -/
structure Documented : Prop where
  opcode : (s.ram s.pc).toNat ∈ documentedOpcodes
  binary : flagSet s.p Psr.D = false
  pointer : s.ram s.pc = 0x6C → loByte (word s.ram (s.pc + 1)) ≠ 0xFF

def next : Arch := s.perform (Instruction.fromByte (s.ram s.pc) .nmos)

end Arch

end Rs65x
