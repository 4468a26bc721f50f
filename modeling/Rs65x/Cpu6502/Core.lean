import Rs65x.Isa.Op

/-!
# The 8-bit cores
-/

namespace Rs65x

structure Cpu6502 where
  a : U8
  x : U8
  y : U8
  s : U8
  p : U8
  pc : U16
  ucycs : UcycQueue
  scratch : MicroExecutor
  currentInst : Option Instruction
  currentOpcode : U8
  extraAdcSbcCycle : Bool
  prevNmi : Bool
  pendingNmi : Bool
  oldI : Option Bool
  deriving DecidableEq

/-- The exit that a call of `step` takes. The source returns nothing. -/
inductive StepExit where
  /-- RDY is low in a read cycle. -/
  | stalled
  | ucyc
  /-- The cycle that the CMOS cores insert after a decimal ADC or SBC. -/
  | extraCycle
  | interrupt (type : InterruptType)
  | opcodeFetch
  deriving DecidableEq, Repr

namespace Cpu6502

def new : Cpu6502 where
  a := 0
  x := 0
  y := 0
  s := 0xFD
  p := Psr.I ||| Psr.U6502
  pc := 0
  ucycs := .default
  scratch := .new
  currentInst := none
  currentOpcode := 0
  extraAdcSbcCycle := false
  prevNmi := false
  pendingNmi := false
  oldI := none

section Bus
variable {β : Type} [Bus β]

def read16 (bus : β) (addr : U16) : U16 × β :=
  let (lo, bus) := Bus.read bus (addr.setWidth 32) true false
  let (hi, bus) := Bus.read bus ((addr + 1).setWidth 32) true false
  (Words.fromLeBytes lo hi, bus)

def reset (cpu : Cpu6502) (bus : β) : Cpu6502 × β :=
  let (pc, bus) := read16 bus 0xFFFC
  ({ cpu with
    p := cpu.p ||| Psr.I
    pc
    ucycs := cpu.ucycs.clear
    scratch := .new
    currentInst := none
    currentOpcode := 0 }, bus)

def fetchOpcode (cpu : Cpu6502) (bus : β) : U8 × Cpu6502 × β :=
  let (opcode, bus) := Bus.read bus (cpu.pc.setWidth 32) false true
  (opcode, { cpu with pc := cpu.pc + 1 }, bus)

end Bus

section
variable (F : Flavor) (prof : Profile)

def decodeContext (action : MemoryAction) (opcode : U8) : DecodeContext where
  action
  modifyRead := !F.rmwDummyWrite
  opcode

def prepareInstruction (cpu : Cpu6502) (opcode : U8) : Except Fault Cpu6502 := do
  let instruction := Instruction.fromByte opcode F.opcodeTable
  let us ← instruction.addressMode.emitUcycs prof F.micro
    (decodeContext F instruction.memoryAction opcode)
  return { cpu with
    currentOpcode := opcode
    currentInst := some instruction
    scratch := { MicroExecutor.new with memoryAction := instruction.memoryAction }
    ucycs := ← cpu.ucycs.pushAll us }

def applyFlags (cpu : Cpu6502) (result : Alu.AluResult U8) : U8 × Cpu6502 :=
  let (value, p) := result.apply cpu.p
  (value, { cpu with p })

def setFlag (cpu : Cpu6502) (mask : U8) (value : Bool) : Cpu6502 :=
  { cpu with p := Alu.setFlag cpu.p mask value }

/-- `self.a = self.apply_flags(result)` -/
def loadA (cpu : Cpu6502) (result : Alu.AluResult U8) : Cpu6502 :=
  let (a, cpu) := cpu.applyFlags result
  { cpu with a }

/-- `self.x = self.apply_flags(result)` -/
def loadX (cpu : Cpu6502) (result : Alu.AluResult U8) : Cpu6502 :=
  let (x, cpu) := cpu.applyFlags result
  { cpu with x }

/-- `self.y = self.apply_flags(result)` -/
def loadY (cpu : Cpu6502) (result : Alu.AluResult U8) : Cpu6502 :=
  let (y, cpu) := cpu.applyFlags result
  { cpu with y }

/-- The arm of `Cmp`, `Cpx` and `Cpy`. -/
def compare (cpu : Cpu6502) (byte read : U8) : Cpu6502 :=
  (cpu.applyFlags (Alu.zn (byte - read))).2.setFlag Psr.C (byte ≥ read)

/-- The magic constant of ANE and LXA. -/
def magic : U8 := 0xEE

open Alu in
/-- The arm of `Arr`. -/
def arr (cpu : Cpu6502) (read : U8) : Cpu6502 :=
  let decimalMode := flagSet cpu.p Psr.D && F.decimal = .nmos6502
  let carry := flagSet cpu.p Psr.C
  let anded := cpu.a &&& read
  let (result, cpu) := cpu.applyFlags (ror anded carry)
  if !decimalMode then
    let c := result &&& 0x40 != 0
    let v := ((result >>> 6) ^^^ (result >>> 5)) &&& 1 != 0
    ({ cpu with a := result }.setFlag Psr.C c).setFlag Psr.V v
  else
    let ah := anded >>> 4
    let al := anded &&& 0x0F
    let v := (anded ^^^ result) &&& 0x40 != 0
    let cpu := (cpu.setFlag Psr.N carry).setFlag Psr.V v
    -- Decimal fixup for low nibble: if AL + (AL & 1) > 5 then add 6 to low nibble.
    let a := if al + (al &&& 1) > 5 then (result &&& 0xF0) ||| ((result + 6) &&& 0x0F) else result
    let highCond : Bool := ah + (ah &&& 1) > 5
    let a := if highCond then a + 0x60 else a
    { cpu with a }.setFlag Psr.C highCond

open Alu in
def finishRead (cpu : Cpu6502) (op : Mnemonic) : Except Fault Cpu6502 := do
  let read := cpu.scratch.op0
  match op with
  | .lda | .pla => return cpu.loadA (zn read)
  | .ldx | .plx => return cpu.loadX (zn read)
  | .ldy | .ply => return cpu.loadY (zn read)
  | .and => return cpu.loadA (zn (cpu.a &&& read))
  | .eor => return cpu.loadA (zn (cpu.a ^^^ read))
  | .ora => return cpu.loadA (zn (cpu.a ||| read))
  | .adc => return cpu.loadA (← adc prof cpu.a read cpu.p F.decimal)
  | .sbc | .usbc => return cpu.loadA (← sbc prof cpu.a read cpu.p F.decimal)
  | .cmp => return cpu.compare cpu.a read
  | .cpx => return cpu.compare cpu.x read
  | .cpy => return cpu.compare cpu.y read
  | .plp => return { cpu with
      oldI := some (flagSet cpu.p Psr.I)
      p := (read ||| Psr.U6502) &&& ~~~Psr.B6502 }
  | .bit =>
      match cpu.currentInst with
      | none => throw .unwrapNone
      | some inst =>
          if inst.addressMode = .noMemory .immediate then
            return cpu.setFlag Psr.Z (cpu.a &&& read == 0)
          else
            let status := cpu.p &&& ~~~(Psr.Z ||| Psr.N ||| Psr.V)
            let z := if cpu.a &&& read == 0 then Psr.Z else 0
            return { cpu with p := status ||| z ||| (read &&& 0xC0) }
  | .anc =>
      let cpu := cpu.loadA (zn (cpu.a &&& read))
      return cpu.setFlag Psr.C (cpu.a &&& 0x80 != 0)
  | .alr =>
      let cpu := cpu.loadA (zn (cpu.a &&& read))
      return cpu.loadA (lsr cpu.a)
  | .arr => return cpu.arr F read
  | .ane => return cpu.loadA (zn ((cpu.a ||| magic) &&& cpu.x &&& read))
  | .lxa =>
      let cpu := cpu.loadA (zn ((cpu.a ||| magic) &&& read))
      return { cpu with x := cpu.a }
  | .lax => return { cpu.loadA (zn read) with x := read }
  | .las =>
      let (result, cpu) := cpu.applyFlags (zn (read &&& cpu.s))
      return { cpu with a := result, x := result, s := result }
  | .sbx =>
      let result := cpu.a &&& cpu.x
      return (cpu.loadX (zn (result - read))).setFlag Psr.C (result ≥ read)
  -- on CMOS chips, interrupts clear the decimal flag!
  | .brk => return if F.decimal = .cmos65C02 then cpu.setFlag Psr.D false else cpu
  | _ => return cpu

open Alu in
def finishImplied (cpu : Cpu6502) (op : Mnemonic) : Cpu6502 :=
  match op with
  | .asl => cpu.loadA (asl cpu.a)
  | .lsr => cpu.loadA (lsr cpu.a)
  | .rol => cpu.loadA (rol cpu.a (flagSet cpu.p Psr.C))
  | .ror => cpu.loadA (ror cpu.a (flagSet cpu.p Psr.C))
  | .clc => cpu.setFlag Psr.C false
  | .cld => cpu.setFlag Psr.D false
  | .cli => { cpu with oldI := some (flagSet cpu.p Psr.I) }.setFlag Psr.I false
  | .sei => { cpu with oldI := some (flagSet cpu.p Psr.I) }.setFlag Psr.I true
  | .clv => cpu.setFlag Psr.V false
  | .sec => cpu.setFlag Psr.C true
  | .sed => cpu.setFlag Psr.D true
  | .dec => cpu.loadA (zn (cpu.a - 1))
  | .dex => cpu.loadX (zn (cpu.x - 1))
  | .dey => cpu.loadY (zn (cpu.y - 1))
  | .inc => cpu.loadA (zn (cpu.a + 1))
  | .inx => cpu.loadX (zn (cpu.x + 1))
  | .iny => cpu.loadY (zn (cpu.y + 1))
  | .tax => cpu.loadX (zn cpu.a)
  | .tay => cpu.loadY (zn cpu.a)
  | .tsx => cpu.loadX (zn cpu.s)
  | .txa => cpu.loadA (zn cpu.x)
  | .tya => cpu.loadA (zn cpu.y)
  | .txs => { cpu with s := cpu.x }
  | _ => cpu

def nextCycleRead (cpu : Cpu6502) : Bool :=
  match cpu.ucycs.front with
  | none => true
  | some thisCycle => cpu.currentInst.isNone || thisCycle.bus.read

/-- NMI detection, which happens even if RDY is low. -/
def sampleNmi (cpu : Cpu6502) (lines : Lines) : Cpu6502 :=
  { cpu with
    pendingNmi := if lines.nmi && !cpu.prevNmi then true else cpu.pendingNmi
    prevNmi := lines.nmi }

/-- The state changes required by an instruction whose last micro-op has been executed. -/
def finishInstruction (cpu : Cpu6502) (instruction : Instruction) : Except Fault Cpu6502 := do
  let cpu ← if instruction.memoryAction = .read then cpu.finishRead F prof instruction.mnemonic
    else pure cpu
  match instruction.addressMode with
  | .noMemory .implied => return cpu.finishImplied instruction.mnemonic
  | .interrupt .brk => return cpu.setFlag Psr.I true
  | _ => return cpu

/-- `adc_sbc_extra_cycle` -/
def adcSbcExtraCycle (cpu : Cpu6502) (instruction : Instruction) : Bool :=
  (instruction.mnemonic = .adc || instruction.mnemonic = .sbc) && F.decimal = .cmos65C02 &&
    flagSet cpu.p Psr.D && !cpu.extraAdcSbcCycle

/-- The address that the inserted cycle reads. -/
def extraCycleAddr (cpu : Cpu6502) (instruction : Instruction) : Except Fault U32 :=
  match instruction.addressMode with
  | .noMemory _ =>
      match instruction.mnemonic with
      | .adc => .ok F.decimalAdcImmediateRead
      | .sbc => .ok 0x00
      | _ => .error .unreachable
  | _ => .ok cpu.scratch.ea

def toCtx (cpu : Cpu6502) (instruction : Instruction) : MicroCtx6502 where
  pc := cpu.pc
  sp := cpu.s
  status := cpu.p
  a := cpu.a
  x := cpu.x
  y := cpu.y
  instruction
  opcode := cpu.currentOpcode

/-- What the executor borrowed, with the queue, is written back. -/
def restore {β : Type} (cpu : Cpu6502) (e : Exec β) (ucycs : UcycQueue) : Cpu6502 :=
  { cpu with
    pc := e.ctx.pc
    s := e.ctx.sp
    p := e.ctx.status
    a := e.ctx.a
    x := e.ctx.x
    y := e.ctx.y
    scratch := e.scratch
    ucycs }

variable {β : Type} [Bus β]

def startInterrupt (cpu : Cpu6502) (bus : β) (intType : InterruptType) :
    Except Fault (Cpu6502 × β) := do
  let instruction := Instruction.fromByte 0 F.opcodeTable
  let cpu := { cpu with
    currentOpcode := 0 -- BRK used for all interrupts, interestingly
    currentInst := some instruction
    scratch := { MicroExecutor.new with memoryAction := instruction.memoryAction } }
  let us ← F.micro.emitInt (decodeContext F instruction.memoryAction 0) intType
  let ucycs ← cpu.ucycs.pushAll us
  let (_, e, ucycs) ← Exec.executeNext F prof ⟨cpu.scratch, cpu.toCtx instruction, bus⟩ ucycs
  return (cpu.restore e ucycs, e.bus)

def fetchInstruction (cpu : Cpu6502) (bus : β) : Except Fault (Cpu6502 × β) := do
  let (opcode, cpu, bus) := cpu.fetchOpcode bus
  return (← cpu.prepareInstruction F prof opcode, bus)

/-- The branch of `step` in which the instruction is over. -/
def boundary (cpu : Cpu6502) (instruction : Instruction) (lines : Lines) (bus : β) :
    Except Fault (StepExit × Cpu6502 × β) := do
  if instruction.memoryAction = .read && cpu.adcSbcExtraCycle F instruction then
    let addr ← cpu.extraCycleAddr F instruction
    let (_, bus) := Bus.read bus addr false true
    return (.extraCycle, { cpu with extraAdcSbcCycle := true }, bus)
  let irqDisable := cpu.oldI.getD (flagSet cpu.p Psr.I)
  let cpu := { cpu with extraAdcSbcCycle := false, oldI := none }
  if cpu.pendingNmi then
    let (cpu, bus) ← { cpu with pendingNmi := false }.startInterrupt F prof bus .nmi
    return (.interrupt .nmi, cpu, bus)
  else if lines.irq && !irqDisable then
    let (cpu, bus) ← cpu.startInterrupt F prof bus .irq
    return (.interrupt .irq, cpu, bus)
  else
    let (cpu, bus) ← cpu.fetchInstruction F prof bus
    return (.opcodeFetch, cpu, bus)

/-- One cycle; `lines` is what `bus.sample_lines()` returns in it. -/
def step (cpu : Cpu6502) (lines : Lines) (bus : β) : Except Fault (StepExit × Cpu6502 × β) := do
  let cpu := cpu.sampleNmi lines
  if !lines.rdy && cpu.nextCycleRead then
    return (.stalled, cpu, bus)
  match cpu.currentInst with
  | none =>
      let (cpu, bus) ← cpu.fetchInstruction F prof bus
      return (.opcodeFetch, cpu, bus)
  | some instruction =>
      let (result, e, ucycs) ←
        Exec.executeNext F prof ⟨cpu.scratch, cpu.toCtx instruction, bus⟩ cpu.ucycs
      let cpu := cpu.restore e ucycs
      match result with
      | .pending =>
          if cpu.ucycs.isEmpty then
            return (.ucyc, ← cpu.finishInstruction F prof instruction, e.bus)
          else return (.ucyc, cpu, e.bus)
      | .doOpcodeFetch => cpu.boundary F prof instruction lines e.bus

end

end Cpu6502

end Rs65x
