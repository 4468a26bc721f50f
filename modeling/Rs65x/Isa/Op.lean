import Rs65x.Bus
import Rs65x.Cpu6502.Flavor

/-!
# The micro-op executor

`MicroContext` is a trait of the source with one implementor, `MicroCtx6502`. Both are here one
type: the fields of the core that the executor may change, copied in and back.
-/

namespace Rs65x

structure MicroExecutor where
  dataLatch : U8
  ea : U32
  ptr : U16
  op0 : U8
  signedOffset8 : U8
  memoryAction : MemoryAction
  deriving DecidableEq, Repr

def MicroExecutor.new : MicroExecutor := ⟨0, 0x7F, 0, 0, 0, .read⟩

inductive StepResult where
  | pending | doOpcodeFetch
  deriving DecidableEq, Repr

structure MicroCtx6502 where
  pc : U16
  sp : U8
  status : U8
  a : U8
  x : U8
  y : U8
  instruction : Instruction
  opcode : U8
  deriving DecidableEq, Repr

namespace MicroCtx6502

def setPcHi (ctx : MicroCtx6502) (value : U8) : MicroCtx6502 :=
  { ctx with pc := (ctx.pc &&& 0x00FF) ||| (value.setWidth 16 <<< 8) }

def setPcLo (ctx : MicroCtx6502) (value : U8) : MicroCtx6502 :=
  { ctx with pc := (ctx.pc &&& 0xFF00) ||| value.setWidth 16 }

def setStatus (ctx : MicroCtx6502) (value : U8) : MicroCtx6502 :=
  { ctx with status := (value ||| Psr.U6502) &&& ~~~Psr.B6502 }

def regX (ctx : MicroCtx6502) : U16 := ctx.x.setWidth 16
def regY (ctx : MicroCtx6502) : U16 := ctx.y.setWidth 16

def stackBase : U16 := 0x0100

/-- The `match` on an `OffsetType` that `execute_next` makes in two places. -/
def offset (ctx : MicroCtx6502) : OffsetType → U16
  | .none => 0
  | .x => ctx.regX
  | .y => ctx.regY

def bitIndexRmb (op : U8) : Option U8 :=
  if op &&& 0x0F = 7 then
    let high := op >>> 4
    if high < 8 then some high else none
  else none

def bitIndexSmb (op : U8) : Option U8 :=
  if op &&& 0x0F = 7 then
    let high := op >>> 4
    if high > 7 then some (high - 8) else none
  else none

def branchBitInfo (op : U8) : Option (U8 × Bool) :=
  if op &&& 0xF ≠ 0xF then none
  else
    let high := op >>> 4
    some (high % 8, high / 8 > 0)

end MicroCtx6502

/-- Necessary for SHA, TAS, SHX, SHY. Returns the new `ea` and the value. -/
def hPlusOneNonsense (ea : U32) (a offset opReg : U8) : U32 × U8 :=
  let effLo : U8 := ea.setWidth 8
  let wrapped : Bool := effLo < offset
  let effHi : U8 := (ea >>> 8).setWidth 8 - (if wrapped then 1 else 0)
  let value := a &&& opReg &&& (effHi + 1)
  let storeHi := if wrapped then value else effHi
  let targetAddr : U16 := (storeHi.setWidth 16 <<< 8) ||| effLo.setWidth 16
  (targetAddr.setWidth 32, value)

namespace MicroCtx6502

def aluPrepareStore (ctx : MicroCtx6502) (scratch : MicroExecutor) :
    MicroCtx6502 × MicroExecutor :=
  if scratch.memoryAction = .readModifyWrite then (ctx, { scratch with dataLatch := scratch.op0 })
  else
    let store (data : U8) : MicroCtx6502 × MicroExecutor := (ctx, { scratch with dataLatch := data })
    let unstable (a offset opReg : U8) : MicroExecutor :=
      let (ea, dataLatch) := hPlusOneNonsense scratch.ea a offset opReg
      { scratch with ea, dataLatch }
    match ctx.instruction.mnemonic with
    | .sta | .pha => store ctx.a
    | .stx | .phx => store ctx.x
    | .sty | .phy => store ctx.y
    | .stz => store 0
    | .php => store (ctx.status ||| Psr.B6502)
    | .sax => store (ctx.a &&& ctx.x)
    | .sha => (ctx, unstable ctx.a ctx.y ctx.x)
    | .tas => ({ ctx with sp := ctx.a &&& ctx.x }, unstable ctx.a ctx.y ctx.x)
    | .shy => (ctx, unstable 0xFF ctx.x ctx.y)
    | .shx => (ctx, unstable 0xFF ctx.y ctx.x)
    | _ => (ctx, scratch)

open Alu in
/-- `F.decimal` is the only constant of the flavor that matters here. -/
def aluModify (F : Flavor) (prof : Profile) (ctx : MicroCtx6502) (scratch : MicroExecutor) :
    Except Fault (MicroCtx6502 × MicroExecutor) := do
  let op0 := scratch.op0
  let carry := flagSet ctx.status Psr.C
  -- the result becomes op0, its flags go to the status
  let store (r : AluResult U8) : MicroCtx6502 × MicroExecutor :=
    let (op0, status) := r.apply ctx.status
    ({ ctx with status }, { scratch with op0 })
  -- a second result on the status that the first one left becomes A
  let thenA (r : AluResult U8) (second : U8 → U8 → Except Fault (AluResult U8)) :
      Except Fault (MicroCtx6502 × MicroExecutor) := do
    let (op0, status) := r.apply ctx.status
    let (a, status) := (← second op0 status).apply status
    return ({ ctx with a, status }, { scratch with op0 })
  match ctx.instruction.mnemonic with
  | .asl => return store (asl op0)
  | .lsr => return store (lsr op0)
  | .rol => return store (rol op0 carry)
  | .ror => return store (ror op0 carry)
  | .inc => return store (← Alu.inc prof op0)
  | .dec => return store (Alu.dec op0)
  | .tsb => return store (tsb ctx.a op0)
  | .trb => return store (trb ctx.a op0)
  | .slo => thenA (asl op0) fun op0 _ => .ok (zn (ctx.a ||| op0))
  | .rla => thenA (rol op0 carry) fun op0 _ => .ok (zn (ctx.a &&& op0))
  | .sre => thenA (lsr op0) fun op0 _ => .ok (zn (ctx.a ^^^ op0))
  | .rra => thenA (ror op0 carry) fun op0 status => adc prof ctx.a op0 status F.decimal
  | .dcp =>
      let result := op0 - 1
      let (_, status) := (zn (ctx.a - result)).apply ctx.status
      return ({ ctx with status := setFlag status Psr.C (ctx.a ≥ result) },
        { scratch with op0 := result })
  | .isc =>
      let op0 := op0 + 1
      let (a, status) := (← sbc prof ctx.a op0 ctx.status F.decimal).apply ctx.status
      return ({ ctx with a, status }, { scratch with op0 })
  | _ =>
      match bitIndexRmb ctx.opcode with
      | some bit => return (ctx, { scratch with op0 := op0 &&& ~~~(← plainShl prof 1 bit.toNat) })
      | none =>
          match bitIndexSmb ctx.opcode with
          | some bit => return (ctx, { scratch with op0 := op0 ||| (← plainShl prof 1 bit.toNat) })
          | none => return (ctx, scratch)

def aluBranch (prof : Profile) (ctx : MicroCtx6502) (scratch : MicroExecutor) :
    Except Fault Bool := do
  let status := ctx.status
  match ctx.instruction.mnemonic with
  | .bcc => return !flagSet status Psr.C
  | .bcs => return flagSet status Psr.C
  | .beq => return flagSet status Psr.Z
  | .bne => return !flagSet status Psr.Z
  | .bmi => return flagSet status Psr.N
  | .bpl => return !flagSet status Psr.N
  | .bvc => return !flagSet status Psr.V
  | .bvs => return flagSet status Psr.V
  | .bra => return true
  | _ =>
      match branchBitInfo ctx.opcode with
      | some (bit, expectSet) =>
          let mask ← plainShl prof 1 bit.toNat
          return flagSet scratch.op0 mask == expectSet
      | none => return false

end MicroCtx6502

namespace MicroExecutor

def addressOf (scratch : MicroExecutor) (prof : Profile) (latch : Latch) (ctx : MicroCtx6502) :
    Except Fault U32 :=
  match latch with
  | .constant c => .ok (c.setWidth 32)
  | .pc => .ok (ctx.pc.setWidth 32)
  | .sp => plainAdd prof (MicroCtx6502.stackBase.setWidth 32) (ctx.sp.setWidth 32)
  | .ea => .ok scratch.ea
  | .eaLo => .ok (scratch.ea &&& 0xFF)
  | .ptr => .ok (scratch.ptr.setWidth 32)
  | .ptrLo => .ok ((scratch.ptr &&& 0xFF).setWidth 32)
  | _ => .error .unimplemented

/-- The closure `add_lo` of `add_offset`. -/
def addLo (v o : U16) : U16 := (v &&& 0xFF00) ||| (v.setWidth 8 + o.setWidth 8 : U8).setWidth 16

/-- The closure `add_hi`; the low byte of its result is that of the context's `pc`. -/
def addHi (pc v o : U16) : U16 :=
  (((v >>> 8).setWidth 8 + o.setWidth 8 : U8).setWidth 16 <<< 8) ||| (pc &&& 0xFF)

def addOffset (scratch : MicroExecutor) (ctx : MicroCtx6502) (latch : Latch) (offset : U16) :
    Except Fault (MicroExecutor × MicroCtx6502) :=
  let pc := ctx.pc
  let eaBank := scratch.ea &&& 0xFF0000
  let ea : U16 := scratch.ea.setWidth 16
  match latch with
  | .pc => .ok (scratch, { ctx with pc := pc + offset })
  | .pcLo => .ok (scratch, { ctx with pc := addLo pc offset })
  | .pcHi => .ok (scratch, { ctx with pc := addHi pc pc offset })
  | .ea => .ok ({ scratch with ea := scratch.ea + offset.setWidth 32 }, ctx)
  | .eaLo => .ok ({ scratch with ea := eaBank ||| (addLo ea offset).setWidth 32 }, ctx)
  | .eaHi => .ok ({ scratch with ea := eaBank ||| (addHi pc ea offset).setWidth 32 }, ctx)
  | .ptr => .ok ({ scratch with ptr := scratch.ptr + offset }, ctx)
  | .ptrLo => .ok ({ scratch with ptr := addLo scratch.ptr offset }, ctx)
  | .ptrHi => .ok ({ scratch with ptr := addHi pc scratch.ptr offset }, ctx)
  | .sp => .ok (scratch, { ctx with sp := ctx.sp + offset.setWidth 8 })
  | _ => .error .unimplemented

def writeLatch (scratch : MicroExecutor) (ctx : MicroCtx6502) (latch : Latch) (value : U8) :
    MicroExecutor × MicroCtx6502 :=
  match latch with
  | .none | .constant _ => (scratch, ctx)
  | .ea => ({ scratch with ea := (scratch.ea &&& ~~~(0xFFFF : U32)) ||| value.setWidth 32 }, ctx)
  | .eaLo => ({ scratch with ea := (scratch.ea &&& ~~~(0xFF : U32)) ||| value.setWidth 32 }, ctx)
  | .eaHi => ({ scratch with ea := (scratch.ea &&& ~~~(0xFF00 : U32)) ||| (value.setWidth 32 <<< 8) }, ctx)
  | .op0 => ({ scratch with op0 := value }, ctx)
  | .ptr => ({ scratch with ptr := value.setWidth 16 }, ctx)
  | .ptrLo => ({ scratch with ptr := (scratch.ptr &&& 0xFF00) ||| value.setWidth 16 }, ctx)
  | .ptrHi => ({ scratch with ptr := (scratch.ptr &&& 0x00FF) ||| (value.setWidth 16 <<< 8) }, ctx)
  | .pc => (scratch, { ctx with pc := (ctx.pc &&& 0xFF00) ||| value.setWidth 16 })
  | .pcLo => (scratch, ctx.setPcLo value)
  | .pcHi => (scratch, ctx.setPcHi value)
  | .sp => (scratch, { ctx with sp := value })
  | .status => (scratch, ctx.setStatus value)
  | .brkStatus => (scratch, ctx.setStatus (value ||| Psr.B6502 ||| Psr.U6502))
  | .signedOffset8 => ({ scratch with signedOffset8 := value }, ctx)

def readLatch (scratch : MicroExecutor) (ctx : MicroCtx6502) (latch : Latch) : U8 :=
  match latch with
  | .none => 0
  | .constant c => c.setWidth 8
  | .ea | .eaLo => scratch.ea.setWidth 8
  | .eaHi => (scratch.ea >>> 8).setWidth 8
  | .op0 => scratch.op0
  | .ptr | .ptrLo => scratch.ptr.setWidth 8
  | .ptrHi => (scratch.ptr >>> 8).setWidth 8
  | .pc | .pcLo => ctx.pc.setWidth 8
  | .pcHi => (ctx.pc >>> 8).setWidth 8
  | .sp => ctx.sp
  | .status => ctx.status
  | .brkStatus => ctx.status ||| Psr.B6502 ||| Psr.U6502
  | .signedOffset8 => scratch.signedOffset8

end MicroExecutor

/-- What `execute_next` may change, the queue apart. -/
structure Exec (β : Type) where
  scratch : MicroExecutor
  ctx : MicroCtx6502
  bus : β

/-- `matches!(opcode, 0xDE | 0xFE)`: INC and DEC abs,X. -/
def isIncdecAbsX (opcode : U8) : Bool := opcode = 0xDE || opcode = 0xFE

namespace Exec
variable {β : Type} (F : Flavor) (prof : Profile)

/-- What `AluOp::OffsetWithExtraCycle` does before the access: the new `ea` and `fixed_addr`. -/
def offsetWithExtraCycle (e : Exec β) (offsetType : OffsetType) : U32 × Option U32 :=
  let ea : U32 := e.scratch.ea
  let offset := e.ctx.offset offsetType
  let targetEa := ea + offset.setWidth 32
  let invalid := (ea &&& ~~~(0xFF : U32)) ||| (ea.setWidth 8 + offset.setWidth 8 : U8).setWidth 32
  let pageCrossed : Bool := invalid ≠ targetEa
  let needDummyThisCycle : Bool := pageCrossed || e.scratch.memoryAction = .write ||
    (e.scratch.memoryAction = .readModifyWrite && isIncdecAbsX e.ctx.opcode)
  if needDummyThisCycle then
    (if F.invalidAddrRead then invalid else e.ctx.pc.setWidth 32 - 1, some targetEa)
  else (invalid, none)

/-- The memory access portion of a cycle. -/
def access [Bus β] (e : Exec β) (ucyc : MicroOp) (addr : U32) : Exec β :=
  if ucyc.bus.read then
    let (data, bus) := Bus.read e.bus addr ucyc.bus.vda ucyc.bus.vpa
    let (scratch, ctx) :=
      { e.scratch with dataLatch := data }.writeLatch e.ctx ucyc.localLatch data
    ⟨scratch, ctx, bus⟩
  else
    let dataLatch := if ucyc.localLatch ≠ .none then e.scratch.readLatch e.ctx ucyc.localLatch
      else e.scratch.dataLatch
    { e with
      scratch := { e.scratch with dataLatch }
      bus := Bus.write e.bus addr dataLatch ucyc.bus.vda ucyc.bus.vpa }

def addOffset (e : Exec β) (latch : Latch) (offset : U16) : Except Fault (Exec β) := do
  let (scratch, ctx) ← e.scratch.addOffset e.ctx latch offset
  return { e with scratch, ctx }

/-- The `match` on the ALU operation after the access. -/
def finishAlu (e : Exec β) (alu : AluOp) (fixedAddr : Option U32) (queue : UcycQueue) :
    Except Fault (Exec β × UcycQueue) := do
  match alu with
  | .none => return (e, queue)
  | .addOffset latch offset => return (← e.addOffset latch (e.ctx.offset offset), queue)
  | .specialAddOffset => return (← e.addOffset .ea e.ctx.regX, queue)
  | .offsetWithExtraCycle _ =>
      match fixedAddr with
      -- restore the "real" EA for the following cycles
      | some addr => return ({ e with scratch := { e.scratch with ea := addr } }, queue)
      | none =>
          if e.scratch.memoryAction = .read then return (e, queue.clear)
          else if e.scratch.memoryAction = .readModifyWrite && !F.invalidAddrRead &&
              !isIncdecAbsX e.ctx.opcode then return (e, queue.pop.2)
          else return (e, queue)
  | .incLatch latch => return (← e.addOffset latch 1, queue)
  | .decSp => return ({ e with ctx := { e.ctx with sp := e.ctx.sp - 1 } }, queue)
  | .modify =>
      let (ctx, scratch) ← e.ctx.aluModify F prof e.scratch
      return ({ e with ctx, scratch }, queue)
  | .swapEaPc =>
      return ({ e with
        ctx := { e.ctx with pc := e.scratch.ea.setWidth 16 }
        scratch := { e.scratch with ea := e.ctx.pc.setWidth 32 } }, queue)
  | .branch =>
      if ← e.ctx.aluBranch prof e.scratch then
        let newPc := e.ctx.pc + e.scratch.signedOffset8.signExtend 16
        let maybeInvalid := (e.ctx.pc &&& 0xFF00) ||| (newPc &&& 0xFF)
        if newPc ≠ maybeInvalid then
          let queue ← if e.ctx.opcode &&& 0x0F = 0x0F
            then queue.push (.read .pc .none false)
            else queue.push (.readPcSetPc maybeInvalid)
          return (e, ← queue.push (.readPcSetPc newPc))
        else return (e, ← queue.push (.readPcSetPc newPc))
      else return (e, queue.clear)
  | .setPc newPc => return ({ e with ctx := { e.ctx with pc := newPc } }, queue)
  | .jam => return (e, ← queue.decHead prof)
  | .fixPtr =>
      if e.scratch.ptr &&& 0xFF = 0 then
        let ptr ← plainAdd prof e.scratch.ptr 0x100
        return ({ e with scratch := { e.scratch with ptr } }, queue)
      else if e.ctx.opcode = 0x7C then return (e, queue.clear)
      else return (e, queue)

/-- Prepares the data to write, if any. -/
def prepareStore (e : Exec β) (ucyc : MicroOp) : Exec β :=
  if ucyc.bus.read then e
  else
    let (ctx, scratch) := e.ctx.aluPrepareStore e.scratch
    { e with ctx, scratch }

/-- The `match` on the ALU operation before the access; it returns `fixed_addr`. -/
def prepareAlu (e : Exec β) (alu : AluOp) : Exec β × Option U32 :=
  match alu with
  | .offsetWithExtraCycle offsetType =>
      let (ea, fixedAddr) := e.offsetWithExtraCycle F offsetType
      ({ e with scratch := { e.scratch with ea } }, fixedAddr)
  | _ => (e, none)

/-- `execute_next` from the `let Some(ucyc) = queue.pop()` on. -/
def execUcyc [Bus β] (e : Exec β) (ucyc : MicroOp) (queue : UcycQueue) :
    Except Fault (Exec β × UcycQueue) := do
  let (e, fixedAddr) := (e.prepareStore ucyc).prepareAlu F ucyc.alu
  let addr ← e.scratch.addressOf prof ucyc.bus.addr e.ctx
  let addr := if ucyc.alu = .specialAddOffset then addr - 1 else addr
  let e := e.access ucyc addr
  let e ← if ucyc.incSrc then e.addOffset ucyc.bus.addr 1 else pure e
  e.finishAlu F prof ucyc.alu fixedAddr queue

def executeNext [Bus β] (e : Exec β) (queue : UcycQueue) :
    Except Fault (StepResult × Exec β × UcycQueue) := do
  match queue.pop with
  | (none, queue) => return (.doOpcodeFetch, e, queue)
  | (some ucyc, queue) =>
      let (e, queue) ← e.execUcyc F prof ucyc queue
      return (.pending, e, queue)

end Exec

end Rs65x
