import Rs65x.Isa.Basic

/-!
# Micro-operations, their queue and the microcode
-/

namespace Rs65x

structure BusCycle where
  addr : Latch
  vda : Bool
  vpa : Bool
  read : Bool
  deriving DecidableEq, Repr

inductive AluOp where
  | none
  | addOffset (latch : Latch) (offset : OffsetType)
  | offsetWithExtraCycle (offset : OffsetType)
  | decSp
  | modify
  | swapEaPc
  | incLatch (latch : Latch)
  | branch
  | setPc (newPc : U16)
  | jam
  | fixPtr
  | specialAddOffset
  deriving DecidableEq, Repr

structure MicroOp where
  bus : BusCycle
  incSrc : Bool
  localLatch : Latch
  alu : AluOp
  deriving DecidableEq, Repr

namespace MicroOp

def read (src dest : Latch) (incSrc : Bool) : MicroOp :=
  let vpa := src = .pc
  ⟨⟨src, !vpa, vpa, true⟩, incSrc, dest, .none⟩

def dummyRead (addr : Latch) : MicroOp := ⟨⟨addr, false, false, true⟩, false, .none, .none⟩

def push (src : Latch) : MicroOp := ⟨⟨.sp, true, false, false⟩, false, src, .decSp⟩

def readAndOffset (src : Latch) (offset : OffsetType) : MicroOp :=
  ⟨⟨src, true, false, true⟩, false, .none, .addOffset src offset⟩

def readPcSetPc (newPc : U16) : MicroOp :=
  ⟨⟨.pc, false, true, true⟩, false, .none, .setPc newPc⟩

def offsetOptFix (offset : OffsetType) : MicroOp :=
  ⟨⟨.ea, true, false, true⟩, false, .op0, .offsetWithExtraCycle offset⟩

def aluWrite : MicroOp := ⟨⟨.ea, true, false, false⟩, false, .none, .none⟩

def aluModify (read : Bool) : MicroOp := ⟨⟨.ea, true, false, read⟩, false, .none, .modify⟩

def aluPush : MicroOp := ⟨⟨.sp, true, false, false⟩, false, .none, .decSp⟩

def readPtr1 (dest : Latch) : MicroOp := ⟨⟨.ptr, true, false, true⟩, false, dest, .incLatch .ptrLo⟩

def readInvPtr2 (dest : Latch) : MicroOp := ⟨⟨.ptr, true, false, true⟩, false, dest, .fixPtr⟩

end MicroOp

/-! ## The queue -/

def maxUcyc : Nat := 14

/-- `head` and `len` are bytes of the source; both are absolute positions in `buf`. -/
structure UcycQueue where
  buf : Vector MicroOp maxUcyc
  head : Nat
  len : Nat
  deriving DecidableEq

namespace UcycQueue

def default : UcycQueue := ⟨.replicate maxUcyc (MicroOp.read .ea .none false), 0, 0⟩

def clear (q : UcycQueue) : UcycQueue := { q with head := 0, len := 0 }

def isEmpty (q : UcycQueue) : Bool := q.head = q.len

def push (q : UcycQueue) (u : MicroOp) : Except Fault UcycQueue :=
  if q.len < maxUcyc then .ok { q with buf := q.buf.setIfInBounds q.len u, len := q.len + 1 }
  else .error .queueBounds

def front (q : UcycQueue) : Option MicroOp :=
  if q.head ≥ q.len then none else q.buf[q.head]?

def pop (q : UcycQueue) : Option MicroOp × UcycQueue :=
  match q.front with
  | none => (none, q)
  | some front =>
      let q := { q with head := q.head + 1 }
      (some front, if q.head ≥ q.len then q.clear else q)

/-- `head -= 1` on a byte. -/
def retreat (prof : Profile) (q : UcycQueue) : Except Fault UcycQueue :=
  if q.head = 0 then
    match prof with
    | .debug => .error .overflow
    | .release => .ok { q with head := 255 }
  else .ok { q with head := q.head - 1 }

/-- Replaces the micro-op executed last and leaves everything after it intact. -/
def insert (prof : Profile) (q : UcycQueue) (new : MicroOp) : Except Fault UcycQueue := do
  -- `debug_assert!(self.head > 0)`
  if prof = .debug ∧ q.head = 0 then throw .queueBounds
  let q ← q.retreat prof
  if q.head < maxUcyc then return { q with buf := q.buf.setIfInBounds q.head new }
  throw .queueBounds

/-- Used by JAM: decreasing the head in each cycle makes an infinite loop. -/
def decHead (prof : Profile) (q : UcycQueue) : Except Fault UcycQueue := q.retreat prof

/-- The method `len`, on bytes. -/
def length (prof : Profile) (q : UcycQueue) : Except Fault Nat :=
  if q.len < q.head then
    match prof with
    | .debug => .error .overflow
    | .release => .ok (q.len + 256 - q.head)
  else .ok (q.len - q.head)

/-- `push` for each of the micro-ops in turn. -/
def pushAll (q : UcycQueue) (us : List MicroOp) : Except Fault UcycQueue := us.foldlM push q

end UcycQueue

/-! ## Microcode

An emitter of the source pushes its micro-ops into the queue it is handed, which is empty. Here it
returns them in the order of the pushes, and its caller hands them to `UcycQueue.pushAll`.
-/

structure DecodeContext where
  action : MemoryAction
  modifyRead : Bool
  opcode : U8

def MicroOp.finishAction (ctx : DecodeContext) : List MicroOp :=
  match ctx.action with
  | .read => [.read .ea .op0 false]
  | .write => [.aluWrite]
  | .readModifyWrite => [.read .ea .op0 false, .aluModify ctx.modifyRead, .aluWrite]

abbrev Emission := Except Fault (List MicroOp)

/-- The trait of the emitters. The fields' values are its default methods, those of the 65816. -/
structure MicroCode where
  emitImplied (_ctx : DecodeContext) : Emission := .ok [.read .pc .none false]
  emitImmediate (_ctx : DecodeContext) : Emission := .ok [.read .pc .op0 true]
  emitDp (ctx : DecodeContext) (offset : OffsetType) : Emission :=
    .ok ([.read .pc .eaLo true] ++
      (if offset ≠ .none then [.readAndOffset .eaLo offset] else []) ++
      MicroOp.finishAction ctx)
  emitAbsolute (ctx : DecodeContext) (offset : OffsetType) : Emission :=
    .ok ([.read .pc .eaLo true, .read .pc .eaHi true] ++
      (if offset ≠ .none then [.offsetOptFix offset] else []) ++
      MicroOp.finishAction ctx)
  emitDpInd (ctx : DecodeContext) (offset : OffsetType) : Emission :=
    .ok ([.read .pc .ptrLo true] ++
      -- always one cycle because DP overflows through u8, no need to fix high byte
      (if offset = .x then [.readAndOffset .ptrLo offset] else []) ++
      [.read .ptrLo .eaLo true, .read .ptrLo .eaHi false] ++
      (if offset = .y then [.offsetOptFix offset] else []) ++
      MicroOp.finishAction ctx)
  emitStack (prof : Profile) (ctx : DecodeContext) : Emission :=
    if prof = .debug ∧ ctx.action = .readModifyWrite then .error .debugAssert
    else .ok ([.read .pc .none false] ++
      (if ctx.action = .read then [.read .sp .none true, .read .sp .op0 false] else [.aluPush]))
  emitJmpabs (_ctx : DecodeContext) : Emission :=
    .ok [.read .pc .eaLo true, ⟨⟨.pc, false, true, true⟩, true, .eaHi, .swapEaPc⟩]
  emitJmpabsx (_ctx : DecodeContext) : Emission :=
    .ok [.read .pc .eaLo true, .read .pc .eaHi false,
      ⟨⟨.pc, false, true, true⟩, false, .none, .specialAddOffset⟩,
      .read .ea .pcLo true, .read .ea .pcHi false]
  emitJmpind (_ctx : DecodeContext) : Emission := .error .todo
  emitJsr (_ctx : DecodeContext) : Emission :=
    .ok [.read .pc .eaLo true, .read .pc .eaHi false,
      ⟨⟨.pc, false, false, true⟩, false, .none, .swapEaPc⟩,
      .push .eaHi, .push .eaLo]
  emitRts (_ctx : DecodeContext) : Emission :=
    .ok [.dummyRead .pc, ⟨⟨.pc, false, false, true⟩, false, .none, .incLatch .sp⟩,
      .read .sp .pcLo true, .read .sp .pcHi true, .dummyRead .sp]
  emitBranchRel (_ctx : DecodeContext) : Emission :=
    .ok [⟨⟨.pc, false, true, true⟩, true, .signedOffset8, .branch⟩]
  emitBranchDprel (_ctx : DecodeContext) : Emission :=
    .ok [.read .pc .eaLo true, .read .ea .op0 false, .read .ea .op0 false,
      ⟨⟨.pc, false, true, true⟩, true, .signedOffset8, .branch⟩]
  emitInt (_ctx : DecodeContext) (interruptType : InterruptType) : Emission := do
    let (pushed, addr) ← match interruptType with
      | .brk => .ok (Latch.brkStatus, 0xFFFE)
      | .irq => .ok (Latch.status, 0xFFFE)
      | .nmi => .ok (Latch.status, 0xFFFA)
      | .reset => .error .todo
    .ok [.read .pc .none (interruptType = .brk), .push .pcHi, .push .pcLo, .push pushed,
      .read (.constant addr) .pcLo false, .read (.constant (addr + 1)) .pcHi false]
  emitRti (_ctx : DecodeContext) : Emission :=
    .ok [.read .pc .none false, .read .sp .none true, .read .sp .status true,
      .read .sp .pcLo true, .read .sp .pcHi false]
  emitJam (_ctx : DecodeContext) : Emission := .error .unreachable
  emitCmosNop (_ctx : DecodeContext) (_bytes _cycles : Nat) : Emission := .error .unreachable

/-- `AddressMode::emit_ucycs` -/
def AddressMode.emitUcycs (prof : Profile) (m : MicroCode) (mode : AddressMode)
    (ctx : DecodeContext) : Emission :=
  match mode with
  | .noMemory .implied => m.emitImplied ctx
  | .noMemory .immediate => m.emitImmediate ctx
  | .directPage off => m.emitDp ctx off
  | .absolute off => m.emitAbsolute ctx off
  | .dpIndirect off => m.emitDpInd ctx off
  | .stack => m.emitStack prof ctx
  | .jump .jmpAbsolute => m.emitJmpabs ctx
  | .jump .jmpIndirect => m.emitJmpind ctx
  | .jump .jmpAbsoluteX => m.emitJmpabsx ctx
  | .jump .toSubroutine => m.emitJsr ctx
  | .jump .fromSubroutine => m.emitRts ctx
  | .interrupt type => m.emitInt ctx type
  | .jump .fromInterrupt => m.emitRti ctx
  | .branch .dpRelative => m.emitBranchDprel ctx
  | .branch .relative => m.emitBranchRel ctx
  | .jam => m.emitJam ctx
  | .cmosNop bytes cycles => m.emitCmosNop ctx bytes cycles
  -- 16-bit only
  | .branch .relativeLong | .absoluteLong _ | .dpIndirectLong _ | .blockMove | .stackRelative _
  | .jump .jmpIndirectLong => .error .todo

end Rs65x
