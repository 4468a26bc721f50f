import Rs65x.Alu

/-!
# Metadata shared by the cores
-/

namespace Rs65x

inductive MemoryAction where
  /-- Memory is read only, or nothing happens. -/
  | read
  | write
  | readModifyWrite
  deriving DecidableEq, Repr

inductive NoMemType where
  | implied | immediate
  deriving DecidableEq, Repr

inductive OffsetType where
  | none | x | y
  deriving DecidableEq, Repr

inductive JumpType where
  | jmpAbsolute | jmpIndirect | jmpIndirectLong | jmpAbsoluteX
  | toSubroutine | fromSubroutine | fromInterrupt
  deriving DecidableEq, Repr

inductive BranchType where
  | relative | dpRelative | relativeLong
  deriving DecidableEq, Repr

inductive InterruptType where
  | nmi | irq | reset | brk
  deriving DecidableEq, Repr

inductive AddressMode where
  | noMemory (type : NoMemType)
  | stack
  | directPage (offset : OffsetType)
  | absolute (offset : OffsetType)
  | dpIndirect (offset : OffsetType)
  | jump (type : JumpType)
  | branch (type : BranchType)
  | jam
  -- 16-bit instructions
  | absoluteLong (offset : OffsetType)
  | dpIndirectLong (offset : OffsetType)
  | blockMove
  | stackRelative (offset : OffsetType)
  /-- A 65C02 no-op of so many bytes and cycles. -/
  | cmosNop (bytes cycles : Nat)
  | interrupt (type : InterruptType)
  deriving DecidableEq, Repr

/-- The internal latches other than the data latch. -/
inductive Latch where
  | none
  | constant (c : U16)
  | pc | pcLo | pcHi
  | sp
  | ea | eaLo | eaHi
  | op0
  | ptr | ptrLo | ptrHi
  | status
  | brkStatus
  | signedOffset8
  deriving DecidableEq, Repr

end Rs65x
