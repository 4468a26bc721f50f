import Rs65x.Cpu6502.Core
import Rs65x.Results.FastMap

/-!
# A core on a page-mapped bus

The host changes the page table, the memory and the lines between the cycles.
-/

namespace Rs65x
open Fallible Paging

/-- The bus with the memory its slices lie in. The first fault is kept, and what comes after one means
nothing. -/
structure Mapped (prof : Profile) (addrBits pageShift : Nat) where
  bus : FastMapBus addrBits pageShift
  heap : Heap
  fault : Option PageFault

namespace Mapped
variable {prof : Profile} {addrBits pageShift : Nat}

def failed (m : Mapped prof addrBits pageShift) (fault : PageFault) :
    Mapped prof addrBits pageShift :=
  { m with fault := some (m.fault.getD fault) }

instance : Bus (Mapped prof addrBits pageShift) where
  read m addr vda vpa :=
    match m.bus.read prof m.heap addr vda vpa with
    | .ok (data, bus) => (data, { m with bus })
    | .error fault => (0, m.failed fault)
  write m addr data vda vpa :=
    match m.bus.write prof m.heap addr data vda vpa with
    | .ok (heap, bus) => { m with heap, bus }
    | .error fault => m.failed fault

def host (m : Mapped prof addrBits pageShift) (call : FastMapBus.HostCall) :
    Option U8 × Mapped prof addrBits pageShift :=
  match FastMapBus.serve prof (m.bus, m.heap) call with
  | .ok (out, bus, heap) => (out, { m with bus, heap })
  | .error fault => (none, m.failed fault)

end Mapped

/-- Paged memory as a bus that decodes so many bits of an address. -/
structure PagedBus (addrBits pageShift : Nat) where
  memory : Memory Nat Nat Nat U8

namespace PagedBus
variable {addrBits pageShift : Nat}

instance : Bus (PagedBus addrBits pageShift) where
  read m addr _ _ :=
    let (data, memory) := m.memory.step
      (.read (addr.toNat % 2 ^ addrBits / 2 ^ pageShift) (addr.toNat % 2 ^ pageShift))
    (data.getD 0, ⟨memory⟩)
  write m addr data _ _ := ⟨(m.memory.step
    (.write (addr.toNat % 2 ^ addrBits / 2 ^ pageShift) (addr.toNat % 2 ^ pageShift) data)).2⟩

def host (m : PagedBus addrBits pageShift) (call : FastMapBus.HostCall) :
    Option U8 × PagedBus addrBits pageShift :=
  let (out, memory) := m.memory.step (call.paged addrBits pageShift)
  (out, ⟨memory⟩)

end PagedBus

/-- A core, its bus and the lines that the host has set on it. -/
structure Board (β : Type) where
  cpu : Cpu6502
  bus : Recorder β
  lines : Lines

inductive Event where
  | host (call : FastMapBus.HostCall)
  | setLines (lines : Lines)
  | setIrq (v : Bool)
  | setNmi (v : Bool)
  | setRdy (v : Bool)
  /-- `cpu.step(&mut bus)` -/
  | step

/-- What an event gives back to the host. -/
abbrev Answer := StepExit ⊕ Option U8

namespace Board
variable {β : Type} [Bus β]

def step (v : Variant) (prof : Profile) (host : β → FastMapBus.HostCall → Option U8 × β)
    (s : Board β) : Event → Except Fault (Answer × Board β)
  | .host call =>
      let (out, bus) := host s.bus.bus call
      .ok (.inr out, { s with bus := { s.bus with bus } })
  | .setLines lines => .ok (.inr none, { s with lines })
  | .setIrq v => .ok (.inr none, { s with lines := { s.lines with irq := v } })
  | .setNmi v => .ok (.inr none, { s with lines := { s.lines with nmi := v } })
  | .setRdy v => .ok (.inr none, { s with lines := { s.lines with rdy := v } })
  | .step => do
      let (exit, cpu, bus) ← s.cpu.step v.flavor prof s.lines s.bus
      return (.inl exit, { s with cpu, bus })

end Board

end Rs65x
