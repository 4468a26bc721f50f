import Rs65x.Alu
import Rs65x.Lib.Words

/-!
# The bus trait

The input lines reach the core as an argument of `step`: `Bus::sample_lines` takes no part in the
accesses, and what it returns in a cycle is up to the host.
-/

namespace Rs65x

/-- The lines that the 8-bit cores look at. -/
structure Lines where
  irq : Bool
  nmi : Bool
  rdy : Bool
  deriving DecidableEq, Repr

def Lines.none : Lines := ⟨false, false, true⟩

class Bus (β : Type) where
  /-- `read addr vda vpa` -/
  read : β → U32 → Bool → Bool → U8 × β
  /-- `write addr data vda vpa` -/
  write : β → U32 → U8 → Bool → Bool → β

structure SimpleBus where
  ram : U16 → U8

instance : Bus SimpleBus where
  read bus addr _ _ := (bus.ram (addr.setWidth 16), bus)
  write bus addr data _ _ := ⟨Function.update bus.ram (addr.setWidth 16) data⟩

/-- One call of `Bus::read` or `Bus::write`, with the data it moved. -/
inductive Access where
  | read (addr : U32) (vda vpa : Bool) (data : U8)
  | write (addr : U32) (data : U8) (vda vpa : Bool)
  deriving DecidableEq, Repr

namespace Access

def addr : Access → U32
  | read addr .. => addr
  | write addr .. => addr

def isRead : Access → Bool
  | read .. => true
  | write .. => false

end Access

/-- A bus that writes down every call it passes on, the oldest first. -/
structure Recorder (β : Type) where
  bus : β
  log : List Access

instance {β : Type} [Bus β] : Bus (Recorder β) where
  read r addr vda vpa :=
    let (data, bus) := Bus.read r.bus addr vda vpa
    (data, ⟨bus, r.log ++ [.read addr vda vpa data]⟩)
  write r addr data vda vpa :=
    ⟨Bus.write r.bus addr data vda vpa, r.log ++ [.write addr data vda vpa]⟩

end Rs65x
