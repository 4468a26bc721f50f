import Rs65x.Bus

/-!
# The RAM bus, as a host sets it up
-/

namespace Rs65x.SimpleBus
open Words

def new : SimpleBus := ⟨fun _ => 0⟩

/-- Load bytes into RAM starting at `origin`, wrapping within the 16-bit space. -/
def load (bus : SimpleBus) (origin : U16) (bytes : List U8) : SimpleBus :=
  bytes.zipIdx.foldl
    (fun bus byte => ⟨Function.update bus.ram (origin + BitVec.ofNat 16 byte.2) byte.1⟩) bus

def withProgram (origin : U16) (bytes : List U8) : SimpleBus := new.load origin bytes

def writeVector (bus : SimpleBus) (base addr : U16) : SimpleBus :=
  ⟨Function.update (Function.update bus.ram base (loByte addr)) (base + 1) (hiByte addr)⟩

def setResetVector (bus : SimpleBus) (addr : U16) : SimpleBus := bus.writeVector 0xFFFC addr

end Rs65x.SimpleBus
