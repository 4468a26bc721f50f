import Rs65x.Bus

/-!
# The page-mapped bus

A slice that the host maps is a range of its memory. The bus holds the pointer of the slice only, so
the memory is handed to every access.
-/

namespace Rs65x

abbrev Heap := Nat → U8

/-- `&[u8]`. -/
structure Slice where
  ptr : Nat
  len : Nat

inductive PageKind where
  | open_ | ram | rom
  deriving DecidableEq, Repr

structure Page where
  ptr : Nat
  kind : PageKind
  deriving DecidableEq, Repr

def Page.default : Page := ⟨0, .open_⟩

structure OpenBus where
  last : U8
  deriving DecidableEq, Repr

namespace OpenBus

def default : OpenBus := ⟨0⟩

def sample (bus : OpenBus) : U8 := bus.last

def drive (_bus : OpenBus) (v : U8) : OpenBus := ⟨v⟩

end OpenBus

/-- The ways in which a call of the page-mapped bus can go wrong. -/
inductive PageFault where
  | debugAssert
  | indexBounds
  /-- An unchecked access outside the page table. -/
  | unchecked
  deriving DecidableEq, Repr

def debugAssert (prof : Profile) (cond : Prop) [Decidable cond] : Except PageFault Unit :=
  if prof = .debug ∧ ¬cond then .error .debugAssert else .ok ()

/-- The table never changes its size after construction. -/
structure FastMapBus (addrBits pageShift : Nat) where
  pages : Vector Page (1 <<< (addrBits - pageShift))
  opened : OpenBus

namespace FastMapBus
variable {addrBits pageShift : Nat}

def numPages (_bus : FastMapBus addrBits pageShift) : Nat := 1 <<< (addrBits - pageShift)

def new (prof : Profile) (addrBits pageShift : Nat) :
    Except PageFault (FastMapBus addrBits pageShift) := do
  debugAssert prof (addrBits ≤ 24)
  debugAssert prof (pageShift < addrBits)
  return ⟨.replicate _ .default, .default⟩

def pageSize (pageShift : Nat) : Nat := 1 <<< pageShift

def pageMask (pageShift : Nat) : U32 := BitVec.ofNat 32 (pageSize pageShift) - 1

/-- The mask keeps high bits from indexing past the table. -/
def addrMask (addrBits : Nat) : U32 :=
  if addrBits = 32 then BitVec.allOnes 32 else ((1 : U32) <<< addrBits) - 1

def pageIndex (addrBits pageShift : Nat) (addr : U32) : Nat :=
  ((addr &&& addrMask addrBits) >>> pageShift).toNat

/-- `self.pages[page_idx] = page` -/
def setPage (bus : FastMapBus addrBits pageShift) (pageIdx : Nat) (page : Page) :
    Except PageFault (FastMapBus addrBits pageShift) :=
  if h : pageIdx < 1 <<< (addrBits - pageShift) then
    .ok { bus with pages := bus.pages.set pageIdx page h }
  else .error .indexBounds

section
variable (prof : Profile) (bus : FastMapBus addrBits pageShift)

def mapRamPageIdx (pageIdx : Nat) (slice : Slice) :
    Except PageFault (FastMapBus addrBits pageShift) := do
  debugAssert prof (slice.len = pageSize pageShift)
  debugAssert prof (pageIdx < bus.numPages)
  bus.setPage pageIdx ⟨slice.ptr, .ram⟩

def mapRomPageIdx (pageIdx : Nat) (slice : Slice) :
    Except PageFault (FastMapBus addrBits pageShift) := do
  debugAssert prof (slice.len = pageSize pageShift)
  debugAssert prof (pageIdx < bus.numPages)
  bus.setPage pageIdx ⟨slice.ptr, .rom⟩

def mapOpenPageIdx (pageIdx : Nat) : Except PageFault (FastMapBus addrBits pageShift) := do
  debugAssert prof (pageIdx < bus.numPages)
  bus.setPage pageIdx .default

def mapRamPageAt (addr : U32) (slice : Slice) : Except PageFault (FastMapBus addrBits pageShift) :=
  bus.mapRamPageIdx prof (pageIndex addrBits pageShift addr) slice

def mapRomPageAt (addr : U32) (slice : Slice) : Except PageFault (FastMapBus addrBits pageShift) :=
  bus.mapRomPageIdx prof (pageIndex addrBits pageShift addr) slice

def mapOpenPageAt (addr : U32) : Except PageFault (FastMapBus addrBits pageShift) :=
  bus.mapOpenPageIdx prof (pageIndex addrBits pageShift addr)

def driveOpenBus (value : U8) : FastMapBus addrBits pageShift :=
  { bus with opened := bus.opened.drive value }

/-- `get_unchecked` -/
def page (addr : U32) : Except PageFault Page :=
  match bus.pages[pageIndex addrBits pageShift addr]? with
  | some p => .ok p
  | none => .error .unchecked

def read (heap : Heap) (addr : U32) (_vda _vpa : Bool) :
    Except PageFault (U8 × FastMapBus addrBits pageShift) := do
  debugAssert prof (addr < (1 : U32) <<< addrBits)
  let p ← bus.page addr
  let off := (addr &&& pageMask pageShift).toNat
  match p.kind with
  | .ram | .rom =>
      let v := heap (p.ptr + off)
      return (v, { bus with opened := bus.opened.drive v })
  | .open_ => return (bus.opened.sample, bus)

def write (heap : Heap) (addr : U32) (data : U8) (_vda _vpa : Bool) :
    Except PageFault (Heap × FastMapBus addrBits pageShift) := do
  debugAssert prof (addr < (1 : U32) <<< addrBits)
  let p ← bus.page addr
  let off := (addr &&& pageMask pageShift).toNat
  match p.kind with
  | .ram => return (Function.update heap (p.ptr + off) data,
      { bus with opened := bus.opened.drive data })
  -- writes to ROM are ignored but still drive the open bus
  | .rom => return (heap, { bus with opened := bus.opened.drive data })
  | .open_ => return (heap, { bus with opened := bus.opened.drive data })

end

end FastMapBus

end Rs65x
