import Rs65x.Bus.FastMap
import Rs65x.Lib.Machine
import Rs65x.Lib.Paging

/-!
# The page-mapped bus is paged memory
-/

namespace Rs65x
open Fallible Machine Paging

namespace FastMapBus
variable {addrBits pageShift : Nat} {prof : Profile} {bus : FastMapBus addrBits pageShift}
  {heap : Heap}

/-! ## Address arithmetic -/

theorem toNat_one_shift (bits : addrBits < 32) : ((1 : U32) <<< addrBits).toNat = 2 ^ addrBits := by
  have small : 2 ^ addrBits < 2 ^ 32 := Nat.pow_lt_pow_right (by omega) bits
  rw [BitVec.toNat_shiftLeft, Nat.shiftLeft_eq]
  exact (congrArg (· % 2 ^ 32) (Nat.one_mul _)).trans (Nat.mod_eq_of_lt small)

theorem toNat_addrMask (bits : addrBits ≤ 32) : (addrMask addrBits).toNat = 2 ^ addrBits - 1 := by
  by_cases whole : addrBits = 32
  · rw [addrMask, if_pos whole, whole]
    rfl
  · have one := toNat_one_shift (Nat.lt_of_le_of_ne bits whole)
    have pos : 0 < 2 ^ addrBits := Nat.two_pow_pos addrBits
    rw [addrMask, if_neg whole, BitVec.toNat_sub_of_le (by rw [BitVec.le_def, one]; exact pos), one]
    rfl

theorem toNat_pageMask (shift : pageShift < 32) : (pageMask pageShift).toNat = 2 ^ pageShift - 1 := by
  have small : 2 ^ pageShift < 2 ^ 32 := Nat.pow_lt_pow_right (by omega) shift
  have pos : 0 < 2 ^ pageShift := Nat.two_pow_pos pageShift
  have size : (BitVec.ofNat 32 (pageSize pageShift)).toNat = 2 ^ pageShift := by
    rw [BitVec.toNat_ofNat, pageSize, Nat.one_shiftLeft, Nat.mod_eq_of_lt small]
  rw [pageMask, BitVec.toNat_sub_of_le (by rw [BitVec.le_def, size]; exact pos), size]
  rfl

theorem pageIndex_eq (bits : addrBits ≤ 32) (addr : U32) :
    pageIndex addrBits pageShift addr = addr.toNat % 2 ^ addrBits / 2 ^ pageShift := by
  rw [pageIndex, BitVec.toNat_ushiftRight, BitVec.toNat_and, toNat_addrMask bits,
    Nat.and_two_pow_sub_one_eq_mod, Nat.shiftRight_eq_div_pow]

theorem pageIndex_lt (bits : addrBits ≤ 32) (shift : pageShift ≤ addrBits) (addr : U32) :
    pageIndex addrBits pageShift addr < 1 <<< (addrBits - pageShift) := by
  rw [pageIndex_eq bits, Nat.one_shiftLeft, Nat.div_lt_iff_lt_mul (Nat.two_pow_pos _), ← Nat.pow_add,
    Nat.sub_add_cancel shift]
  exact Nat.mod_lt _ (Nat.two_pow_pos _)

theorem offset_eq (shift : pageShift < 32) (addr : U32) :
    (addr &&& pageMask pageShift).toNat = addr.toNat % 2 ^ pageShift := by
  rw [BitVec.toNat_and, toNat_pageMask shift, Nat.and_two_pow_sub_one_eq_mod]

/-! ## What the host does -/

inductive Target where
  | idx (pageIdx : Nat)
  | at_ (addr : U32)

/-- The calls of a host, of the maps with their two ways to name the page. -/
inductive HostCall where
  | mapRam (target : Target) (slice : Slice)
  | mapRom (target : Target) (slice : Slice)
  | mapOpen (target : Target)
  | read (addr : U32) (vda vpa : Bool)
  | write (addr : U32) (data : U8) (vda vpa : Bool)
  | drive (value : U8)

variable (prof) in
def serve (s : FastMapBus addrBits pageShift × Heap) : HostCall →
    Except PageFault (Option U8 × (FastMapBus addrBits pageShift × Heap))
  | .mapRam (.idx pageIdx) slice => do return (none, ← s.1.mapRamPageIdx prof pageIdx slice, s.2)
  | .mapRam (.at_ addr) slice => do return (none, ← s.1.mapRamPageAt prof addr slice, s.2)
  | .mapRom (.idx pageIdx) slice => do return (none, ← s.1.mapRomPageIdx prof pageIdx slice, s.2)
  | .mapRom (.at_ addr) slice => do return (none, ← s.1.mapRomPageAt prof addr slice, s.2)
  | .mapOpen (.idx pageIdx) => do return (none, ← s.1.mapOpenPageIdx prof pageIdx, s.2)
  | .mapOpen (.at_ addr) => do return (none, ← s.1.mapOpenPageAt prof addr, s.2)
  | .read addr vda vpa => do
      let (data, bus) ← s.1.read prof s.2 addr vda vpa
      return (some data, bus, s.2)
  | .write addr data vda vpa => do
      let (heap, bus) ← s.1.write prof s.2 addr data vda vpa
      return (none, bus, heap)
  | .drive value => .ok (none, s.1.driveOpenBus value, s.2)

/-! ## Refinement -/

namespace Target

def page (addrBits pageShift : Nat) : Target → Nat
  | idx pageIdx => pageIdx
  | at_ addr => addr.toNat % 2 ^ addrBits / 2 ^ pageShift

def Fits (addrBits pageShift : Nat) : Target → Prop
  | idx pageIdx => pageIdx < 2 ^ (addrBits - pageShift)
  | at_ _ => True

end Target

def window (ptr : Nat) (writable : Bool) : Window Nat Nat := ⟨fun off => ptr + off, writable⟩

namespace HostCall

def paged (addrBits pageShift : Nat) : HostCall → Paging.Op Nat Nat Nat U8
  | mapRam target slice => .map (target.page addrBits pageShift) (some (window slice.ptr true))
  | mapRom target slice => .map (target.page addrBits pageShift) (some (window slice.ptr false))
  | mapOpen target => .map (target.page addrBits pageShift) none
  | read addr _ _ => .read (addr.toNat / 2 ^ pageShift) (addr.toNat % 2 ^ pageShift)
  | write addr data _ _ => .write (addr.toNat / 2 ^ pageShift) (addr.toNat % 2 ^ pageShift) data
  | drive value => .drive value

def Fits (addrBits pageShift : Nat) : HostCall → Prop
  | mapRam target slice | mapRom target slice =>
      target.Fits addrBits pageShift ∧ slice.len = 2 ^ pageShift
  | mapOpen target => target.Fits addrBits pageShift
  | read addr .. | write addr .. => addr.toNat < 2 ^ addrBits
  | drive _ => True

end HostCall

def shown (page : Page) : Option (Window Nat Nat) :=
  match page.kind with
  | .open_ => none
  | .ram => some (window page.ptr true)
  | .rom => some (window page.ptr false)

/-- The bus and its memory are this paged memory. -/
structure Refines (bus : FastMapBus addrBits pageShift) (heap : Heap)
    (m : Memory Nat Nat Nat U8) : Prop where
  table : ∀ i p, bus.pages[i]? = some p → m.table i = shown p
  cells : m.cells = heap
  last : m.last = bus.opened.last

theorem debugAssert_of {cond : Prop} [Decidable cond] (holds : cond) :
    debugAssert prof cond = .ok () := if_neg fun fails => fails.2 holds

theorem new_refines (prof : Profile) (bits : addrBits ≤ 24) (shift : pageShift < addrBits) (heap : Heap) :
    ∃ bus, new prof addrBits pageShift = .ok bus ∧ Refines bus heap ⟨fun _ => none, heap, 0⟩ := by
  refine ⟨⟨.replicate _ .default, .default⟩, ?_, ?_, rfl, rfl⟩
  · rw [new, debugAssert_of bits, debugAssert_of shift]
    rfl
  · intro i p at_
    obtain ⟨-, rfl⟩ : i < _ ∧ Page.default = p := by
      simpa [Vector.getElem?_replicate] using at_
    rfl

variable {m : Memory Nat Nat Nat U8}

theorem Refines.setPage (refines : Refines bus heap m) {pageIdx : Nat}
    (fits : pageIdx < 2 ^ (addrBits - pageShift)) (page : Page) :
    ∃ bus', bus.setPage pageIdx page = .ok bus' ∧
      Refines bus' heap (m.step (.map pageIdx (shown page))).2 := by
  have lt : pageIdx < 1 <<< (addrBits - pageShift) := by rwa [Nat.one_shiftLeft]
  refine ⟨_, dif_pos lt, ?_, refines.cells, refines.last⟩
  intro i p at_
  rw [Vector.getElem?_set] at at_
  simp only [Memory.step, Function.update_apply]
  split at at_
  · next same =>
      cases at_
      rw [if_pos same.symm]
  · next other =>
      rw [if_neg (Ne.symm other)]
      exact refines.table i p at_

theorem Refines.serve_map (bits : addrBits ≤ 24) (shift : pageShift < addrBits)
    (refines : Refines bus heap m) {target : Target} (fits : target.Fits addrBits pageShift)
    {call : HostCall} (page : Page)
    (idx : ∀ pageIdx < 2 ^ (addrBits - pageShift), target.page addrBits pageShift = pageIdx →
      serve prof (bus, heap) call = (do return (none, ← bus.setPage pageIdx page, heap)))
    (paged : call.paged addrBits pageShift =
      .map (target.page addrBits pageShift) (shown page)) :
    ∃ out s, serve prof (bus, heap) call = .ok (out, s) ∧
      ∃ m', m.step (call.paged addrBits pageShift) = (out, m') ∧ Refines s.1 s.2 m' := by
  have lt : target.page addrBits pageShift < 2 ^ (addrBits - pageShift) := by
    cases target with
    | idx pageIdx => exact fits
    | at_ addr =>
        have lt := pageIndex_lt (bits.trans (by decide)) shift.le addr
        rwa [pageIndex_eq (bits.trans (by decide)), Nat.one_shiftLeft] at lt
  obtain ⟨bus', set, refines'⟩ := refines.setPage lt page
  refine ⟨none, (bus', heap), ?_, _, ?_, refines'⟩
  · rw [idx _ lt rfl, set]
    rfl
  · rw [paged]
    rfl

theorem page_eq (bits : addrBits ≤ 24) (shift : pageShift < addrBits)
    (bus : FastMapBus addrBits pageShift) {addr : U32} (fits : addr.toNat < 2 ^ addrBits) :
    ∃ p, bus.page addr = .ok p ∧ bus.pages[addr.toNat / 2 ^ pageShift]? = some p := by
  have wide : addrBits ≤ 32 := bits.trans (by decide)
  have lt := pageIndex_lt wide shift.le addr
  have index : pageIndex addrBits pageShift addr = addr.toNat / 2 ^ pageShift := by
    rw [pageIndex_eq wide, Nat.mod_eq_of_lt fits]
  have found : bus.pages[pageIndex addrBits pageShift addr]? = some (bus.pages.get ⟨_, lt⟩) :=
    Vector.getElem?_eq_getElem lt
  refine ⟨_, by rw [page, found], ?_⟩
  rw [← index]
  exact found

theorem address_assert (bits : addrBits ≤ 24) {addr : U32} (fits : addr.toNat < 2 ^ addrBits) :
    debugAssert prof (addr < (1 : U32) <<< addrBits) = .ok () := by
  refine debugAssert_of ?_
  rw [BitVec.lt_def, toNat_one_shift (bits.trans_lt (by decide))]
  exact fits

theorem Refines.read (prof : Profile) (bits : addrBits ≤ 24) (shift : pageShift < addrBits)
    (refines : Refines bus heap m) {addr : U32} (fits : addr.toNat < 2 ^ addrBits)
    (vda vpa : Bool) : ∃ data bus', bus.read prof heap addr vda vpa = .ok (data, bus') ∧
      ∃ m', m.step (.read (addr.toNat / 2 ^ pageShift) (addr.toNat % 2 ^ pageShift)) =
        (some data, m') ∧ Refines bus' heap m' := by
  obtain ⟨p, found, entry⟩ := page_eq bits shift bus fits
  have table := refines.table _ p entry
  rw [FastMapBus.read, address_assert bits fits, found]
  simp only [ok_bind, offset_eq (shift.trans_le (bits.trans (by decide))), Memory.step, table, shown]
  cases p.kind with
  | open_ => exact ⟨_, _, rfl, _, by rw [refines.last]; rfl, refines⟩
  | ram | rom =>
      refine ⟨_, _, rfl, { m with last := heap (p.ptr + addr.toNat % 2 ^ pageShift) }, ?_,
        refines.table, refines.cells, rfl⟩
      rw [← refines.cells]
      rfl

theorem Refines.write (prof : Profile) (bits : addrBits ≤ 24) (shift : pageShift < addrBits)
    (refines : Refines bus heap m) {addr : U32} (fits : addr.toNat < 2 ^ addrBits) (data : U8)
    (vda vpa : Bool) : ∃ heap' bus', bus.write prof heap addr data vda vpa = .ok (heap', bus') ∧
      ∃ m', m.step (.write (addr.toNat / 2 ^ pageShift) (addr.toNat % 2 ^ pageShift) data) =
        (none, m') ∧ Refines bus' heap' m' := by
  obtain ⟨p, found, entry⟩ := page_eq bits shift bus fits
  have table := refines.table _ p entry
  rw [FastMapBus.write, address_assert bits fits, found]
  simp only [ok_bind, offset_eq (shift.trans_le (bits.trans (by decide))), Memory.step, table, shown]
  cases p.kind with
  | open_ | rom => exact ⟨_, _, rfl, _, rfl, refines.table, refines.cells, rfl⟩
  | ram =>
      refine ⟨_, _, rfl, _, rfl, refines.table, ?_, rfl⟩
      rw [refines.cells]

theorem Refines.serve (prof : Profile) (bits : addrBits ≤ 24) (shift : pageShift < addrBits)
    (refines : Refines bus heap m) {call : HostCall} (fits : call.Fits addrBits pageShift) :
    ∃ out s, serve prof (bus, heap) call = .ok (out, s) ∧
      ∃ m', m.step (call.paged addrBits pageShift) = (out, m') ∧ Refines s.1 s.2 m' := by
  have wide : addrBits ≤ 32 := bits.trans (by decide)
  have asserted {slice : Slice} (whole : slice.len = 2 ^ pageShift) :
      debugAssert prof (slice.len = pageSize pageShift) = .ok () :=
    debugAssert_of (by rwa [pageSize, Nat.one_shiftLeft])
  have inside {pageIdx : Nat} (lt : pageIdx < 2 ^ (addrBits - pageShift)) :
      debugAssert prof (pageIdx < bus.numPages) = .ok () :=
    debugAssert_of (by rwa [numPages, Nat.one_shiftLeft])
  cases call with
  | mapRam target slice =>
      refine refines.serve_map bits shift fits.1 ⟨slice.ptr, .ram⟩ (fun pageIdx lt eq => ?_) rfl
      cases target <;> simp only [Target.page, ← pageIndex_eq wide] at eq <;> subst eq <;>
        simp [FastMapBus.serve, mapRamPageAt, mapRamPageIdx, asserted fits.2, inside lt]
  | mapRom target slice =>
      refine refines.serve_map bits shift fits.1 ⟨slice.ptr, .rom⟩ (fun pageIdx lt eq => ?_) rfl
      cases target <;> simp only [Target.page, ← pageIndex_eq wide] at eq <;> subst eq <;>
        simp [FastMapBus.serve, mapRomPageAt, mapRomPageIdx, asserted fits.2, inside lt]
  | mapOpen target =>
      refine refines.serve_map bits shift fits .default (fun pageIdx lt eq => ?_) rfl
      cases target <;> simp only [Target.page, ← pageIndex_eq wide] at eq <;> subst eq <;>
        simp [FastMapBus.serve, mapOpenPageAt, mapOpenPageIdx, inside lt]
  | read addr vda vpa =>
      obtain ⟨data, bus', ran, m', next, refines'⟩ := refines.read prof bits shift fits vda vpa
      exact ⟨_, _, by rw [FastMapBus.serve, ran]; rfl, m', next, refines'⟩
  | write addr data vda vpa =>
      obtain ⟨heap', bus', ran, m', next, refines'⟩ :=
        refines.write prof bits shift fits data vda vpa
      exact ⟨_, _, by rw [FastMapBus.serve, ran]; rfl, m', next, refines'⟩
  | drive value => exact ⟨_, _, rfl, _, rfl, refines.table, refines.cells, rfl⟩

/-! ## Histories -/

def history (addrBits pageShift : Nat) (calls : List HostCall) (outs : List (Option U8)) :
    List (Paging.Op Nat Nat Nat U8 × Option U8) :=
  ((calls.map fun call => call.paged addrBits pageShift).zip outs).reverse

theorem Refines.run (prof : Profile) (bits : addrBits ≤ 24) (shift : pageShift < addrBits)
    {start : Memory Nat Nat Nat U8} {earlier : List (Paging.Op Nat Nat Nat U8 × Option U8)}
    (comes : start.Comes earlier m) (refines : Refines bus heap m) {calls : List HostCall}
    (fits : ∀ call ∈ calls, call.Fits addrBits pageShift) :
    ∃ outs s, run (FastMapBus.serve prof) (bus, heap) calls = .ok (outs, s) ∧
      ∃ m', start.Comes (history addrBits pageShift calls outs ++ earlier) m' ∧
        Refines s.1 s.2 m' := by
  induction calls generalizing bus heap m earlier with
  | nil => exact ⟨[], _, rfl, m, comes, refines⟩
  | cons call calls ih =>
      obtain ⟨out, s, ran, m', next, refines'⟩ :=
        refines.serve prof bits shift (fits call List.mem_cons_self)
      obtain ⟨outs, s', rest, m'', comes', refines''⟩ :=
        ih (comes.cons next) refines' fun call mem => fits call (List.mem_cons_of_mem _ mem)
      refine ⟨out :: outs, s', by rw [run_cons _ ran, rest]; rfl, m'', ?_, refines''⟩
      simpa [history] using comes'

/-! ## All pages mapped to RAM slices of their own -/

def HostCall.isAccess : HostCall → Bool
  | .read .. | .write .. => true
  | _ => false

def onSimple (bus : SimpleBus) : HostCall → Except PageFault (Option U8 × SimpleBus)
  | .read addr vda vpa =>
      let (data, bus) := Bus.read bus addr vda vpa
      .ok (some data, bus)
  | .write addr data vda vpa => .ok (none, Bus.write bus addr data vda vpa)
  | _ => .ok (none, bus)

def split (pageShift : Nat) (addr : U16) : Nat × Nat :=
  (addr.toNat / 2 ^ pageShift, addr.toNat % 2 ^ pageShift)

def place (pageShift : Nat) (base : Nat → Nat) (addr : U16) : Nat :=
  base (addr.toNat / 2 ^ pageShift) + addr.toNat % 2 ^ pageShift

variable {base : Nat → Nat}

def Apart (pages pageShift : Nat) (base : Nat → Nat) : Prop :=
  ∀ i < pages, ∀ j < pages, i ≠ j → ∀ k < 2 ^ pageShift, ∀ l < 2 ^ pageShift, base i + k ≠ base j + l

theorem page_lt (shift : pageShift < 16) (addr : U16) :
    addr.toNat / 2 ^ pageShift < 2 ^ (16 - pageShift) := by
  rw [Nat.div_lt_iff_lt_mul (Nat.two_pow_pos _), ← Nat.pow_add, Nat.sub_add_cancel shift.le]
  exact addr.isLt

theorem flat_of_apart (shift : pageShift < 16)
    (mapped : ∀ page < 2 ^ (16 - pageShift), m.table page = some (window (base page) true))
    (apart : Apart (2 ^ (16 - pageShift)) pageShift base) :
    m.Flat (split pageShift) (place pageShift base) where
  window addr := ⟨_, mapped _ (page_lt shift addr), rfl⟩
  apart := by
    intro addr addr' same
    have offset (addr : U16) : addr.toNat % 2 ^ pageShift < 2 ^ pageShift :=
      Nat.mod_lt _ (Nat.two_pow_pos _)
    by_cases page : addr.toNat / 2 ^ pageShift = addr'.toNat / 2 ^ pageShift
    · rw [place, place, page] at same
      apply BitVec.eq_of_toNat_eq
      rw [← Nat.div_add_mod addr.toNat (2 ^ pageShift), ← Nat.div_add_mod addr'.toNat (2 ^ pageShift),
        page, Nat.add_left_cancel same]
    · exact absurd same (apart _ (page_lt shift addr) _ (page_lt shift addr') page _ (offset addr) _
        (offset addr'))

theorem paged_split {addr : U32} (fits : addr.toNat < 2 ^ 16) :
    split pageShift (addr.setWidth 16) = (addr.toNat / 2 ^ pageShift, addr.toNat % 2 ^ pageShift) := by
  rw [split, BitVec.toNat_setWidth, Nat.mod_eq_of_lt fits]

theorem onSimple_eq (flat : m.Flat (split pageShift) (place pageShift base)) {simple : SimpleBus}
    (same : simple.ram = fun addr => m.cells (place pageShift base addr)) {call : HostCall}
    (access : call.isAccess) (fits : call.Fits 16 pageShift) :
    onSimple simple call = .ok ((m.step (call.paged 16 pageShift)).1,
      ⟨fun addr => (m.step (call.paged 16 pageShift)).2.cells (place pageShift base addr)⟩) ∧
    (m.step (call.paged 16 pageShift)).2.Flat (split pageShift) (place pageShift base) := by
  obtain ⟨ram⟩ := simple
  subst same
  cases call with
  | read addr vda vpa =>
      have step := flat.read (addr.setWidth 16)
      rw [paged_split fits] at step
      rw [HostCall.paged, step]
      exact ⟨rfl, flat.window, flat.apart⟩
  | write addr data vda vpa =>
      have step := flat.write (addr.setWidth 16) data
      rw [paged_split fits] at step
      rw [HostCall.paged, step]
      refine ⟨?_, flat.window, flat.apart⟩
      rw [flat.update]
      rfl
  | mapRam | mapRom | mapOpen | drive => cases access

theorem Refines.simple (prof : Profile) {bus : FastMapBus 16 pageShift} (shift : pageShift < 16)
    (refines : Refines bus heap m) (flat : m.Flat (split pageShift) (place pageShift base))
    {simple : SimpleBus} (same : simple.ram = fun addr => heap (place pageShift base addr))
    {calls : List HostCall} (accesses : ∀ call ∈ calls, call.isAccess ∧ call.Fits 16 pageShift) :
    ∃ outs s simple', Machine.run (FastMapBus.serve prof) (bus, heap) calls = .ok (outs, s) ∧
      Machine.run onSimple simple calls = .ok (outs, simple') ∧
      simple'.ram = fun addr => s.2 (place pageShift base addr) := by
  induction calls generalizing bus heap m simple with
  | nil => exact ⟨[], _, simple, rfl, rfl, same⟩
  | cons call calls ih =>
      obtain ⟨access, fits⟩ := accesses call List.mem_cons_self
      obtain ⟨out, s, ran, m', next, refines'⟩ := refines.serve prof (by decide) shift fits
      rw [← refines.cells] at same
      obtain ⟨first, flat'⟩ := onSimple_eq flat same access fits
      rw [next] at first flat'
      have ram : (⟨fun addr => m'.cells (place pageShift base addr)⟩ : SimpleBus).ram =
          fun addr => s.2 (place pageShift base addr) := by
        rw [← refines'.cells]
      obtain ⟨outs, s', simple', rest, rest', same'⟩ := ih refines' flat' ram
        fun call mem => accesses call (List.mem_cons_of_mem _ mem)
      exact ⟨out :: outs, s', simple', by rw [run_cons _ ran, rest]; rfl,
        by rw [run_cons _ first, rest']; rfl, same'⟩

/-- The page-mapped bus is paged memory, after every history of calls; with slices of their own
in all pages of a 16-bit bus it is a `SimpleBus`. -/
theorem fastmap_refines (bits : addrBits ≤ 24) (shift : pageShift < addrBits) (prof : Profile)
    (heap : Heap) {calls : List HostCall} (fits : ∀ call ∈ calls, call.Fits addrBits pageShift) :
    ∃ bus outs s, new prof addrBits pageShift = .ok bus ∧
      run (serve prof) (bus, heap) calls = .ok (outs, s) ∧
      (∀ call : HostCall, call.Fits addrBits pageShift → ∃ out s',
        serve prof s call = .ok (out, s') ∧ Answers 0 (history addrBits pageShift calls outs) s.2
          (call.paged addrBits pageShift) out s'.2) ∧
      (addrBits = 16 → ∀ base : Nat → Nat, (∀ page < 2 ^ (16 - pageShift),
          windowAt (history addrBits pageShift calls outs) page = some (window (base page) true)) →
        Apart (2 ^ (16 - pageShift)) pageShift base →
        ∀ accesses : List HostCall, (∀ call ∈ accesses, call.isAccess ∧ call.Fits 16 pageShift) →
          ∃ outs' s' simple, run (serve prof) s accesses = .ok (outs', s') ∧
            run onSimple ⟨fun addr => s.2 (place pageShift base addr)⟩ accesses = .ok (outs', simple) ∧
            simple.ram = fun addr => s'.2 (place pageShift base addr)) := by
  obtain ⟨bus, built, start⟩ := new_refines prof bits shift heap
  obtain ⟨outs, ⟨bus', heap'⟩, ran, m, comes, refines⟩ := start.run prof bits shift .nil fits
  rw [List.append_nil] at comes
  refine ⟨bus, outs, _, built, ran, ?_, ?_⟩
  · intro call fits
    obtain ⟨out, s', served, m', next, refines'⟩ := refines.serve prof bits shift fits
    have answers := comes.answers rfl next
    rw [refines.cells, refines'.cells] at answers
    exact ⟨out, s', served, answers⟩
  · rintro rfl base mapped apart accesses fits
    have table := (comes.state rfl).1
    exact refines.simple prof shift (flat_of_apart shift (fun page lt => by rw [table, mapped page lt])
      apart) rfl fits

def mirrored : List HostCall :=
  -- One slice at the two lowest pages, and a write through the first.
  [.mapRam (.idx 0) ⟨0, 4096⟩, .mapRam (.at_ 0x1000) ⟨0, 4096⟩, .write 5 7 true false]

theorem fastmap_refines_mirrored : ∃ bus s s', new .debug 16 12 = .ok bus ∧
    run (serve .debug) (bus, fun _ => 0) mirrored = .ok ([none, none, none], s) ∧
    serve .debug s (.read 0x1005 true false) = .ok (some 7, s') := by
  have fits : ∀ call ∈ mirrored, call.Fits 16 12 := by
    intro call mem
    simp only [mirrored, List.mem_cons, List.not_mem_nil, or_false] at mem
    rcases mem with rfl | rfl | rfl
    · exact ⟨(by decide : 0 < 2 ^ (16 - 12)), rfl⟩
    · exact ⟨trivial, rfl⟩
    · exact (by decide : (5 : U32).toNat < 2 ^ 16)
  obtain ⟨bus, outs, s, built, ran, answers, -⟩ :=
    fastmap_refines (by decide : 16 ≤ 24) (by decide : 12 < 16) .debug (fun _ => 0) fits
  cases built
  have mapped : ∃ s', run (serve .debug) ((⟨.replicate _ .default, .default⟩ : FastMapBus 16 12),
      fun _ => 0) mirrored = .ok ([none, none, none], s') ∧ s'.2 5 = 7 := ⟨_, rfl, rfl⟩
  obtain ⟨s', mapped, written⟩ := mapped
  cases ran.symm.trans mapped
  have inside : (HostCall.read 0x1005 true false).Fits 16 12 :=
    (by decide : (0x1005 : U32).toNat < 2 ^ 16)
  obtain ⟨out, s'', served, same, eq⟩ := answers (.read 0x1005 true false) inside
  have value : out = some (s.2 5) := eq
  rw [value, written] at served
  exact ⟨_, _, s'', rfl, ran, served⟩

end FastMapBus

end Rs65x
