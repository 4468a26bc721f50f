import Rs65x.Bus.Board
import Rs65x.Results.Buses

/-!
# A core on the page-mapped bus is a core on paged memory
-/

namespace Rs65x
open Fallible Machine Paging

namespace FastMapBus
variable {prof : Profile} {addrBits pageShift : Nat} {bus : FastMapBus addrBits pageShift}
  {heap : Heap} {m : Memory Nat Nat Nat U8} {addr : U32}

/-- The address as far as the bus decodes it. -/
def decoded (addrBits : Nat) (addr : U32) : U32 := addr &&& addrMask addrBits

theorem toNat_decoded (bits : addrBits ≤ 24) (addr : U32) :
    (decoded addrBits addr).toNat = addr.toNat % 2 ^ addrBits := by
  rw [decoded, BitVec.toNat_and, toNat_addrMask (bits.trans (by decide)),
    Nat.and_two_pow_sub_one_eq_mod]

theorem decoded_fits (bits : addrBits ≤ 24) (addr : U32) :
    (decoded addrBits addr).toNat < 2 ^ addrBits := by
  rw [toNat_decoded bits]
  exact Nat.mod_lt _ (Nat.two_pow_pos _)

theorem pageIndex_decoded (addr : U32) :
    pageIndex addrBits pageShift (decoded addrBits addr) = pageIndex addrBits pageShift addr := by
  rw [pageIndex, pageIndex, decoded, BitVec.and_assoc, BitVec.and_self]

theorem offset_decoded (bits : addrBits ≤ 24) (shift : pageShift < addrBits) (addr : U32) :
    decoded addrBits addr &&& pageMask pageShift = addr &&& pageMask pageShift := by
  have small : pageShift < 32 := shift.trans_le (bits.trans (by decide))
  apply BitVec.eq_of_toNat_eq
  rw [offset_eq small, offset_eq small, toNat_decoded bits,
    Nat.mod_mod_of_dvd _ (Nat.pow_dvd_pow 2 shift.le)]

theorem assert_decoded (bits : addrBits ≤ 24) (inside : prof = .debug → addr.toNat < 2 ^ addrBits) :
    debugAssert prof (decoded addrBits addr < (1 : U32) <<< addrBits) =
      debugAssert prof (addr < (1 : U32) <<< addrBits) := by
  rw [address_assert bits (decoded_fits bits addr)]
  cases prof with
  | release => rfl
  | debug => exact (address_assert bits (inside rfl)).symm

theorem Refines.read_any (bits : addrBits ≤ 24) (shift : pageShift < addrBits)
    (refines : Refines bus heap m) (inside : prof = .debug → addr.toNat < 2 ^ addrBits)
    (vda vpa : Bool) : ∃ data bus', bus.read prof heap addr vda vpa = .ok (data, bus') ∧
      ∃ m', m.step (.read (addr.toNat % 2 ^ addrBits / 2 ^ pageShift) (addr.toNat % 2 ^ pageShift)) =
        (some data, m') ∧ Refines bus' heap m' := by
  have here := refines.read prof bits shift (decoded_fits bits addr) vda vpa
  rw [toNat_decoded bits, Nat.mod_mod_of_dvd _ (Nat.pow_dvd_pow 2 shift.le), FastMapBus.read,
    assert_decoded bits inside, FastMapBus.page, pageIndex_decoded, offset_decoded bits shift] at here
  exact here

theorem Refines.write_any (bits : addrBits ≤ 24) (shift : pageShift < addrBits)
    (refines : Refines bus heap m) (inside : prof = .debug → addr.toNat < 2 ^ addrBits) (data : U8)
    (vda vpa : Bool) : ∃ heap' bus', bus.write prof heap addr data vda vpa = .ok (heap', bus') ∧
      ∃ m', m.step (.write (addr.toNat % 2 ^ addrBits / 2 ^ pageShift) (addr.toNat % 2 ^ pageShift)
        data) = (none, m') ∧ Refines bus' heap' m' := by
  have here := refines.write prof bits shift (decoded_fits bits addr) data vda vpa
  rw [toNat_decoded bits, Nat.mod_mod_of_dvd _ (Nat.pow_dvd_pow 2 shift.le), FastMapBus.write,
    assert_decoded bits inside, FastMapBus.page, pageIndex_decoded, offset_decoded bits shift] at here
  exact here

end FastMapBus

namespace Mapped
variable {prof : Profile} {addrBits pageShift : Nat} {m : Mapped prof addrBits pageShift}
  {addr : U32} {vda vpa : Bool} {bus : FastMapBus addrBits pageShift} {heap : Heap} {data : U8}

theorem read_eq (read : m.bus.read prof m.heap addr vda vpa = .ok (data, bus)) :
    Bus.read m addr vda vpa = (data, { m with bus }) := by
  simp only [Bus.read, read]

theorem write_eq (write : m.bus.write prof m.heap addr data vda vpa = .ok (heap, bus)) :
    Bus.write m addr data vda vpa = { m with heap, bus } := by
  simp only [Bus.write, write]

end Mapped

open FastMapBus

section
variable {prof : Profile} {addrBits pageShift : Nat}

theorem PagedBus.read_eq {m : Memory Nat Nat Nat U8} {addr : U32} {data : U8}
    {m' : Memory Nat Nat Nat U8} (next : m.step (.read (addr.toNat % 2 ^ addrBits / 2 ^ pageShift)
      (addr.toNat % 2 ^ pageShift)) = (some data, m')) (vda vpa : Bool) :
    Bus.read (⟨m⟩ : PagedBus addrBits pageShift) addr vda vpa = (data, ⟨m'⟩) := by
  simp only [Bus.read, next]
  rfl

def Shows (r : Recorder (PagedBus addrBits pageShift)) (m : Mapped prof addrBits pageShift) : Prop :=
  Refines m.bus m.heap r.bus.memory ∧ m.fault = none

/-- In a debug build the address is one of the bus. -/
def Decodes (prof : Profile) (addrBits : Nat) (_log : List Access) (a : Access) : Prop :=
  prof = .debug → a.addr.toNat < 2 ^ addrBits

theorem shows_stands_in (prof : Profile) (bits : addrBits ≤ 24) (shift : pageShift < addrBits) :
    StandsIn (@Shows prof addrBits pageShift) (Decodes prof addrBits) where
  read := by
    rintro ⟨⟨memory⟩, log⟩ m addr vda vpa ⟨refines, clean⟩ inside
    replace refines : Refines m.bus m.heap memory := refines
    replace inside : prof = .debug → addr.toNat < 2 ^ addrBits := inside
    obtain ⟨data, bus, read, memory', next, refines'⟩ := refines.read_any bits shift inside vda vpa
    have here := PagedBus.read_eq next vda vpa
    rw [Mapped.read_eq read, here]
    refine ⟨rfl, ?_, clean⟩
    have last : (Bus.read (⟨⟨memory⟩, log⟩ : Recorder (PagedBus addrBits pageShift)) addr vda vpa).2.bus =
        (Bus.read (⟨memory⟩ : PagedBus addrBits pageShift) addr vda vpa).2 := rfl
    rw [last, here]
    exact refines'
  write := by
    rintro ⟨⟨memory⟩, log⟩ m addr data vda vpa ⟨refines, clean⟩ inside
    replace refines : Refines m.bus m.heap memory := refines
    replace inside : prof = .debug → addr.toNat < 2 ^ addrBits := inside
    obtain ⟨heap, bus, write, memory', next, refines'⟩ :=
      refines.write_any bits shift inside data vda vpa
    rw [Mapped.write_eq write]
    refine ⟨?_, clean⟩
    have last : (Bus.write (⟨⟨memory⟩, log⟩ : Recorder (PagedBus addrBits pageShift)) addr data vda
        vpa).bus.memory = _ := congrArg Prod.snd next
    rw [last]
    exact refines'

namespace Board
variable {v : Variant} {s t : Board (PagedBus addrBits pageShift)} {events : List Event}
  {answers : List Answer} {m : Mapped prof addrBits pageShift}

theorem step_host {β : Type} [Bus β] (host : β → HostCall → Option U8 × β) (s : Board β)
    (call : HostCall) : s.step v prof host (.host call) = .ok (.inr (host s.bus.bus call).1,
      { s with bus := { s.bus with bus := (host s.bus.bus call).2 } }) := rfl

theorem step_logged {β : Type} [Bus β] {host : β → HostCall → Option U8 × β} {s t : Board β}
    {event : Event} {answer : Answer} (step : s.step v prof host event = .ok (answer, t)) :
    ∃ accesses, t.bus.log = s.bus.log ++ accesses := by
  cases event with
  | step =>
      simp only [Board.step, bind_eq_ok, Prod.exists] at step
      obtain ⟨exit, cpu, bus, ran, eq⟩ := step
      cases eq
      exact Cpu6502.step_logged ran
  | host | setLines | setIrq | setNmi | setRdy =>
      cases step
      exact ⟨[], (List.append_nil _).symm⟩

theorem run_logged {β : Type} [Bus β] {host : β → HostCall → Option U8 × β} {s t : Board β}
    {answers : List Answer} (ran : run (Board.step v prof host) s events = .ok (answers, t)) :
    ∃ accesses, t.bus.log = s.bus.log ++ accesses := by
  induction events generalizing s answers with
  | nil =>
      cases ran
      exact ⟨[], (List.append_nil _).symm⟩
  | cons event events ih =>
      obtain ⟨answer, u, rest, step, tail, rfl⟩ := run_cons_ok ran
      obtain ⟨first, log⟩ := step_logged step
      obtain ⟨more, log'⟩ := ih tail
      exact ⟨first ++ more, by rw [log', log, List.append_assoc]⟩

def onMapped (s : Board (PagedBus addrBits pageShift)) (m : Mapped prof addrBits pageShift) :
    Board (Mapped prof addrBits pageShift) :=
  ⟨s.cpu, ⟨m, s.bus.log⟩, s.lines⟩

theorem host_shows (bits : addrBits ≤ 24) (shift : pageShift < addrBits)
    {r : Recorder (PagedBus addrBits pageShift)} (shows_ : Shows r m) {call : HostCall}
    (fits : call.Fits addrBits pageShift) : ∃ m', m.host call = ((r.bus.host call).1, m') ∧
      Shows { r with bus := (r.bus.host call).2 } m' := by
  obtain ⟨refines, clean⟩ := shows_
  obtain ⟨out, ⟨bus, heap⟩, served, memory', next, refines'⟩ := refines.serve prof bits shift fits
  refine ⟨{ m with bus, heap }, ?_, ?_, clean⟩
  · simp only [Mapped.host, PagedBus.host, served, next]
  · simp only [PagedBus.host, next]
    exact refines'

theorem step_shows (bits : addrBits ≤ 24) (shift : pageShift < addrBits) (shows_ : Shows s.bus m)
    {event : Event} (fits : ∀ call, event = .host call → call.Fits addrBits pageShift)
    {answer : Answer} (step : s.step v prof PagedBus.host event = .ok (answer, t))
    {accesses : List Access} (log : t.bus.log = s.bus.log ++ accesses)
    (inside : prof = .debug → ∀ a ∈ accesses, a.addr.toNat < 2 ^ addrBits) :
    ∃ m', (s.onMapped m).step v prof Mapped.host event = .ok (answer, t.onMapped m') ∧
      Shows t.bus m' := by
  cases event with
  | host call =>
      rw [step_host] at step
      obtain ⟨rfl, rfl⟩ := Prod.mk.inj (Except.ok.inj step)
      obtain ⟨m', served, shows'⟩ := host_shows bits shift shows_ (fits call rfl)
      refine ⟨m', ?_, shows'⟩
      have served : Mapped.host (s.onMapped m).bus.bus call = _ := served
      rw [step_host, served]
      rfl
  | setLines | setIrq | setNmi | setRdy =>
      cases step
      exact ⟨m, rfl, shows_⟩
  | step =>
      simp only [Board.step, bind_eq_ok, Prod.exists] at step
      obtain ⟨exit, cpu, bus, ran, eq⟩ := step
      cases eq
      have heeds : Heeds (Decodes prof addrBits) s.bus.log accesses :=
        heeds_of_all fun a mem debug => inside debug a mem
      obtain ⟨m', ran', shows'⟩ := Cpu6502.step_stands_in (shows_stands_in prof bits shift) shows_ ran
        log heeds s.bus.log
      replace log : bus.log = s.bus.log ++ accesses := log
      rw [← log] at ran'
      refine ⟨m', ?_, shows'⟩
      simp only [Board.step, onMapped, ran']
      rfl

theorem run_shows (bits : addrBits ≤ 24) (shift : pageShift < addrBits) (shows_ : Shows s.bus m)
    (fits : ∀ call, .host call ∈ events → call.Fits addrBits pageShift)
    (ran : run (Board.step v prof PagedBus.host) s events = .ok (answers, t))
    {accesses : List Access} (log : t.bus.log = s.bus.log ++ accesses)
    (inside : prof = .debug → ∀ a ∈ accesses, a.addr.toNat < 2 ^ addrBits) :
    ∃ m', run (Board.step v prof Mapped.host) (s.onMapped m) events = .ok (answers, t.onMapped m') ∧
      Shows t.bus m' := by
  induction events generalizing s m answers accesses with
  | nil =>
      cases ran
      exact ⟨m, rfl, shows_⟩
  | cons event events ih =>
      obtain ⟨answer, u, rest, step, tail, rfl⟩ := run_cons_ok ran
      obtain ⟨first, here⟩ := step_logged step
      obtain ⟨more, there⟩ := run_logged tail
      obtain rfl : accesses = first ++ more := by
        rw [there, here, List.append_assoc] at log
        exact (List.append_cancel_left log).symm
      obtain ⟨m₁, first', shows₁⟩ := step_shows bits shift shows_
        (fun call eq => fits call (eq ▸ List.mem_cons_self)) step here
        fun debug a mem => inside debug a (List.mem_append_left _ mem)
      obtain ⟨m₂, rest', shows₂⟩ := ih shows₁ (fun call mem => fits call (List.mem_cons_of_mem _ mem))
        tail there fun debug a mem => inside debug a (List.mem_append_right _ mem)
      refine ⟨m₂, ?_, shows₂⟩
      rw [run_cons _ first', rest']
      rfl

/-- Whatever the host does between the cycles, in a release build a core on the page-mapped bus is a
core on paged memory, and so it is in a debug build whose core stays inside the address space. -/
theorem board_refines (bits : addrBits ≤ 24) (shift : pageShift < addrBits) (cpu : Cpu6502)
    (heap : Heap) (lines : Lines)
    (fits : ∀ call, .host call ∈ events → call.Fits addrBits pageShift)
    (ran : run (Board.step v prof PagedBus.host)
      ⟨cpu, ⟨(⟨⟨fun _ => none, heap, 0⟩⟩ : PagedBus addrBits pageShift), []⟩, lines⟩ events =
        .ok (answers, t))
    (inside : prof = .debug → ∀ a ∈ t.bus.log, a.addr.toNat < 2 ^ addrBits) :
    ∃ bus, ∃ m' : Mapped prof addrBits pageShift, new prof addrBits pageShift = .ok bus ∧
      run (Board.step v prof Mapped.host) ⟨cpu, ⟨⟨bus, heap, none⟩, []⟩, lines⟩ events =
        .ok (answers, ⟨t.cpu, ⟨m', t.bus.log⟩, t.lines⟩) ∧
      m'.fault = none ∧ m'.heap = t.bus.bus.memory.cells := by
  obtain ⟨bus, built, refines⟩ := new_refines prof bits shift heap
  obtain ⟨m', ran', refines', clean⟩ := @run_shows prof addrBits pageShift v _ t events answers
    ⟨bus, heap, none⟩ bits shift ⟨refines, rfl⟩ fits ran t.bus.log (List.nil_append _).symm inside
  exact ⟨bus, m', built, ran', clean, refines'.cells.symm⟩

def swapEvents : List Event :=
  -- A bank of ROM at $F000 that the host swaps for RAM in the middle of a program.
  [.host (.mapRam (.idx 0) ⟨0, 4096⟩), .host (.mapRom (.at_ 0xF000) ⟨4096, 4096⟩), .step, .step,
    .host (.mapRam (.at_ 0xF000) ⟨4096, 4096⟩), .setNmi true, .step]

set_option maxRecDepth 20000 in
theorem board_refines_swap : ∃ answers t bus, ∃ m' : Mapped .debug 16 12,
    new .debug 16 12 = .ok bus ∧ run (Board.step .nes .debug Mapped.host)
      ⟨.new, ⟨⟨bus, fun _ => 0xEA, none⟩, []⟩, Lines.none⟩ swapEvents = .ok (answers, t) ∧
    t.bus.bus = m' ∧ m'.fault = none := by
  have fits : ∀ call, .host call ∈ swapEvents → call.Fits 16 12 := by
    intro call mem
    simp only [swapEvents, List.mem_cons, Event.host.injEq, reduceCtorEq, List.not_mem_nil, or_false,
      false_or] at mem
    rcases mem with rfl | rfl | rfl
    · exact ⟨(by decide : 0 < 2 ^ (16 - 12)), rfl⟩
    · exact ⟨trivial, rfl⟩
    · exact ⟨trivial, rfl⟩
  obtain ⟨answers, t, ran, log⟩ : ∃ answers t, run (Board.step .nes .debug PagedBus.host)
      ⟨.new, ⟨(⟨⟨fun _ => none, fun _ => 0xEA, 0⟩⟩ : PagedBus 16 12), []⟩, Lines.none⟩ swapEvents =
        .ok (answers, t) ∧ t.bus.log.map (·.addr) = [0, 1, 1] := ⟨_, _, rfl, rfl⟩
  have inside : Profile.debug = .debug → ∀ a ∈ t.bus.log, a.addr.toNat < 2 ^ 16 := by
    intro _ a mem
    have there := List.mem_map_of_mem (f := (·.addr)) mem
    rw [log] at there
    simp only [List.mem_cons, List.not_mem_nil, or_false] at there
    rcases there with addr | addr | addr
    all_goals
      rw [addr]
      decide
  obtain ⟨bus, m', built, ran', clean, -⟩ :=
    board_refines (by decide : 16 ≤ 24) (by decide : 12 < 16) .new (fun _ => 0xEA) Lines.none fits ran inside
  exact ⟨answers, _, bus, m', built, ran', rfl, clean⟩

end Board

/-! ## Bytes that no RAM page shows -/

structure Guards (P : Nat → Prop) (heap : Heap) (m : Mapped prof addrBits pageShift) : Prop where
  apart : ∀ (i : Nat) page, m.bus.pages[i]? = some page → page.kind = .ram →
    ∀ off < 2 ^ pageShift, ¬ P (page.ptr + off)
  same : ∀ c, P c → m.heap c = heap c

namespace Guards
variable {P : Nat → Prop} {heap : Heap} {m : Mapped prof addrBits pageShift}

theorem failed (guards : Guards P heap m) (fault : PageFault) : Guards P heap (m.failed fault) :=
  ⟨guards.apart, guards.same⟩

theorem read (guards : Guards P heap m) (addr : U32) (vda vpa : Bool) :
    Guards P heap (Bus.read m addr vda vpa).2 := by
  cases read : m.bus.read prof m.heap addr vda vpa with
  | error fault =>
      simp only [Bus.read, read]
      exact guards.failed fault
  | ok r =>
      rw [Mapped.read_eq read]
      refine ⟨?_, guards.same⟩
      simp only [FastMapBus.read, bind_eq_ok] at read
      obtain ⟨-, -, page, -, read⟩ := read
      split at read
      all_goals
        cases read
        exact guards.apart

theorem write (shift : pageShift < 32) (guards : Guards P heap m) (addr : U32) (data : U8)
    (vda vpa : Bool) : Guards P heap (Bus.write m addr data vda vpa) := by
  cases write : m.bus.write prof m.heap addr data vda vpa with
  | error fault =>
      simp only [Bus.write, write]
      exact guards.failed fault
  | ok r =>
      rw [Mapped.write_eq write]
      simp only [FastMapBus.write, bind_eq_ok] at write
      obtain ⟨-, -, page, found, write⟩ := write
      split at write
      · next ram =>
          cases write
          refine ⟨guards.apart, fun c holds => ?_⟩
          have entry : m.bus.pages[pageIndex addrBits pageShift addr]? = some page := by
            simp only [FastMapBus.page] at found
            split at found
            · next eq =>
                cases found
                exact eq
            · cases found
          have off : (addr &&& pageMask pageShift).toNat < 2 ^ pageShift := by
            rw [offset_eq shift]
            exact Nat.mod_lt _ (Nat.two_pow_pos _)
          have other : c ≠ page.ptr + (addr &&& pageMask pageShift).toNat := by
            rintro rfl
            exact guards.apart _ page entry ram _ off holds
          exact (Function.update_of_ne other _ _).trans (guards.same c holds)
      all_goals
        cases write
        exact ⟨guards.apart, guards.same⟩

theorem setPage (guards : Guards P heap m) {i : Nat} {page : Page}
    (apart : page.kind = .ram → ∀ off < 2 ^ pageShift, ¬ P (page.ptr + off))
    {bus : FastMapBus addrBits pageShift} (set : m.bus.setPage i page = .ok bus) :
    Guards P heap ({ m with bus } : Mapped prof addrBits pageShift) := by
  simp only [FastMapBus.setPage] at set
  split at set
  · cases set
    refine ⟨fun j page' entry => ?_, guards.same⟩
    simp only [Vector.getElem?_set] at entry
    split at entry
    · cases entry
      exact apart
    · exact guards.apart j page' entry
  · cases set

theorem mapped (guards : Guards P heap m) (page : Page) {call : HostCall}
    (apart : page.kind = .ram → ∀ off < 2 ^ pageShift, ¬ P (page.ptr + off))
    (maps : ∀ r, serve prof (m.bus, m.heap) call = .ok r →
      ∃ i bus, m.bus.setPage i page = .ok bus ∧ r = (none, bus, m.heap)) :
    Guards P heap (m.host call).2 := by
  cases served : serve prof (m.bus, m.heap) call with
  | error fault =>
      simp only [Mapped.host, served]
      exact guards.failed fault
  | ok r =>
      obtain ⟨i, bus, set, rfl⟩ := maps r served
      simp only [Mapped.host, served]
      exact guards.setPage apart set

theorem host (shift : pageShift < 32) (guards : Guards P heap m) {call : HostCall}
    (apart : ∀ target slice, call = .mapRam target slice →
      ∀ off < 2 ^ pageShift, ¬ P (slice.ptr + off)) : Guards P heap (m.host call).2 := by
  cases call with
  | mapRam target slice =>
      refine guards.mapped ⟨slice.ptr, .ram⟩ (fun _ => apart target slice rfl) fun r served => ?_
      cases target <;>
        simp only [serve, mapRamPageAt, mapRamPageIdx, bind_eq_ok, pure_eq, Except.ok.injEq] at served <;>
        obtain ⟨bus, ⟨-, -, -, -, set⟩, rfl⟩ := served <;> exact ⟨_, bus, set, rfl⟩
  | mapRom target slice =>
      refine guards.mapped ⟨slice.ptr, .rom⟩ (fun ram => by cases ram) fun r served => ?_
      cases target <;>
        simp only [serve, mapRomPageAt, mapRomPageIdx, bind_eq_ok, pure_eq, Except.ok.injEq] at served <;>
        obtain ⟨bus, ⟨-, -, -, -, set⟩, rfl⟩ := served <;> exact ⟨_, bus, set, rfl⟩
  | mapOpen target =>
      refine guards.mapped .default (fun ram => by cases ram) fun r served => ?_
      cases target <;>
        simp only [serve, mapOpenPageAt, mapOpenPageIdx, bind_eq_ok, pure_eq, Except.ok.injEq] at served <;>
        obtain ⟨bus, ⟨-, -, set⟩, rfl⟩ := served <;> exact ⟨_, bus, set, rfl⟩
  | read addr vda vpa =>
      have same : (m.host (.read addr vda vpa)).2 = (Bus.read m addr vda vpa).2 := by
        simp only [Mapped.host, serve, Bus.read]
        cases m.bus.read prof m.heap addr vda vpa with
        | error | ok => rfl
      rw [same]
      exact guards.read addr vda vpa
  | write addr data vda vpa =>
      have same : (m.host (.write addr data vda vpa)).2 = Bus.write m addr data vda vpa := by
        simp only [Mapped.host, serve, Bus.write]
        cases m.bus.write prof m.heap addr data vda vpa with
        | error | ok => rfl
      rw [same]
      exact guards.write shift addr data vda vpa
  | drive value => exact ⟨guards.apart, guards.same⟩

end Guards

namespace Board
variable {v : Variant} {s t : Board (Mapped prof addrBits pageShift)} {events : List Event}
  {answers : List Answer}

theorem run_guards (shift : pageShift < 32) {P : Nat → Prop} {heap : Heap}
    (guards : Guards P heap s.bus.bus) (apart : ∀ target slice,
      .host (.mapRam target slice) ∈ events → ∀ off < 2 ^ pageShift, ¬ P (slice.ptr + off))
    (ran : run (Board.step v prof Mapped.host) s events = .ok (answers, t)) :
    Guards P heap t.bus.bus := by
  induction events generalizing s answers with
  | nil =>
      cases ran
      exact guards
  | cons event events ih =>
      obtain ⟨answer, u, rest, step, tail, rfl⟩ := run_cons_ok ran
      refine ih ?_ (fun target slice mem => apart target slice (List.mem_cons_of_mem _ mem)) tail
      cases event with
      | host call =>
          obtain ⟨-, rfl⟩ := Prod.mk.inj (Except.ok.inj ((step_host _ s call).symm.trans step))
          refine guards.host shift fun target slice eq => apart target slice ?_
          rw [eq]
          exact List.mem_cons_self
      | setLines | setIrq | setNmi | setRdy =>
          cases step
          exact guards
      | step =>
          simp only [Board.step, bind_eq_ok, Prod.exists] at step
          obtain ⟨exit, cpu, bus, stepped, eq⟩ := step
          cases eq
          exact Cpu6502.step_keeps (I := fun r : Recorder (Mapped prof addrBits pageShift) =>
            Guards P heap r.bus) (fun r addr vda vpa guards => guards.read addr vda vpa)
            (fun r addr data vda vpa guards => guards.write shift addr data vda vpa) guards stepped

/-- ROM stays as it is, whatever the program, the build and the host do, unless a page maps the same
bytes as RAM. -/
theorem board_protects (shift : pageShift < 32) (heap : Heap) (cpu : Cpu6502) (lines : Lines)
    {bus : FastMapBus addrBits pageShift} (built : new prof addrBits pageShift = .ok bus)
    {P : Nat → Prop} (apart : ∀ target slice, .host (.mapRam target slice) ∈ events →
      ∀ off < 2 ^ pageShift, ¬ P (slice.ptr + off))
    (ran : run (Board.step v prof Mapped.host) ⟨cpu, ⟨⟨bus, heap, none⟩, []⟩, lines⟩ events =
      .ok (answers, t)) {c : Nat} (rom : P c) : t.bus.bus.heap c = heap c := by
  have start : Guards P heap (⟨bus, heap, none⟩ : Mapped prof addrBits pageShift) := by
    refine ⟨fun i page entry ram => ?_, fun _ _ => rfl⟩
    simp only [new, bind_eq_ok, pure_eq, Except.ok.injEq] at built
    obtain ⟨-, -, -, -, rfl⟩ := built
    obtain ⟨-, rfl⟩ : i < _ ∧ Page.default = page := by simpa [Vector.getElem?_replicate] using entry
    cases ram
  exact (run_guards shift start apart ran).same c rom

def staHeap : Heap :=
  -- STA $F000, where the ROM is.
  fun c => if c = 0 then 0x8D else if c = 1 then 0 else if c = 2 then 0xF0 else 0xEA

def staEvents : List Event :=
  [.host (.mapRam (.idx 0) ⟨0, 4096⟩), .host (.mapRom (.at_ 0xF000) ⟨4096, 4096⟩)] ++
    List.replicate 4 .step

set_option maxRecDepth 20000 in
theorem board_protects_sta : ∃ answers, ∃ t : Board (Mapped .release 16 12),
    run (Board.step .nes .release Mapped.host)
      ⟨.new, ⟨⟨⟨.replicate _ .default, .default⟩, staHeap, none⟩, []⟩, Lines.none⟩ staEvents =
        .ok (answers, t) ∧
    t.bus.log.map (·.addr) = [0, 1, 2, 0xF000] ∧ t.bus.bus.heap 4096 = 0xEA := by
  have apart : ∀ target slice, .host (.mapRam target slice) ∈ staEvents →
      ∀ off < 2 ^ 12, ¬ (4096 ≤ slice.ptr + off ∧ slice.ptr + off < 8192) := by
    intro target slice mem off lt
    simp only [staEvents, List.replicate, List.cons_append, List.nil_append, List.mem_cons,
      Event.host.injEq, HostCall.mapRam.injEq, reduceCtorEq, List.not_mem_nil, or_false] at mem
    obtain ⟨-, rfl⟩ := mem
    change ¬ (4096 ≤ 0 + off ∧ 0 + off < 8192)
    omega
  obtain ⟨answers, t, ran, log⟩ : ∃ answers, ∃ t : Board (Mapped .release 16 12),
      run (Board.step .nes .release Mapped.host)
        ⟨.new, ⟨⟨⟨.replicate _ .default, .default⟩, staHeap, none⟩, []⟩, Lines.none⟩ staEvents =
          .ok (answers, t) ∧ t.bus.log.map (·.addr) = [0, 1, 2, 0xF000] := ⟨_, _, rfl, rfl⟩
  exact ⟨answers, t, ran, log, @board_protects .release 16 12 .nes t staEvents answers (by decide) staHeap
    .new Lines.none _ rfl (fun c => 4096 ≤ c ∧ c < 8192) apart ran 4096 (by decide)⟩

end Board

end

/-! ## Nothing but RAM -/

section
variable {prof : Profile} {pageShift : Nat} {base : Nat → Nat}

/-- Each address has a byte of its own behind the pages, and it is the one of the simple bus. -/
def Spreads (base : Nat → Nat) (r : Recorder SimpleBus) (m : Mapped prof 16 pageShift) : Prop :=
  ∃ memory, Refines m.bus m.heap memory ∧ memory.Flat (split pageShift) (place pageShift base) ∧
    (r.bus.ram = fun addr => m.heap (place pageShift base addr)) ∧ m.fault = none

theorem Spreads.clean {r : Recorder SimpleBus} {m : Mapped prof 16 pageShift} (spreads : Spreads base r m) :
    m.fault = none := by
  obtain ⟨-, -, -, -, clean⟩ := spreads
  exact clean

theorem split_wraps (shift : pageShift < 16) (addr : U32) : split pageShift (addr.setWidth 16) =
    (addr.toNat % 2 ^ 16 / 2 ^ pageShift, addr.toNat % 2 ^ pageShift) := by
  rw [split, BitVec.toNat_setWidth, Nat.mod_mod_of_dvd _ (Nat.pow_dvd_pow 2 shift.le)]

theorem spreads_stands_in (shift : pageShift < 16) :
    StandsIn (@Spreads prof pageShift base) (Decodes prof 16) where
  read := by
    rintro ⟨⟨ram⟩, log⟩ m addr vda vpa ⟨memory, refines, flat, same, clean⟩ inside
    replace inside : prof = .debug → addr.toNat < 2 ^ 16 := inside
    replace same : ram = fun addr => m.heap (place pageShift base addr) := same
    obtain ⟨data, bus, read, memory', next, refines'⟩ :=
      refines.read_any (by decide) shift inside vda vpa
    have step := flat.read (addr.setWidth 16)
    rw [split_wraps shift, next] at step
    obtain ⟨here, rfl⟩ := Prod.mk.inj step
    rw [Mapped.read_eq read]
    refine ⟨?_, _, refines', ⟨flat.window, flat.apart⟩, same, clean⟩
    rw [refines.cells] at here
    rw [Option.some.inj here]
    exact (congrFun same (addr.setWidth 16)).symm
  write := by
    rintro ⟨⟨ram⟩, log⟩ m addr data vda vpa ⟨memory, refines, flat, same, clean⟩ inside
    replace inside : prof = .debug → addr.toNat < 2 ^ 16 := inside
    replace same : ram = fun addr => m.heap (place pageShift base addr) := same
    obtain ⟨heap, bus, write, memory', next, refines'⟩ :=
      refines.write_any (by decide) shift inside data vda vpa
    have step := flat.write (addr.setWidth 16) data
    rw [split_wraps shift, next] at step
    obtain ⟨-, rfl⟩ := Prod.mk.inj step
    rw [Mapped.write_eq write]
    refine ⟨_, refines', ⟨flat.window, flat.apart⟩, ?_, clean⟩
    change Function.update ram (addr.setWidth 16) data = fun addr => heap (place pageShift base addr)
    rw [← refines'.cells, flat.update, refines.cells, same]

theorem spreads_mapped (shift : pageShift < 16) {bus : FastMapBus 16 pageShift}
    (mapped : ∀ page < 2 ^ (16 - pageShift), bus.pages[page]? = some ⟨base page, .ram⟩)
    (apart : Apart (2 ^ (16 - pageShift)) pageShift base) (heap : Heap) (log : List Access) :
    Spreads base ⟨⟨fun addr => heap (place pageShift base addr)⟩, log⟩
      (⟨bus, heap, none⟩ : Mapped prof 16 pageShift) := by
  let memory : Memory Nat Nat Nat U8 := ⟨fun i => bus.pages[i]?.bind shown, heap, bus.opened.last⟩
  have refines : Refines bus heap memory :=
    ⟨fun i p entry => congrArg (Option.bind · shown) entry, rfl, rfl⟩
  have flat : memory.Flat (split pageShift) (place pageShift base) :=
    flat_of_apart shift (fun page lt => congrArg (Option.bind · shown) (mapped page lt)) apart
  exact ⟨memory, refines, flat, rfl, rfl⟩

/-- On pages of RAM with bytes of their own, as the functional tests map them, the core runs as on a
`SimpleBus`, in a release build even past the end of the address space. -/
theorem runs_on_ram (shift : pageShift < 16) {bus : FastMapBus 16 pageShift}
    (mapped : ∀ page < 2 ^ (16 - pageShift), bus.pages[page]? = some ⟨base page, .ram⟩)
    (apart : Apart (2 ^ (16 - pageShift)) pageShift base) {v : Variant} {cpu : Cpu6502} {heap : Heap}
    {log : List Access} {cycles : List Lines} {exits : List StepExit}
    {t : Cpu6502 × Recorder SimpleBus}
    (ran : run (Cpu6502.busCycle v prof) (cpu, ⟨⟨fun addr => heap (place pageShift base addr)⟩, log⟩)
      cycles = .ok (exits, t))
    (inside : prof = .debug → ∀ a ∈ t.2.log, a.addr.toNat < 2 ^ 16) :
    ∃ m' : Mapped prof 16 pageShift, run (Cpu6502.busCycle v prof) (cpu,
        (⟨⟨bus, heap, none⟩, log⟩ : Recorder (Mapped prof 16 pageShift))) cycles =
          .ok (exits, (t.1, ⟨m', t.2.log⟩)) ∧
      m'.fault = none ∧ ∀ addr, m'.heap (place pageShift base addr) = t.2.bus.ram addr := by
  obtain ⟨accesses, eq⟩ := Cpu6502.run_logged ran
  replace eq : t.2.log = log ++ accesses := eq
  have heeds : Heeds (Decodes prof 16) log accesses := heeds_of_all fun a mem debug =>
    inside debug a (eq ▸ List.mem_append_right _ mem)
  obtain ⟨m', ran', memory', -, -, same, clean⟩ :=
    Cpu6502.run_stands_in (@spreads_stands_in prof pageShift base shift)
      (spreads_mapped shift mapped apart heap log) ran eq heeds log
  refine ⟨m', eq ▸ ran', clean, fun addr => ?_⟩
  rw [same]

def buffer : FastMapBus 16 12 :=
  -- One buffer of 64 KiB, page after page.
  ⟨.ofFn fun page => ⟨page * 4096, .ram⟩, .default⟩

theorem buffer_pages : ∀ page < 2 ^ (16 - 12), buffer.pages[page]? = some ⟨page * 4096, .ram⟩ := by
  intro page lt
  have inside : page < 16 := lt
  simp [buffer, inside]

theorem buffer_apart : Apart (2 ^ (16 - 12)) 12 fun page => page * 4096 := by
  intro i _ j _ other k small l small'
  dsimp only
  omega

set_option maxRecDepth 20000 in
theorem runs_on_ram_buffer : ∃ exits t, ∃ m' : Mapped .debug 16 12,
    run (Cpu6502.busCycle .nmos6502 .debug)
      (.new, (⟨⟨buffer, Board.staHeap, none⟩, []⟩ : Recorder (Mapped .debug 16 12)))
        (List.replicate 4 Lines.none) = .ok (exits, (t, ⟨m', [.read 0 false true 0x8D,
          .read 1 false true 0, .read 2 false true 0xF0, .write 0xF000 0 true false]⟩)) ∧
    m'.fault = none := by
  obtain ⟨exits, t, ran, log⟩ : ∃ exits t, run (Cpu6502.busCycle .nmos6502 .debug)
      (.new, (⟨⟨fun addr => Board.staHeap (place 12 (fun page => page * 4096) addr)⟩, []⟩ : Recorder SimpleBus))
        (List.replicate 4 Lines.none) = .ok (exits, t) ∧ t.2.log = [.read 0 false true 0x8D,
          .read 1 false true 0, .read 2 false true 0xF0, .write 0xF000 0 true false] :=
    ⟨_, _, rfl, rfl⟩
  have inside : Profile.debug = .debug → ∀ a ∈ t.2.log, a.addr.toNat < 2 ^ 16 := by
    rw [log]
    simp [Access.addr]
  obtain ⟨m', ran', clean, -⟩ :=
    runs_on_ram (by decide : 12 < 16) buffer_pages buffer_apart ran inside
  rw [log] at ran'
  exact ⟨exits, t.1, m', ran', clean⟩

end

end Rs65x
