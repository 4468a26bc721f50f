import Rs65x.Lib.Ring
import Rs65x.Proof.Returns

/-!
# The stack as a ring
-/

namespace Rs65x
open Alu Fallible Machine Ring Words

def pushOpcodes (v : Variant) : List U8 :=
  if v = .nmos6502 ∨ v = .nes then [0x48, 0x08] else [0x48, 0x08, 0xDA, 0x5A]

def pullOpcodes (v : Variant) : List U8 :=
  if v = .nmos6502 ∨ v = .nes then [0x68, 0x28] else [0x68, 0x28, 0xFA, 0x7A]

set_option maxRecDepth 20000 in
theorem decode_push (v : Variant) : ∀ op ∈ pushOpcodes v, v.decode op ∈
    [⟨.pha, .stack, .write⟩, ⟨.php, .stack, .write⟩, ⟨.phx, .stack, .write⟩, ⟨.phy, .stack, .write⟩] := by
  cases v <;> decide

set_option maxRecDepth 20000 in
theorem decode_pull (v : Variant) : ∀ op ∈ pullOpcodes v,
    op = 0x68 ∧ v.decode op = ⟨.pla, .stack, .read⟩ ∨ op = 0x28 ∧ v.decode op = ⟨.plp, .stack, .read⟩ ∨
    op = 0xFA ∧ v.decode op = ⟨.plx, .stack, .read⟩ ∨ op = 0x7A ∧ v.decode op = ⟨.ply, .stack, .read⟩ := by
  cases v <;> decide

/-- Page 1 as a stack on a ring. -/
def Arch.ring (s : Arch) : Stack 8 U8 := ⟨s.s, fun sp => s.ram (stackAddr sp)⟩

namespace Arch
variable (s : Arch)

theorem ring_push (value : U8) : (s.push value).ring = s.ring.push value := by
  have cells : (fun sp => Function.update s.ram (stackAddr s.s) value (stackAddr sp)) =
      Function.update (fun sp => s.ram (stackAddr sp)) s.s value := by
    funext sp
    simp only [Function.update_apply, stackAddr_inj]
  exact congrArg (Stack.mk (s.s - 1)) cells

theorem hiByte_stackAddr (sp : U8) : hiByte (stackAddr sp) = 0x01 := by
  have all : ∀ sp : U8, hiByte (stackAddr sp) = 0x01 := by decide
  exact all sp

theorem ring_drop : s.drop.ring = s.ring.drop := rfl

theorem ring_peek : s.ring.peek = s.top := rfl

end Arch

namespace Cpu6502

def Delivers (op : U8) (cpu : Cpu6502) (byte : U8) : Prop :=
  if op = 0x68 then cpu.a = byte
  else if op = 0xFA then cpu.x = byte
  else if op = 0x7A then cpu.y = byte
  else cpu.p = pulledStatus byte

/-- At a boundary with the same S and memory. All the rest may have changed. -/
structure Between (v : Variant) (s t : Cpu6502 × Recorder SimpleBus) : Prop where
  boundary : t.1.AtBoundary v
  sp : t.1.s = s.1.s
  ram : t.2.bus.ram = s.2.bus.ram

/-- Push instructions, with the bytes that they wrote, the last one first. -/
inductive Pushes (v : Variant) (prof : Profile) (s : Cpu6502 × Recorder SimpleBus) :
    List U8 → Cpu6502 × Recorder SimpleBus → Prop
  | nil : Pushes v prof s [] s
  | push {written : List U8} {t t' u : Cpu6502 × Recorder SimpleBus} {addr : U16} {byte : U8} :
      Pushes v prof s written t → Between v t t' → code t' ∈ pushOpcodes v →
      Carries v prof .opcodeFetch t' u →
      Access.writes u.2.log = Access.writes t'.2.log ++ [(addr, byte)] →
      Pushes v prof s (byte :: written) u

/-- Pull instructions, with their opcodes and the cores after them. -/
inductive Pulls (v : Variant) (prof : Profile) : Cpu6502 × Recorder SimpleBus →
    List (U8 × Cpu6502) → Cpu6502 × Recorder SimpleBus → Prop
  | nil {t : Cpu6502 × Recorder SimpleBus} : Pulls v prof t [] t
  | pull {t t' u w : Cpu6502 × Recorder SimpleBus} {pulled : List (U8 × Cpu6502)} :
      Between v t t' → code t' ∈ pullOpcodes v → Carries v prof .opcodeFetch t' u →
      Pulls v prof u pulled w → Pulls v prof t ((code t', u.1) :: pulled) w

section
variable {v : Variant} {prof : Profile} {s t u : Cpu6502 × Recorder SimpleBus}

theorem push_turned (s : Cpu6502 × Recorder SimpleBus) (mem : code s ∈ pushOpcodes v) : ∃ value e,
    Exec.Turns v.flavor ((s.1.arch s.2.bus.ram).opened v s.2.log) (v.emission (code s)) 2 e [] ∧
    e.arch = { (s.1.arch s.2.bus.ram).push value with pc := s.1.pc + 1 } ∧
    Access.writes e.bus.log = Access.writes s.2.log ++ [(Arch.stackAddr s.1.s, value)] ∧
    (v.decode (code s)).addressMode = .stack ∧ (v.decode (code s)).memoryAction = .write ∧
    (v.decode (code s)).mnemonic ≠ .adc ∧ (v.decode (code s)).mnemonic ≠ .sbc := by
  have decoded := decode_push v _ mem
  obtain ⟨mode, action, value, stored⟩ : (v.decode (code s)).addressMode = .stack ∧
      (v.decode (code s)).memoryAction = .write ∧ ∃ value,
      (v.decode (code s)).mnemonic.stored s.1.a s.1.x s.1.y s.1.p = some value := by
    simp only [List.mem_cons, List.not_mem_nil, or_false] at decoded
    rcases decoded with eq | eq | eq | eq <;> rw [eq] <;> exact ⟨rfl, rfl, _, rfl⟩
  obtain ⟨e, turns, arch, writes⟩ := Exec.turns_stack_write v (s.1.arch s.2.bus.ram) (code s)
    (s.2.log ++ [(s.1.arch s.2.bus.ram).opcodeRead]) mode stored
  rw [Arch.opcodeRead, Access.writes_read] at writes
  have other := @Arch.not_arith v (code s) (by rw [action]; decide)
  exact ⟨value, e, turns, arch, writes, mode, action, other⟩

theorem push_carries (boundary : s.1.AtBoundary v) (mem : code s ∈ pushOpcodes v)
    (carries : Carries v prof .opcodeFetch s t) {addr : U16} {byte : U8}
    (written : Access.writes t.2.log = Access.writes s.2.log ++ [(addr, byte)]) :
    t.1.s = s.1.s - 1 ∧ t.2.bus.ram = Function.update s.2.bus.ram (Arch.stackAddr s.1.s) byte := by
  obtain ⟨value, e, turns, arch, writes, mode, action, other⟩ := push_turned s mem
  have ended : Ended v (v.decode (code s)) e t :=
    carries.ended (a := s.1.arch s.2.bus.ram) boundary rfl (never_due _ other) turns
  obtain ⟨c, prev, pending, executing, rfl⟩ := ended.finished
  have idle : c.finished v.flavor (v.decode (code s)) = c := by
    rw [finished_idle _ _ (.inr (by rw [action]; decide)), completed, mode]
  have sp : c.s = s.1.s - 1 := congrArg Arch.s ((executing.arch e.bus.bus.ram).trans arch)
  have ram : e.bus.bus.ram = Function.update s.2.bus.ram (Arch.stackAddr s.1.s) value :=
    congrArg Arch.ram arch
  have same := List.append_cancel_left (written.symm.trans writes)
  rw [(Prod.mk.inj (List.cons.inj same).1).2]
  generalize c.finished v.flavor (v.decode (code s)) = d at idle ⊢
  subst idle
  exact ⟨sp, ram⟩

theorem pull_turned (s : Cpu6502 × Recorder SimpleBus) (mem : code s ∈ pullOpcodes v) : ∃ e,
    Exec.Turns v.flavor ((s.1.arch s.2.bus.ram).opened v s.2.log) (v.emission (code s)) 3 e [] ∧
    e.arch = { (s.1.arch s.2.bus.ram).drop with pc := s.1.pc + 1 } ∧
    e.scratch.op0 = (s.1.arch s.2.bus.ram).top ∧
    (v.decode (code s)).mnemonic ≠ .adc ∧ (v.decode (code s)).mnemonic ≠ .sbc := by
  obtain ⟨mode, read, other⟩ : (v.decode (code s)).addressMode = .stack ∧
      (v.decode (code s)).memoryAction = .read ∧
      (v.decode (code s)).mnemonic ≠ .adc ∧ (v.decode (code s)).mnemonic ≠ .sbc := by
    rcases decode_pull v _ mem with ⟨-, eq⟩ | ⟨-, eq⟩ | ⟨-, eq⟩ | ⟨-, eq⟩ <;> rw [eq] <;>
      exact ⟨rfl, rfl, by decide, by decide⟩
  obtain ⟨e, turns, arch, op0⟩ := Exec.turns_stack_read v (s.1.arch s.2.bus.ram) (code s)
    (s.2.log ++ [(s.1.arch s.2.bus.ram).opcodeRead]) mode read
  exact ⟨e, turns, arch, op0, other⟩

theorem finished_stack (F : Flavor) (c : Cpu6502) {op : Mnemonic} {d : Cpu6502}
    (loads : c.finishRead F .release op = .ok d) : c.finished F ⟨op, .stack, .read⟩ = d := by
  rw [finished, finishInstruction_eq, if_pos rfl, loads]
  rfl

theorem finished_pull (c : Cpu6502) {op : U8} (mem : op ∈ pullOpcodes v) :
    Delivers op (c.finished v.flavor (v.decode op)) c.scratch.op0 ∧
      (c.finished v.flavor (v.decode op)).s = c.s := by
  rcases decode_pull v op mem with ⟨rfl, eq⟩ | ⟨rfl, eq⟩ | ⟨rfl, eq⟩ | ⟨rfl, eq⟩
  · rw [eq, finished_stack _ c (d := c.loadA (zn c.scratch.op0)) rfl, Delivers, if_pos rfl]
    exact ⟨rfl, rfl⟩
  · rw [eq, finished_stack _ c rfl, Delivers, if_neg (by decide), if_neg (by decide), if_neg (by decide)]
    exact ⟨rfl, rfl⟩
  · rw [eq, finished_stack _ c (d := c.loadX (zn c.scratch.op0)) rfl, Delivers, if_neg (by decide),
      if_pos rfl]
    exact ⟨rfl, rfl⟩
  · rw [eq, finished_stack _ c (d := c.loadY (zn c.scratch.op0)) rfl, Delivers, if_neg (by decide),
      if_neg (by decide), if_pos rfl]
    exact ⟨rfl, rfl⟩

theorem pull_carries (boundary : s.1.AtBoundary v) (mem : code s ∈ pullOpcodes v)
    (carries : Carries v prof .opcodeFetch s t) :
    Delivers (code s) t.1 (s.1.arch s.2.bus.ram).top ∧ t.1.s = s.1.s + 1 ∧
      t.2.bus.ram = s.2.bus.ram := by
  obtain ⟨e, turns, arch, op0, other⟩ := pull_turned s mem
  have ended : Ended v (v.decode (code s)) e t :=
    carries.ended (a := s.1.arch s.2.bus.ram) boundary rfl (never_due _ other) turns
  obtain ⟨c, prev, pending, executing, rfl⟩ := ended.finished
  have latch : c.scratch.op0 = e.scratch.op0 := congrArg (·.scratch.op0) executing.exec
  have sp : c.s = s.1.s + 1 := congrArg Arch.s ((executing.arch e.bus.bus.ram).trans arch)
  obtain ⟨delivers, kept⟩ := finished_pull c mem
  generalize c.finished v.flavor (v.decode (code s)) = d at *
  rw [latch, op0] at delivers
  exact ⟨delivers, kept.trans sp, congrArg Arch.ram arch⟩

/-! ## The whole sequence -/

structure Stacked (s : Cpu6502 × Recorder SimpleBus) (written : List U8)
    (t : Cpu6502 × Recorder SimpleBus) : Prop where
  holds : (t.1.arch t.2.bus.ram).ring.Holds written
  sp : t.1.s + BitVec.ofNat 8 written.length = s.1.s
  outside : ∀ addr : U16, hiByte addr ≠ 0x01 → t.2.bus.ram addr = s.2.bus.ram addr

theorem Stacked.between {written : List U8} (stacked : Stacked s written t)
    (between : Between v t u) : Stacked s written u := by
  obtain ⟨holds, sp, outside⟩ := stacked
  have ring : (u.1.arch u.2.bus.ram).ring = (t.1.arch t.2.bus.ram).ring := by
    simp only [Arch.ring, arch, between.sp, between.ram]
  rw [← ring] at holds
  rw [← between.sp] at sp
  rw [← between.ram] at outside
  exact ⟨holds, sp, outside⟩

theorem Pushes.stacked {written : List U8} (pushes : Pushes v prof s written t)
    (room : written.length ≤ 256) : Stacked s written t := by
  induction pushes with
  | nil => exact ⟨trivial, by simp, fun _ _ => rfl⟩
  | @push written t t' u addr byte _ between mem carries writes ih =>
      obtain ⟨holds, sp, outside⟩ := (ih (Nat.le_of_succ_le room)).between between
      obtain ⟨sp', ram⟩ := push_carries between.boundary mem carries writes
      have ring : (u.1.arch u.2.bus.ram).ring = (t'.1.arch t'.2.bus.ram).ring.push byte := by
        rw [← Arch.ring_push, ram]
        simp only [Arch.ring, arch, sp', Arch.push]
      refine ⟨?_, ?_, ?_⟩
      · rw [ring]
        exact holds.push (Nat.lt_of_succ_le room) byte
      · rw [sp', ← sp, List.length_cons, BitVec.ofNat_add, BitVec.add_comm (BitVec.ofNat 8 _),
          ← BitVec.add_assoc]
        exact congrArg (· + _) (BitVec.sub_add_cancel _ 1)
      · intro addr other
        have apart : addr ≠ Arch.stackAddr t'.1.s := by
          rintro rfl
          exact other (Arch.hiByte_stackAddr _)
        rw [ram, Function.update_of_ne apart, outside addr other]

theorem Pulls.delivers {written : List U8} {pulled : List (U8 × Cpu6502)}
    (pulls : Pulls v prof t pulled u) (stacked : Stacked s written t)
    (same : pulled.length = written.length) :
    List.Forall₂ (fun pull byte => Delivers pull.1 pull.2 byte) pulled written ∧ Stacked s [] u := by
  induction pulls generalizing written with
  | nil =>
      obtain rfl := List.length_eq_zero_iff.1 same.symm
      exact ⟨.nil, stacked⟩
  | @pull t t' u w pulled between mem carries _ ih =>
      cases written with
      | nil => cases same
      | cons byte written =>
          obtain ⟨⟨top, holds⟩, sp, outside⟩ := stacked.between between
          obtain ⟨delivers, sp', ram⟩ := pull_carries between.boundary mem carries
          have ring : (u.1.arch u.2.bus.ram).ring = (t'.1.arch t'.2.bus.ram).ring.drop := by
            rw [← Arch.ring_drop, ram]
            simp only [Arch.ring, arch, sp', Arch.drop]
          rw [← ring] at holds
          rw [← ram] at outside
          have dropped : Stacked s written u := by
            refine ⟨holds, ?_, outside⟩
            rw [sp', ← sp, List.length_cons, BitVec.ofNat_add, BitVec.add_comm (BitVec.ofNat 8 _),
              ← BitVec.add_assoc]
            rfl
          obtain ⟨rest, emptied⟩ := ih dropped (Nat.succ.inj same)
          rw [Arch.ring_peek] at top
          exact ⟨.cons (top ▸ delivers) rest, emptied⟩

theorem stack_arrives (boundary : s.1.AtBoundary v) (calm : s.1.pendingNmi = false) (prof : Profile) :
    (code s ∈ pushOpcodes v → ∃ t byte, Carries v prof .opcodeFetch s t ∧ t.1.pendingNmi = false ∧
      Access.writes t.2.log = Access.writes s.2.log ++ [(Arch.stackAddr s.1.s, byte)]) ∧
    (code s ∈ pullOpcodes v → ∃ t, Carries v prof .opcodeFetch s t ∧ t.1.pendingNmi = false) := by
  obtain ⟨u, step, calm'⟩ := boundary.fetches calm prof s.2
  constructor
  · intro mem
    obtain ⟨value, e, turns, -, writes, -, -, other⟩ := push_turned s mem
    have course := fetch_course boundary.drained rfl step turns
    obtain ⟨t, carries, pending⟩ := course.carries step rfl (never_due _ other)
    have ended : Ended v (v.decode (code s)) e t :=
      carries.ended (a := s.1.arch s.2.bus.ram) boundary rfl (never_due _ other) turns
    obtain ⟨c, prev, nmi, executing, rfl⟩ := ended.finished
    exact ⟨_, value, carries, pending.trans calm', writes⟩
  · intro mem
    obtain ⟨e, turns, -, -, other⟩ := pull_turned s mem
    have course := fetch_course boundary.drained rfl step turns
    obtain ⟨t, carries, pending⟩ := course.carries step rfl (never_due _ other)
    exact ⟨t, carries, pending.trans calm'⟩

/-- The stack is a ring of 256 bytes: as many pulls as pushes deliver the bytes pushed, the last one
first. -/
theorem stack_ring {written : List U8} {pulled : List (U8 × Cpu6502)}
    (pushes : Pushes v prof s written t) (pulls : Pulls v prof t pulled u)
    (same : pulled.length = written.length) (room : written.length ≤ 256) :
    List.Forall₂ (fun pull byte => Delivers pull.1 pull.2 byte) pulled written ∧
    u.1.s = s.1.s ∧
    (∀ addr : U16, hiByte addr ≠ 0x01 → u.2.bus.ram addr = s.2.bus.ram addr) ∧
    -- without a request the next such instruction is carried out
    ∀ s : Cpu6502 × Recorder SimpleBus, s.1.AtBoundary v → s.1.pendingNmi = false →
      (code s ∈ pushOpcodes v → ∃ t byte, Carries v prof .opcodeFetch s t ∧ t.1.pendingNmi = false ∧
        Access.writes t.2.log = Access.writes s.2.log ++ [(Arch.stackAddr s.1.s, byte)]) ∧
      (code s ∈ pullOpcodes v → ∃ t, Carries v prof .opcodeFetch s t ∧ t.1.pendingNmi = false) := by
  obtain ⟨delivers, -, sp, outside⟩ := pulls.delivers (pushes.stacked room) same
  have back : u.1.s = s.1.s := by simpa using sp
  exact ⟨delivers, back, outside, fun s boundary calm => stack_arrives boundary calm prof⟩

end

def swapRam : U16 → U8 :=
  -- PHA, PHP, PLA, PLP at $0200.
  fun addr => if addr = 0x0200 then 0x48 else if addr = 0x0201 then 0x08
  else if addr = 0x0202 then 0x68 else if addr = 0x0203 then 0x28 else 0

def inSwap (n : Nat) : Cpu6502 × Recorder SimpleBus :=
  -- The core after so many cycles of it, with one byte of room left in front of the wrap.
  follow (busCycle .nmos6502 .release) ({ new with a := 0xC3, s := 0, pc := 0x0200 }, ⟨⟨swapRam⟩, []⟩)
    (fun _ => Lines.none) n

set_option maxRecDepth 20000 in
theorem inSwap_boundary : ∀ n ∈ [0, 3, 6, 10, 14], (inSwap n).1.AtBoundary .nmos6502 := by
  have ended : ∀ n ∈ [0, 3, 6, 10, 14], (inSwap n).1.ucycs.head = 0 ∧ (inSwap n).1.ucycs.len = 0 ∧
      ∀ i ∈ (inSwap n).1.currentInst, (inSwap n).1.extraCycleDue (Variant.flavor .nmos6502) i = false := by
    decide +kernel
  intro n mem
  obtain ⟨head, len, done⟩ := ended n mem
  exact ⟨⟨head, len⟩, done _⟩

set_option maxRecDepth 20000 in
theorem stack_ring_swap :
    Pushes .nmos6502 .release (inSwap 0) [0x34, 0xC3] (inSwap 6) ∧
    Pulls .nmos6502 .release (inSwap 6) [(0x68, (inSwap 10).1), (0x28, (inSwap 14).1)] (inSwap 14) ∧
    (inSwap 10).1.a = 0x34 ∧ (inSwap 14).1.p = pulledStatus 0xC3 ∧ (inSwap 14).1.s = 0 ∧
    (inSwap 14).2.bus.ram 0x0201 = 0x08 := by
  have stays {n : Nat} (mem : n ∈ [0, 3, 6, 10, 14]) : Between .nmos6502 (inSwap n) (inSwap n) :=
    ⟨inSwap_boundary n mem, rfl, rfl⟩
  have pushes : Pushes .nmos6502 .release (inSwap 0) [0x34, 0xC3] (inSwap 6) := by
    have pha : Carries .nmos6502 .release .opcodeFetch (inSwap 0) (inSwap 3) :=
      ⟨List.replicate 3 Lines.none, _, rfl, rfl, inSwap_boundary 3 (by decide)⟩
    have php : Carries .nmos6502 .release .opcodeFetch (inSwap 3) (inSwap 6) :=
      ⟨List.replicate 3 Lines.none, _, rfl, rfl, inSwap_boundary 6 (by decide)⟩
    have bottom : Access.writes (inSwap 3).2.log = Access.writes (inSwap 0).2.log ++ [(0x0100, 0xC3)] := by
      decide
    have top : Access.writes (inSwap 6).2.log = Access.writes (inSwap 3).2.log ++ [(0x01FF, 0x34)] := by
      decide
    exact .push (.push .nil (stays (by decide)) (by decide) pha bottom) (stays (by decide)) (by decide) php top
  have pulls : Pulls .nmos6502 .release (inSwap 6) [(0x68, (inSwap 10).1), (0x28, (inSwap 14).1)]
      (inSwap 14) := by
    have pla : Carries .nmos6502 .release .opcodeFetch (inSwap 6) (inSwap 10) :=
      ⟨List.replicate 4 Lines.none, _, rfl, rfl, inSwap_boundary 10 (by decide)⟩
    have plp : Carries .nmos6502 .release .opcodeFetch (inSwap 10) (inSwap 14) :=
      ⟨List.replicate 4 Lines.none, _, rfl, rfl, inSwap_boundary 14 (by decide)⟩
    exact .pull (stays (by decide)) (by decide) pla (.pull (stays (by decide)) (by decide) plp .nil)
  obtain ⟨delivers, sp, outside, -⟩ := stack_ring pushes pulls rfl (by decide)
  obtain ⟨a, rest⟩ := List.forall₂_cons.1 delivers
  obtain ⟨p, -⟩ := List.forall₂_cons.1 rest
  exact ⟨pushes, pulls, a, p, sp, outside _ (by decide)⟩

end Cpu6502

end Rs65x
