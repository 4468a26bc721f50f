import Rs65x.Results.Buses
import Rs65x.Results.Emulation
import Rs65x.Results.Status

/-!
# Interrupts that a program does not notice
-/

namespace Rs65x
open Fallible Machine Words Cpu6502

namespace Arch

structure Alike (P : U16 → Prop) (a b : Arch) : Prop where
  registers : { b with ram := a.ram } = a
  memory : ∀ addr, ¬ P addr → b.ram addr = a.ram addr

/-- A handler that was entered at `c` is at its RTI, with all put back but the memory with `P`. -/
structure Restored (P : U16 → Prop) (c d : Arch) : Prop where
  rti : d.opcode = 0x40
  a : d.a = c.a
  x : d.x = c.x
  y : d.y = c.y
  s : d.s = c.s
  pulled : d.top = c.top ∧ d.drop.top = c.drop.top ∧ d.drop.drop.top = c.drop.drop.top
  memory : ∀ addr, ¬ P addr → d.ram addr = c.ram addr

/-- The core is at `b` and a program alone would be at `a`. What begins from here are `k` instructions of
the program, which read nothing with `P`, and handlers, each of which restores all where it is entered. -/
inductive Served (v : Variant) (P : U16 → Prop) : Arch → Arch → List StepExit → Nat → Prop
  | done {a b : Arch} : Served v P a b [] 0
  | program {a b : Arch} {starts : List StepExit} {k : Nat}
      (jamless : (v.decode a.opcode).addressMode ≠ .jam)
      (apart : ∀ addr, (true, addr) ∈ a.accessesOf v .opcodeFetch → ¬ P addr)
      (rest : Served v P (a.execute v) (b.execute v) starts k) :
      Served v P a b (.opcodeFetch :: starts) (k + 1)
  | handler {a b : Arch} {type : InterruptType} {starts : List StepExit} {k n : Nat}
      (restored : Restored P (b.interrupted v b.pc b.p type.vector)
        ((execute v)^[n] (b.interrupted v b.pc b.p type.vector)))
      (rest : Served v P a (b.afterAll v (.interrupt type :: List.replicate (n + 1) .opcodeFetch)) starts k) :
      Served v P a b (.interrupt type :: (List.replicate (n + 1) .opcodeFetch ++ starts)) k

end Arch

def SameOff (P : U16 → Prop) (r : Recorder SimpleBus) (bus : SimpleBus) : Prop :=
  ∀ addr, ¬ P addr → bus.ram addr = r.bus.ram addr

def ReadsOff (P : U16 → Prop) (_log : List Access) (access : Access) : Prop :=
  ∀ addr, access.brief = (true, addr) → ¬ P addr

namespace Cpu6502

def holding (a : Arch) : Cpu6502 :=
  { new with a := a.a, x := a.x, y := a.y, s := a.s, p := a.p, pc := a.pc }

theorem holding_inv (v : Variant) (a : Arch) : (holding a).Inv v := .of_fresh UcycQueue.default_drained rfl

theorem holding_boundary (v : Variant) (a : Arch) : (holding a).AtBoundary v :=
  .of_fresh UcycQueue.default_drained rfl

end Cpu6502

section
variable {v : Variant} {prof : Profile} {P : U16 → Prop} {a b : Arch}

theorem sameOff_stands_in (P : U16 → Prop) : StandsIn (SameOff P) (ReadsOff P) where
  read := by
    intro r bus addr vda vpa same apart
    exact ⟨same _ (apart _ rfl), same⟩
  write := by
    intro r bus addr data vda vpa same _ addr' outside
    change Function.update bus.ram _ _ _ = Function.update r.bus.ram _ _ _
    rw [Function.update_apply, Function.update_apply, same addr' outside]

theorem Arch.executes_alone (jamless : (v.decode a.opcode).addressMode ≠ .jam) : ∃ cycles exits t,
    run (busCycle v .release) (holding a, (⟨⟨a.ram⟩, []⟩ : Recorder SimpleBus)) cycles = .ok (exits, t) ∧
      t.1.AtBoundary v ∧ t.1.arch t.2.bus.ram = a.execute v ∧
      exits.filter (·.starts) = [.opcodeFetch] ∧
      t.2.log.map Access.brief = a.accessesOf v .opcodeFetch := by
  have once : ∀ j < 1, (v.decode ((Arch.execute v)^[j] a).opcode).addressMode ≠ .jam := by
    intro j lt
    obtain rfl := Nat.lt_one_iff.1 lt
    exact jamless
  obtain ⟨exits, t, ran, there, effect, starts, log⟩ :=
    @run_instructions v (holding a, ⟨⟨a.ram⟩, []⟩) a (fun _ => Lines.none) (holding_inv v a)
      (holding_boundary v a) (fun marked => Bool.noConfusion marked.2) rfl (fun _ => ⟨rfl, rfl, rfl⟩) rfl
      1 once
  refine ⟨_, exits, t, ran, there, effect, starts, ?_⟩
  replace log : t.2.log.map Access.seen = a.eventsOfAll v [.opcodeFetch] := log
  rw [← Access.seen_accesses, log, Arch.eventsOfAll_access, Arch.accessesOfAll, Arch.accessesOfAll,
    List.append_nil]

theorem Arch.execute_phantom (jamless : (v.decode a.opcode).addressMode ≠ .jam)
    (phantom : Phantom a.p) : Phantom (a.execute v).p := by
  obtain ⟨cycles, exits, t, ran, -, effect, -⟩ := executes_alone jamless
  have calm : ∀ exit ∈ exits, True := fun _ _ => trivial
  have kept := run_keeps (P := fun s : Cpu6502 × Recorder SimpleBus => s.1.Inv v ∧ Phantom s.1.p)
    ran calm ⟨holding_inv v a, phantom⟩ ?_
  · rw [← effect]
    exact kept.2
  · rintro s line exit t ⟨inv, phantom⟩ step -
    have outcome := step_outcome inv step
    exact ⟨outcome.inv (inv.sample line), outcome.phantom phantom⟩

theorem Arch.execute_alike (alike : Alike P a b) (jamless : (v.decode a.opcode).addressMode ≠ .jam)
    (apart : ∀ addr, (true, addr) ∈ a.accessesOf v .opcodeFetch → ¬ P addr) :
    Alike P (a.execute v) (b.execute v) := by
  obtain ⟨cycles, exits, t, ran, there, effect, starts, log⟩ := executes_alone jamless
  have heeds : Heeds (ReadsOff P) [] t.2.log := by
    refine heeds_of_all fun access mem addr read => apart addr ?_
    rw [← log, ← read]
    exact List.mem_map_of_mem mem
  -- the same core on the memory of `b`
  have memories : SameOff P (⟨⟨a.ram⟩, []⟩ : Recorder SimpleBus) ⟨b.ram⟩ := alike.memory
  obtain ⟨⟨ram⟩, ran', same⟩ :=
    run_stands_in (sameOff_stands_in P) memories ran (List.nil_append _).symm heeds []
  have start : HeadsFor v False b [] (holding a, (⟨⟨b.ram⟩, []⟩ : Recorder SimpleBus)) :=
    .rest (holding_boundary v a) (fun time => time.elim)
      (congrArg (fun c : Arch => { c with ram := b.ram }) alike.registers).symm fun time => time.elim
  have effect' := ((start.run ran').boundary there).1
  rw [(all_of_starts b exits).1, starts] at effect'
  replace effect' : t.1.arch ram = b.execute v := effect'
  rw [← effect, ← effect']
  exact ⟨rfl, same⟩

namespace Arch

theorem rti_executes {c : Arch} (rti : c.opcode = 0x40) :
    c.execute v = c.perform ⟨.rti, .jump .fromInterrupt, .read⟩ := by
  simp only [execute, rti, decode_rti]

theorem rti_frame (c : Arch) : (c.perform ⟨.rti, .jump .fromInterrupt, .read⟩).a = c.a ∧
    (c.perform ⟨.rti, .jump .fromInterrupt, .read⟩).x = c.x ∧
    (c.perform ⟨.rti, .jump .fromInterrupt, .read⟩).y = c.y ∧
    (c.perform ⟨.rti, .jump .fromInterrupt, .read⟩).ram = c.ram := ⟨rfl, rfl, rfl, rfl⟩

theorem entered_frame (b : Arch) (q : U16) (status : U8) (vector : U16) :
    (b.entered q status vector).a = b.a ∧ (b.entered q status vector).x = b.x ∧
      (b.entered q status vector).y = b.y := ⟨rfl, rfl, rfl⟩

theorem entered_ram (stack : ∀ sp, P (stackAddr sp)) (b : Arch) (q : U16) (status : U8) (vector : U16)
    {addr : U16} (outside : ¬ P addr) : (b.entered q status vector).ram addr = b.ram addr := by
  have other (sp : U8) : addr ≠ stackAddr sp := by
    rintro rfl
    exact outside (stack sp)
  simp only [entered, push, Function.update_of_ne (other _)]

theorem Restored.returns {c d : Arch} (restored : Restored P c d) :
    (d.perform ⟨.rti, .jump .fromInterrupt, .read⟩).pc =
        (c.perform ⟨.rti, .jump .fromInterrupt, .read⟩).pc ∧
      (d.perform ⟨.rti, .jump .fromInterrupt, .read⟩).s =
        (c.perform ⟨.rti, .jump .fromInterrupt, .read⟩).s ∧
      (d.perform ⟨.rti, .jump .fromInterrupt, .read⟩).p =
        (c.perform ⟨.rti, .jump .fromInterrupt, .read⟩).p := by
  obtain ⟨first, second, third⟩ := restored.pulled
  have pc : fromLeBytes d.drop.top d.drop.drop.top = fromLeBytes c.drop.top c.drop.drop.top := by
    rw [second, third]
  have sp : d.s + 1 + 1 + 1 = c.s + 1 + 1 + 1 := by rw [restored.s]
  exact ⟨pc, sp, congrArg pulledStatus first⟩

theorem pulledStatus_phantom : ∀ p : U8, Phantom p → pulledStatus p = p := by
  unfold Phantom
  decide

theorem Restored.serves {type : InterruptType} {n : Nat}
    (restored : Restored P (b.interrupted v b.pc b.p type.vector)
      ((execute v)^[n] (b.interrupted v b.pc b.p type.vector)))
    (phantom : Phantom a.p) (stack : ∀ sp, P (stackAddr sp)) (alike : Alike P a b) :
    Alike P a (b.afterAll v (.interrupt type :: List.replicate (n + 1) .opcodeFetch)) := by
  let c : Arch := { b.entered b.pc b.p type.vector with p := handlerStatus v.flavor b.p }
  let d : Arch := (execute v)^[n] c
  replace restored : Restored P c d := restored
  have returned : b.afterAll v (.interrupt type :: List.replicate (n + 1) .opcodeFetch) =
      d.perform ⟨.rti, .jump .fromInterrupt, .read⟩ := by
    have all : b.afterAll v (.interrupt type :: List.replicate (n + 1) .opcodeFetch) =
        c.afterAll v (List.replicate (n + 1) .opcodeFetch) := rfl
    rw [all, afterAll_replicate, Function.iterate_succ_apply']
    exact rti_executes restored.rti
  obtain ⟨back, sp, p⟩ := rti_entered b b.pc b.p type.vector (handlerStatus v.flavor b.p)
  obtain ⟨back', sp', p'⟩ := restored.returns
  rw [pulledStatus_phantom b.p (congrArg Arch.p alike.registers ▸ phantom)] at p
  obtain ⟨a₁, x₁, y₁⟩ := entered_frame b b.pc b.p type.vector
  obtain ⟨a₂, x₂, y₂, ram₂⟩ := rti_frame d
  have fields : ∀ t : Arch, t.a = b.a → t.x = b.x → t.y = b.y → t.s = b.s → t.p = b.p → t.pc = b.pc →
      ({ t with ram := a.ram } : Arch) = { b with ram := a.ram } := by
    rintro ⟨⟩ rfl rfl rfl rfl rfl rfl
    rfl
  rw [returned]
  constructor
  · refine (fields _ (a₂.trans (restored.a.trans a₁)) (x₂.trans (restored.x.trans x₁))
      (y₂.trans (restored.y.trans y₁)) (sp'.trans sp) (p'.trans p) (back'.trans back)).trans
      alike.registers
  · intro addr outside
    have entry : c.ram addr = b.ram addr := entered_ram stack b b.pc b.p type.vector outside
    rw [ram₂, restored.memory addr outside, entry, alike.memory addr outside]

theorem Served.alike {starts : List StepExit} {k : Nat} (served : Served v P a b starts k)
    (phantom : Phantom a.p) (stack : ∀ sp, P (stackAddr sp)) (alike : Alike P a b) :
    Alike P ((Arch.execute v)^[k] a) (b.afterAll v starts) := by
  induction served with
  | done => exact alike
  | program jamless apart rest ih =>
      exact ih (execute_phantom jamless phantom) (execute_alike alike jamless apart)
  | @handler a b type starts k n restored rest ih =>
      have split : b.afterAll v (.interrupt type :: (List.replicate (n + 1) .opcodeFetch ++ starts)) =
          (b.afterAll v (.interrupt type :: List.replicate (n + 1) .opcodeFetch)).afterAll v starts := by
        rw [← List.cons_append]
        exact List.foldl_append
      rw [split]
      exact ih phantom (restored.serves phantom stack alike)

end Arch

namespace Cpu6502

/-- Whenever they are called, handlers that put everything back, but for cells that the program does
not read, are invisible to it. -/
theorem interrupts_transparent {s t : Cpu6502 × Recorder SimpleBus} {cycles : List Lines}
    {exits : List StepExit} {k : Nat} (reach : s.1.Reachable SimpleBus v prof)
    (boundary : s.1.AtBoundary v) (ran : run (busCycle v prof) s cycles = .ok (exits, t))
    (there : t.1.AtBoundary v) (stack : ∀ sp, P (Arch.stackAddr sp))
    (served : Arch.Served v P (s.1.arch s.2.bus.ram) (s.1.arch s.2.bus.ram)
      (exits.filter (·.starts)) k) :
    Arch.Alike P ((Arch.execute v)^[k] (s.1.arch s.2.bus.ram)) (t.1.arch t.2.bus.ram) := by
  have start : HeadsFor v False (s.1.arch s.2.bus.ram) [] s :=
    .rest boundary (fun time => time.elim) rfl fun time => time.elim
  have effect := ((start.run ran).boundary there).1
  rw [(all_of_starts _ exits).1] at effect
  rw [effect]
  exact served.alike reach.phantom stack ⟨rfl, fun _ _ => rfl⟩

def tickRam : U16 → U8 :=
  -- LDA #5, NOPs, and for NMI a counter of 16 bits: INC $10, BNE past INC $11, RTI. It stands at $00FF.
  fun addr => if addr = 0 then 0xA9 else if addr = 1 then 5
  else if addr = 0x10 then 0xFF else if addr = 0x11 then 0
  else if addr = 0x03EA then 0xE6 else if addr = 0x03EB then 0x10
  else if addr = 0x03EC then 0xD0 else if addr = 0x03ED then 2
  else if addr = 0x03EE then 0xE6 else if addr = 0x03EF then 0x11 else if addr = 0x03F0 then 0x40
  else if addr = 0xFFFB then 3 else 0xEA

def TickCells (addr : U16) : Prop := addr.toNat / 256 = 1 ∨ addr = 0x10 ∨ addr = 0x11

instance (addr : U16) : Decidable (TickCells addr) := inferInstanceAs (Decidable (_ ∨ _))

theorem tick_stack : ∀ sp, TickCells (Arch.stackAddr sp) := by decide

def tickEntry (b : Arch) : Arch := b.interrupted .nes b.pc b.p 0xFFFA

def tickFirst : Arch :=
  -- Behind LDA.
  (new.arch tickRam).execute .nes

def tickCarried : Arch where
  -- Behind the handler, which has carried.
  a := 5
  x := 0
  y := 0
  s := 0xFD
  p := 0x24
  pc := 2
  ram := Function.update (Function.update (Function.update (Function.update (Function.update tickRam
    0x01FD 0) 0x01FC 2) 0x01FB 0x24) 0x10 0) 0x11 1

def tickSecond : Arch := tickCarried.execute .nes

set_option maxRecDepth 20000 in
theorem tick_carries : Arch.Restored TickCells (tickEntry tickFirst)
    ((Arch.execute .nes)^[3] (tickEntry tickFirst)) := by
  have ram : ((Arch.execute .nes)^[3] (tickEntry tickFirst)).ram =
      Function.update (Function.update (tickEntry tickFirst).ram 0x10 0) 0x11 1 := rfl
  refine ⟨by decide, by decide, by decide, by decide, by decide, by decide, fun addr outside => ?_⟩
  rw [ram, Function.update_of_ne fun eq => outside (.inr (.inr eq)),
    Function.update_of_ne fun eq => outside (.inr (.inl eq))]

set_option maxRecDepth 20000 in
theorem tick_carried : tickFirst.afterAll .nes (.interrupt .nmi :: List.replicate 4 .opcodeFetch) =
    tickCarried := rfl

set_option maxRecDepth 20000 in
theorem tick_counts : Arch.Restored TickCells (tickEntry tickSecond)
    ((Arch.execute .nes)^[2] (tickEntry tickSecond)) := by
  have ram : ((Arch.execute .nes)^[2] (tickEntry tickSecond)).ram =
      Function.update (tickEntry tickSecond).ram 0x10 1 := rfl
  refine ⟨by decide, by decide, by decide, by decide, by decide, by decide, fun addr outside => ?_⟩
  rw [ram, Function.update_of_ne fun eq => outside (.inr (.inl eq))]

def tickLines : List Lines :=
  -- An NMI edge in the last cycle of LDA, and one in the last cycle of the NOP.
  Lines.none :: List.replicate 25 { Lines.none with nmi := true } ++
    Lines.none :: List.replicate 21 { Lines.none with nmi := true }

def tickStarts : List StepExit :=
  .opcodeFetch :: .interrupt .nmi :: (List.replicate 4 .opcodeFetch ++
    .opcodeFetch :: .interrupt .nmi :: (List.replicate 3 .opcodeFetch ++ []))

theorem tick_apart {a : Arch} {op operand : U16}
    (reads : a.accessesOf .nes .opcodeFetch = [(true, op), (true, operand)])
    (op_apart : ¬ TickCells op) (operand_apart : ¬ TickCells operand) :
    ∀ addr, (true, addr) ∈ a.accessesOf .nes .opcodeFetch → ¬ TickCells addr := by
  rw [reads]
  intro addr mem
  simp only [List.mem_cons, Prod.mk.injEq, true_and, List.not_mem_nil, or_false] at mem
  rcases mem with rfl | rfl
  · exact op_apart
  · exact operand_apart

set_option maxRecDepth 20000 in
theorem tick_served : Arch.Served .nes TickCells (new.arch tickRam) (new.arch tickRam) tickStarts 2 := by
  have lda : (new.arch tickRam).accessesOf .nes .opcodeFetch = [(true, 0), (true, 1)] := by decide
  have nop : tickFirst.accessesOf .nes .opcodeFetch = [(true, 2), (true, 3)] := by decide
  apply Arch.Served.program (by decide) (tick_apart lda (by decide) (by decide))
  apply @Arch.Served.handler .nes TickCells tickFirst tickFirst .nmi _ 1 3 tick_carries
  rw [tick_carried]
  apply Arch.Served.program (by decide) (tick_apart nop (by decide) (by decide))
  exact @Arch.Served.handler .nes TickCells (tickFirst.execute .nes) tickSecond .nmi [] 0 2 tick_counts .done

set_option maxRecDepth 20000 in
theorem interrupts_transparent_tick : ∃ exits t,
    run (busCycle .nes .debug) (new, (⟨⟨tickRam⟩, []⟩ : Recorder SimpleBus)) tickLines = .ok (exits, t) ∧
    exits.filter (·.starts) = tickStarts ∧ t.2.bus.ram 0x10 = 1 ∧ t.2.bus.ram 0x11 = 1 ∧
    Arch.Alike TickCells ((Arch.execute .nes)^[2] (new.arch tickRam)) (t.1.arch t.2.bus.ram) := by
  have observed : (run (busCycle .nes .debug) (new, (⟨⟨tickRam⟩, []⟩ : Recorder SimpleBus)) tickLines >>=
      fun r => .ok (decide (r.1.filter (·.starts) = tickStarts ∧ r.2.1.ucycs.head = 0 ∧
        r.2.1.ucycs.len = 0 ∧ r.2.1.currentInst = some (Variant.decode .nes 0x40) ∧
        r.2.2.bus.ram 0x10 = 1 ∧ r.2.2.bus.ram 0x11 = 1))) = .ok true := by
    decide +kernel
  obtain ⟨⟨exits, t⟩, ran, seen⟩ := bind_eq_ok.1 observed
  obtain ⟨starts, head, len, inst, low, high⟩ := of_decide_eq_true (Except.ok.inj seen)
  have drained : t.1.ucycs.Drained := ⟨head, len⟩
  have there : t.1.AtBoundary .nes := .of_inst drained inst rfl
  have reach : new.Reachable SimpleBus .nes .debug := .refl
  exact ⟨exits, t, ran, starts, low, high, interrupts_transparent (s := (new, ⟨⟨tickRam⟩, []⟩)) reach
    (holding_boundary .nes (new.arch tickRam)) ran there tick_stack (starts ▸ tick_served)⟩

end Cpu6502

end

end Rs65x
