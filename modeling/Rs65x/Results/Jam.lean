import Rs65x.Proof.Turns

/-!
# JAM is permanent
-/

namespace Rs65x
open Fallible Machine

def jamOps : List MicroOp :=
  [.read .pc .none false, .read (.constant 0xFFFF) .none false, .read (.constant 0xFFFE) .none false,
    .read (.constant 0xFFFE) .none false,
    ⟨⟨.constant 0xFFFF, false, false, true⟩, false, .none, .jam⟩, .dummyRead .none]

def jamOpcodes : List U8 :=
  [0x02, 0x12, 0x22, 0x32, 0x42, 0x52, 0x62, 0x72, 0x92, 0xB2, 0xD2, 0xF2]

set_option maxRecDepth 20000 in
theorem decode_jam {v : Variant} (nmos : v = .nmos6502 ∨ v = .nes) :
    ∀ op ∈ jamOpcodes, v.decode op = ⟨.jam, .jam, .read⟩ := by
  rcases nmos with rfl | rfl <;> decide

theorem emission_jam {v : Variant} (nmos : v = .nmos6502 ∨ v = .nes) {op : U8}
    (jam : op ∈ jamOpcodes) : v.emission op = jamOps := by
  have emits : v.emission op = get ((v.decode op).addressMode.emitUcycs .release v.flavor.micro
    (Cpu6502.decodeContext v.flavor (v.decode op).memoryAction op)) [] := rfl
  rw [emits, decode_jam nmos op jam]
  rcases nmos with rfl | rfl
  · rfl
  · rfl

def MicroOp.idles (u : MicroOp) : Bool :=
  u.bus.read && !u.incSrc && u.localLatch = .none && (u.alu = .none || u.alu = .jam)

theorem jamOps_drop {made : Nat} (le : made ≤ 4) : ∃ u rest, jamOps.drop made = u :: rest ∧
    u.idles ∧ (if u.alu = .jam then u :: rest else rest) = jamOps.drop (min (made + 1) 4) ∧
    u ≠ .dummyRead .none ∧ (made = 4 → u.bus.addr = .constant 0xFFFF) := by
  interval_cases made
  · exact ⟨_, _, rfl, rfl, rfl, by decide, fun h => by cases h⟩
  · exact ⟨_, _, rfl, rfl, rfl, by decide, fun h => by cases h⟩
  · exact ⟨_, _, rfl, rfl, rfl, by decide, fun h => by cases h⟩
  · exact ⟨_, _, rfl, rfl, rfl, by decide, fun h => by cases h⟩
  · exact ⟨_, _, rfl, rfl, rfl, by decide, fun _ => rfl⟩

namespace Exec
variable {β : Type} [Bus β]

theorem next_idles (F : Flavor) (e : Exec β) {u : MicroOp} (idles : u.idles) (rest : List MicroOp) :
    (e.next F u rest).1.ctx = e.ctx ∧
      (e.next F u rest).2 = if u.alu = .jam then u :: rest else rest := by
  simp only [MicroOp.idles, Bool.and_eq_true, Bool.or_eq_true, decide_eq_true_eq,
    Bool.not_eq_true'] at idles
  obtain ⟨⟨⟨read, inc⟩, dest⟩, alu⟩ := idles
  have body : (e.body F u).1.ctx = e.ctx := by
    have plain : (e.prepareStore u).prepareAlu F u.alu = (e, none) := by
      rw [prepareStore, if_pos read]
      rcases alu with alu | alu <;> rw [alu] <;> rfl
    simp only [Exec.body, plain, inc, access, read, dest]
    rfl
  rcases alu with alu | alu
  · simp only [next, turn, alu]
    exact ⟨body, rfl⟩
  · simp only [next, turn, alu]
    exact ⟨body, rfl⟩

end Exec

namespace Cpu6502
variable {β : Type} [Bus β] {v : Variant} {prof : Profile} {cpu cpu' : Cpu6502}

/-- A cycle with its exit and its accesses, on the bus that the host passes in it. -/
def seenCycle (v : Variant) (prof : Profile) (cpu : Cpu6502) (input : Lines × β) :
    Except Fault ((StepExit × List Access) × Cpu6502) := do
  let (exit, cpu, r) ← cpu.step v.flavor prof input.1 (⟨input.2, []⟩ : Recorder β)
  return ((exit, r.log), cpu)

def registers (cpu : Cpu6502) : U8 × U8 × U8 × U8 × U8 × U16 :=
  (cpu.a, cpu.x, cpu.y, cpu.s, cpu.p, cpu.pc)

structure Jammed (v : Variant) (made : Nat) (cpu : Cpu6502) : Prop where
  inv : cpu.Inv v
  inst : cpu.currentInst = some ⟨.jam, .jam, .read⟩
  made_le : made ≤ 4
  live : cpu.ucycs.live = jamOps.drop made

theorem Jammed.step {made : Nat} (jammed : cpu.Jammed v made) (prof : Profile) (input : Lines × β) :
    ∃ exit log cpu', cpu.seenCycle v prof input = .ok ((exit, log), cpu') ∧
      cpu'.registers = cpu.registers ∧
      (exit = .stalled ∧ log = [] ∧ cpu'.Jammed v made ∨
        exit = .ucyc ∧ cpu'.Jammed v (min (made + 1) 4) ∧ ∃ a : Access, log = [a] ∧
          a.isRead = true ∧ (made = 4 → a.addr = 0xFFFF)) := by
  obtain ⟨inv, inst, le, live⟩ := jammed
  let e := cpu.exec ⟨.jam, .jam, .read⟩ (⟨input.2, []⟩ : Recorder β)
  cases stalls : (cpu.sampleNmi input.1).stalls input.1 with
  | true =>
      refine ⟨.stalled, [], cpu.sampleNmi input.1, ?_, rfl, .inl ⟨rfl, rfl, ?_⟩⟩
      · rw [seenCycle, step_stalls stalls]
        rfl
      · exact ⟨inv.sample input.1, inst, le, live⟩
  | false =>
      obtain ⟨u, rest, first, idles, left, -, loop⟩ := jamOps_drop le
      rw [first] at live
      obtain ⟨ctx, us⟩ := Exec.next_idles v.flavor e idles rest
      rw [left] at us
      have fits : u.alu.fixesPtr = false := by
        simp only [MicroOp.idles, Bool.and_eq_true, Bool.or_eq_true, decide_eq_true_eq] at idles
        rcases idles.2 with alu | alu <;> rw [alu] <;> rfl
      have next : e.next v.flavor u rest = ((e.next v.flavor u rest).1, jamOps.drop (min (made + 1) 4)) := by
        rw [← us]
      obtain ⟨c, executing, -, wf, live', ran⟩ := step_turn inv ⟨inst, rfl⟩ live next prof
        (.inr (Exec.fits fits)) stalls
      have more : jamOps.drop (min (made + 1) 4) ≠ [] := by
        simp [jamOps]
      rw [if_neg more] at ran
      obtain ⟨a, log, read, addr⟩ := e.next_log v.flavor u rest
      have regs : c.toCtx ⟨.jam, .jam, .read⟩ = cpu.toCtx ⟨.jam, .jam, .read⟩ :=
        (congrArg Exec.ctx executing.exec).trans ctx
      refine ⟨.ucyc, [a], c, ?_, ?_, .inr ⟨rfl, ?_, a, rfl, ?_, ?_⟩⟩
      · have ran : cpu.step v.flavor prof input.1 (⟨input.2, []⟩ : Recorder β) = _ := ran
        rw [seenCycle, ran]
        exact congrArg (fun l => Except.ok ((StepExit.ucyc, l), c)) log
      · simp only [toCtx, MicroCtx6502.mk.injEq] at regs
        obtain ⟨pc, sp, status, a, x, y, -⟩ := regs
        rw [registers, pc, sp, status, a, x, y]
        rfl
      · have inv' := (step_outcome inv ran).inv (inv.sample input.1)
        exact ⟨inv', executing.inst, by omega, live'⟩
      · simp only [MicroOp.idles, Bool.and_eq_true] at idles
        exact read.trans idles.1.1.1
      · intro four
        have plain : u.alu ≠ .specialAddOffset := by
          simp only [MicroOp.idles, Bool.and_eq_true, Bool.or_eq_true, decide_eq_true_eq] at idles
          rcases idles.2 with alu | alu <;> simp [alu]
        rw [addr, Exec.accessAddr, if_neg plain, loop four]
        rfl

theorem Jammed.run {made : Nat} (jammed : cpu.Jammed v made) (prof : Profile)
    (inputs : List (Lines × β)) :
    ∃ labels t, Machine.run (seenCycle v prof) cpu inputs = .ok (labels, t) ∧
      t.registers = cpu.registers ∧ (∃ made, t.Jammed v made) ∧
      (∀ l ∈ labels, (l.1 = .stalled ∨ l.1 = .ucyc) ∧ ∀ a ∈ l.2, a.isRead = true) ∧
      ∀ l ∈ (labels.filter (·.1 ≠ .stalled)).drop (4 - made), l.2.map (·.addr) = [0xFFFF] := by
  induction inputs generalizing cpu made with
  | nil => exact ⟨[], cpu, rfl, rfl, ⟨made, jammed⟩, by simp, by simp⟩
  | cons input inputs ih =>
      obtain ⟨exit, log, c, first, regs, there⟩ := jammed.step prof input
      rcases there with ⟨rfl, rfl, further⟩ | ⟨rfl, further, a, rfl, read, loop⟩
      · obtain ⟨labels, t, ran, regs', jammed', kinds, addrs⟩ := ih further
        refine ⟨(.stalled, []) :: labels, t, ?_, regs'.trans regs, jammed', ?_, ?_⟩
        · rw [run_cons inputs first, ran]
          rfl
        · simpa using kinds
        · simpa using addrs
      · obtain ⟨labels, t, ran, regs', jammed', kinds, addrs⟩ := ih further
        refine ⟨(.ucyc, [a]) :: labels, t, ?_, regs'.trans regs, jammed', ?_, ?_⟩
        · rw [run_cons inputs first, ran]
          rfl
        · rw [List.forall_mem_cons]
          exact ⟨⟨.inr rfl, by simpa using read⟩, kinds⟩
        · rw [List.filter_cons_of_pos (by simp)]
          rcases Nat.lt_or_eq_of_le jammed.made_le with lt | rfl
          · rw [show 4 - made = (4 - min (made + 1) 4) + 1 by omega]
            exact addrs
          · intro l mem
            rcases List.mem_cons.1 mem with rfl | mem
            · simpa using loop rfl
            · exact addrs l mem

/-- After the fetch of a JAM the core reads for ever. -/
theorem jam_permanent (nmos : v = .nmos6502 ∨ v = .nes) (drained : cpu.ucycs.Drained)
    {lines : Lines} {bus bus' : β}
    (fetch : cpu.step v.flavor prof lines bus = .ok (.opcodeFetch, cpu', bus'))
    (jam : cpu'.currentOpcode ∈ jamOpcodes) (inputs : List (Lines × β)) :
    ∃ labels t, run (seenCycle v prof) cpu' inputs = .ok (labels, t) ∧
      t.registers = cpu'.registers ∧ t.ucycs.front ≠ some (.dummyRead .none) ∧
      (∀ l ∈ labels, (l.1 = .stalled ∨ l.1 = .ucyc) ∧ ∀ a ∈ l.2, a.isRead = true) ∧
      ∀ l ∈ (labels.filter (·.1 ≠ .stalled)).drop 4, l.2.map (·.addr) = [0xFFFF] := by
  obtain ⟨exit, c, b, ran, outcome⟩ := step_drained (v := v) drained prof lines bus
  cases fetch.symm.trans ran
  have jammed : cpu'.Jammed v 0 := by
    cases outcome with
    | fetch _ _ _ _ _ _ wf live | first _ _ wf live =>
        refine ⟨fetched_inv _ wf live, ?_, Nat.zero_le 4, live.trans (emission_jam nmos jam)⟩
        exact congrArg some (decode_jam nmos _ jam)
  obtain ⟨labels, t, ran, regs, ⟨made, -, -, le, live⟩, kinds, addrs⟩ := jammed.run prof inputs
  refine ⟨labels, t, ran, regs, ?_, kinds, addrs⟩
  obtain ⟨u, rest, first, -, -, other, -⟩ := jamOps_drop le
  rw [UcycQueue.front_eq, live, first]
  exact fun same => other (Option.some.inj same)

set_option maxRecDepth 20000 in
theorem jam_permanent_new : ∃ cpu : Cpu6502,
    new.step Variant.nmos6502.flavor .debug Lines.none (⟨fun _ => 0x02⟩ : SimpleBus) =
      .ok (.opcodeFetch, cpu, ⟨fun _ => 0x02⟩) ∧
    ∀ inputs : List (Lines × SimpleBus), ∃ labels t,
      run (seenCycle .nmos6502 .debug) cpu inputs = .ok (labels, t) ∧ t.registers = cpu.registers := by
  obtain ⟨cpu, fetch, opcode⟩ : ∃ cpu : Cpu6502,
      new.step Variant.nmos6502.flavor .debug Lines.none (⟨fun _ => 0x02⟩ : SimpleBus) =
        .ok (.opcodeFetch, cpu, ⟨fun _ => 0x02⟩) ∧ cpu.currentOpcode = 0x02 := ⟨_, rfl, rfl⟩
  have jam : cpu.currentOpcode ∈ jamOpcodes := by
    rw [opcode]
    exact List.mem_cons_self
  refine ⟨cpu, fetch, fun inputs => ?_⟩
  obtain ⟨labels, t, ran, regs, -⟩ :=
    jam_permanent (.inl rfl) UcycQueue.default_drained fetch jam inputs
  exact ⟨labels, t, ran, regs⟩

end Cpu6502

end Rs65x
