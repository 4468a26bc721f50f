import Rs65x.Proof.Entry
import Rs65x.Proof.Observe

/-!
# What cannot reach an instruction

Neither the instructions before an opcode fetch nor the interrupt lines during an instruction make
a difference to it.
-/

namespace Rs65x
open Fallible Machine

namespace Cpu6502
variable {β : Type} [Bus β]

/-! ## The past -/

variable (β) in
def JustFetched (v : Variant) (prof : Profile) (op : U8) (cpu : Cpu6502) : Prop :=
  ∃ (c : Cpu6502) (lines : Lines) (bus bus' : β),
    Reaches (cycle (β := β) v prof) (fun _ _ => True) new c ∧
    c.step v.flavor prof lines (⟨bus, []⟩ : Recorder β) =
      .ok (.opcodeFetch, cpu, ⟨bus', [.read (c.pc.setWidth 32) false true op]⟩)

structure Opened (v : Variant) (op : U8) (cpu : Cpu6502) : Prop where
  inv : cpu.Inv v
  opcode : cpu.currentOpcode = op
  inst : cpu.currentInst = some (v.decode op)
  scratch : cpu.scratch = { MicroExecutor.new with memoryAction := (v.decode op).memoryAction }
  live : cpu.ucycs.live = v.emission op
  extra : cpu.extraAdcSbcCycle = false
  oldI : cpu.oldI = none

def Untouched (cpu : Cpu6502) : Prop :=
  cpu.currentInst = none → cpu.extraAdcSbcCycle = false ∧ cpu.oldI = none

theorem Outcome.untouched {v : Variant} {cpu cpu' : Cpu6502} (inv : cpu.Inv v) {lines : Lines}
    {bus bus' : β} {exit : StepExit} (outcome : Outcome v cpu lines bus exit cpu' bus')
    (untouched : cpu.Untouched) : cpu'.Untouched := by
  intro none
  cases outcome with
  | stalled => exact untouched none
  | ucyc _ inst | extraCycle _ inst => cases inst.symm.trans none
  | @last i u rest e q awake inst live next drained =>
      obtain ⟨_, _, _, _, _, eq⟩ := finished_frame inv inst e q
      rw [eq] at none
      cases inst.symm.trans none
  | interrupt | fetch | first => cases none

theorem Outcome.opened {v : Variant} {cpu cpu' : Cpu6502} {lines : Lines} {bus bus' : β}
    (inv : cpu.Inv v) (outcome : Outcome v cpu lines bus .opcodeFetch cpu' bus')
    (untouched : cpu.Untouched) :
    cpu'.Opened v (Bus.read bus (cpu.pc.setWidth 32) false true).1 := by
  have inv' := outcome.inv inv
  cases outcome with
  | fetch awake inst empty ended quiet masked wf live' => exact ⟨inv', rfl, rfl, rfl, live', rfl, rfl⟩
  | first awake inst wf live' =>
      obtain ⟨extra, oldI⟩ := untouched inst
      exact ⟨inv', rfl, rfl, rfl, live', extra, oldI⟩

theorem JustFetched.opened {v : Variant} {prof : Profile} {op : U8} {cpu : Cpu6502}
    (fetched : cpu.JustFetched β v prof op) : cpu.Opened v op := by
  obtain ⟨c, lines, bus, bus', reach, run⟩ := fetched
  have before : c.Inv v ∧ c.Untouched := by
    refine reach.invariant (P := fun c => c.Inv v ∧ c.Untouched) ⟨new_inv v, fun _ => ⟨rfl, rfl⟩⟩ ?_
    intro c input exit c' ⟨inv, untouched⟩ _ ran
    obtain ⟨_, outcome⟩ := cycle_outcome inv ran
    exact ⟨cycle_inv inv ran, outcome.untouched (inv.sample _) untouched⟩
  obtain ⟨inv, untouched⟩ := before
  have outcome := step_outcome inv run
  have opened := outcome.opened (inv.sample lines) untouched
  have log : (⟨bus', [.read (c.pc.setWidth 32) false true op]⟩ : Recorder β) =
      (Bus.read (⟨bus, []⟩ : Recorder β) (c.pc.setWidth 32) false true).2 := by
    cases outcome <;> rfl
  have same : op = (Bus.read bus (c.pc.setWidth 32) false true).1 := by
    have data := congrArg Recorder.log log
    exact (Access.read.inj (List.cons.inj data).1).2.2.2
  rw [same]
  exact opened

theorem Opened.sequencer_eq {v : Variant} {op : U8} {cpu cpu' : Cpu6502} (opened : cpu.Opened v op)
    (opened' : cpu'.Opened v op)
    (registers : cpu'.a = cpu.a ∧ cpu'.x = cpu.x ∧ cpu'.y = cpu.y ∧ cpu'.s = cpu.s ∧
      cpu'.p = cpu.p ∧ cpu'.pc = cpu.pc)
    (nmi : cpu'.prevNmi = cpu.prevNmi ∧ cpu'.pendingNmi = cpu.pendingNmi) :
    cpu'.sequencer = cpu.sequencer := by
  obtain ⟨_, opcode, inst, scratch, live, extra, oldI⟩ := opened
  obtain ⟨_, opcode', inst', scratch', live', extra', oldI'⟩ := opened'
  obtain ⟨a, x, y, s, p, pc⟩ := registers
  obtain ⟨prev, pending⟩ := nmi
  simp only [sequencer, withQueue, Sequencer.mk.injEq]
  refine ⟨?_, live'.trans live.symm⟩
  rw [a, x, y, s, p, pc, prev, pending, opcode', inst', scratch', extra', oldI', opcode, inst,
    scratch, extra, oldI]

/-- After the fetch of one opcode, nothing but the registers, the NMI flags and the memory decides
on what the host sees. -/
theorem fetch_forgets {v : Variant} {prof : Profile} {op : U8} {cpu cpu' : Cpu6502}
    (fetched : cpu.JustFetched β v prof op) (fetched' : cpu'.JustFetched β v prof op)
    (registers : cpu'.a = cpu.a ∧ cpu'.x = cpu.x ∧ cpu'.y = cpu.y ∧ cpu'.s = cpu.s ∧
      cpu'.p = cpu.p ∧ cpu'.pc = cpu.pc)
    (nmi : cpu'.prevNmi = cpu.prevNmi ∧ cpu'.pendingNmi = cpu.pendingNmi)
    (bus : β) (lines : List Lines) :
    (run (observe v prof) (cpu', (⟨bus, []⟩ : Recorder β)) lines).map (·.1) =
      (run (observe v prof) (cpu, ⟨bus, []⟩) lines).map (·.1) := by
  have opened := fetched.opened
  have opened' := fetched'.opened
  have same := opened.sequencer_eq opened' registers nmi
  rw [(Sequencer.run_observe_agrees prof opened'.inv ⟨bus, []⟩ lines).labels,
    (Sequencer.run_observe_agrees prof opened.inv ⟨bus, []⟩ lines).labels, same]

def loopRam : U16 → U8 :=
  -- JMP $0000 at $0000.
  fun addr => if addr = 0 then 0x4C else 0

def looping (n : Nat) : Cpu6502 :=
  follow (cycle .nmos6502 .debug) new (fun _ => (Lines.none, (⟨loopRam⟩ : SimpleBus))) n

set_option maxRecDepth 20000 in
theorem looping_fetch {n : Nat} (small : n = 0 ∨ n = 3) : ∃ cpu : Cpu6502,
    cpu.JustFetched SimpleBus .nmos6502 .debug 0x4C ∧
    (cpu.a, cpu.x, cpu.y, cpu.s, cpu.p, cpu.pc, cpu.prevNmi, cpu.pendingNmi) =
      (0, 0, 0, 0xFD, 0x24, 1, false, false) ∧
    busCycle .nmos6502 .debug (looping n, (⟨⟨loopRam⟩, []⟩ : Recorder SimpleBus)) Lines.none =
      .ok (.opcodeFetch, cpu, ⟨⟨loopRam⟩, [.read 0 false true 0x4C]⟩) := by
  have reach : Reaches (cycle .nmos6502 .debug) (fun _ _ => True) new (looping n) :=
    follow_reaches new _ n
  rcases small with rfl | rfl
  · exact ⟨_, ⟨looping 0, Lines.none, ⟨loopRam⟩, _, reach, rfl⟩, rfl, rfl⟩
  · exact ⟨_, ⟨looping 3, Lines.none, ⟨loopRam⟩, _, reach, rfl⟩, rfl, rfl⟩

theorem fetch_forgets_loop : ∃ cpu cpu' : Cpu6502,
    busCycle .nmos6502 .debug (looping 0, (⟨⟨loopRam⟩, []⟩ : Recorder SimpleBus)) Lines.none =
      .ok (.opcodeFetch, cpu, ⟨⟨loopRam⟩, [.read 0 false true 0x4C]⟩) ∧
    busCycle .nmos6502 .debug (looping 3, (⟨⟨loopRam⟩, []⟩ : Recorder SimpleBus)) Lines.none =
      .ok (.opcodeFetch, cpu', ⟨⟨loopRam⟩, [.read 0 false true 0x4C]⟩) ∧
    ∀ lines, cpu'.seen .nmos6502 .debug loopRam lines = cpu.seen .nmos6502 .debug loopRam lines := by
  obtain ⟨cpu, fetched, eq, first⟩ := looping_fetch (.inl rfl)
  obtain ⟨cpu', fetched', eq', second⟩ := looping_fetch (.inr rfl)
  refine ⟨cpu, cpu', first, second, fun lines => ?_⟩
  have same := eq'.trans eq.symm
  simp only [Prod.mk.injEq] at same
  obtain ⟨a, x, y, s, p, pc, prev, pending⟩ := same
  exact fetch_forgets fetched fetched' ⟨a, x, y, s, p, pc⟩ ⟨prev, pending⟩ ⟨loopRam⟩ lines

/-! ## The interrupt lines -/

/-- Equal, the bus included, but perhaps for the two NMI flags. -/
def NmiApart (s t : Cpu6502 × Recorder β) : Prop :=
  ∃ prev pending, t = (s.1.withNmi prev pending, s.2)

theorem boundary_of_idle {v : Variant} {cpu : Cpu6502} (inv : cpu.Inv v)
    (idle : cpu.currentInst = none) : cpu.AtBoundary v where
  drained := inv.idle idle
  ended inst := by cases idle.symm.trans inst

theorem step_withNmi {v : Variant} {prof : Profile} {cpu : Cpu6502} (inv : cpu.Inv v)
    (inside : ¬ cpu.AtBoundary v) {lines lines' : Lines} (rdy : lines'.rdy = lines.rdy)
    (prev pending : Bool) (r : Recorder β) :
    Agree NmiApart (busCycle v prof (cpu, r) lines)
      (busCycle v prof (cpu.withNmi prev pending, r) lines') := by
  have same : (((cpu.withNmi prev pending).sampleNmi lines').stalls lines') =
      (cpu.sampleNmi lines).stalls lines := by
    rw [stalls, stalls, rdy]
    rfl
  cases stalls : (cpu.sampleNmi lines).stalls lines with
  | true =>
      rw [busCycle, step_stalls stalls, busCycle, step_stalls (same.trans stalls)]
      exact ⟨rfl, _, _, rfl⟩
  | false =>
      cases inst : cpu.currentInst with
      | none => exact absurd (boundary_of_idle inv inst) inside
      | some i =>
          have inst' : (cpu.withNmi prev pending).currentInst = some i := inst
          have awake' := same.trans stalls
          by_cases drained : cpu.ucycs.Drained
          · have due : cpu.extraCycleDue v.flavor i = true := by
              by_contra ended
              exact inside (.of_inst drained inst (Bool.eq_false_iff.2 ended))
            have drained' : (cpu.withNmi prev pending).ucycs.Drained := drained
            have due' : (cpu.withNmi prev pending).extraCycleDue v.flavor i = true := due
            have run := step_due drained inst due stalls prof r
            have run' := step_due drained' inst' due' awake' prof r
            rw [busCycle, run, busCycle, run']
            exact ⟨rfl, _, _, rfl⟩
          · obtain ⟨u, rest, live⟩ := List.exists_cons_of_ne_nil (mt inv.wf.live_eq_nil.1 drained)
            obtain ⟨q, pop, -⟩ := inv.wf.pop_cons live
            have inv' : (cpu.withNmi prev pending).Inv v := ⟨inv.wf, inv.idle, inv.inst⟩
            have pop' : (cpu.withNmi prev pending).ucycs.pop = (some u, q) := pop
            have same : (cpu.withNmi prev pending).exec i r = cpu.exec i r := rfl
            rw [busCycle, step_executes inv inst stalls pop, busCycle,
              step_executes inv' inst' awake' pop', same]
            rcases (cpu.exec i r).execUcyc v.flavor prof u q with fault | ⟨e, q⟩
            · exact rfl
            · have some : ((cpu.sampleNmi lines).restore e q).currentInst.isSome :=
                Option.isSome_iff_exists.2 ⟨i, inst⟩
              have moved := finished_withNmi v.flavor some i
                ((cpu.withNmi prev pending).sampleNmi lines').prevNmi
                ((cpu.withNmi prev pending).sampleNmi lines').pendingNmi
              simp only [ok_bind]
              cases q.isEmpty with
              | false => exact ⟨rfl, _, _, rfl⟩
              | true => exact ⟨rfl, _, _, congrArg (Prod.mk · e.bus) moved⟩

theorem run_withNmi {v : Variant} {prof : Profile} {cpu : Cpu6502} (inv : cpu.Inv v)
    {r : Recorder β} {lines lines' : List Lines}
    (rdy : List.Forall₂ (fun i j : Lines => j.rdy = i.rdy) lines lines')
    (flight : InFlight v prof (cpu, r) lines) :
    Agree NmiApart (run (busCycle v prof) (cpu, r) lines) (run (busCycle v prof) (cpu, r) lines') := by
  let R (s t : Cpu6502 × Recorder β) : Prop := s.1.Inv v ∧ NmiApart s t
  have steps : ∀ (s t : Cpu6502 × Recorder β) (i j : Lines), R s t → ¬ s.1.AtBoundary v →
      j.rdy = i.rdy → Agree R (busCycle v prof s i) (busCycle v prof t j) := by
    rintro ⟨cpu, r⟩ _ i j ⟨inv, prev, pending, rfl⟩ inside same
    have step := @step_withNmi _ _ v prof _ inv inside _ _ same prev pending r
    exact step.mono fun _ _ _ ran apart => ⟨(step_outcome inv ran).inv (inv.sample i), apart⟩
  have start : R (cpu, r) (cpu, r) := ⟨inv, cpu.prevNmi, cpu.pendingNmi, rfl⟩
  exact (run_agree_throughout steps rdy start flight).mono fun _ _ _ _ related => related.2

/-- Off a boundary the IRQ and NMI lines change nothing but the NMI flags. An interrupt sequence that
has begun makes its own pushes and reads its own vector. -/
theorem lines_cannot_disturb {v : Variant} {prof : Profile} {cpu : Cpu6502}
    (reach : cpu.Reachable β v prof) (r : Recorder β) :
    (∀ lines lines' : List Lines, List.Forall₂ (fun i j : Lines => j.rdy = i.rdy) lines lines' →
      InFlight v prof (cpu, r) lines →
      Agree NmiApart (run (busCycle v prof) (cpu, r) lines) (run (busCycle v prof) (cpu, r) lines')) ∧
    ∀ first exit begun r', cpu.step v.flavor prof first r = .ok (exit, begun, r') →
      (∀ type, exit = .interrupt type → ∃ lo hi, ∀ lines, InFlight v prof (begun, r') lines →
        ∃ exits t, run (busCycle v prof) (begun, r') lines = .ok (exits, t) ∧
          t.2.log = r'.log ++
            (entryLog begun.pc begun.s begun.p type.vector lo hi).take (exits.count .ucyc) ∧
          (t.1.AtBoundary v ↔ exits.count .ucyc = 5)) ∧
      (exit = .opcodeFetch → begun.currentOpcode = 0 → ∃ data lo hi, ∀ lines,
        InFlight v prof (begun, r') lines →
        ∃ exits t, run (busCycle v prof) (begun, r') lines = .ok (exits, t) ∧
          t.2.log = r'.log ++ (.read (begun.pc.setWidth 32) false true data ::
            entryLog (begun.pc + 1) begun.s (begun.p ||| Psr.B6502 ||| Psr.U6502) 0xFFFE
              lo hi).take (exits.count .ucyc) ∧
          (t.1.AtBoundary v ↔ exits.count .ucyc = 6)) := by
  have inv := reach.inv
  constructor
  · intro lines lines' rdy flight
    exact run_withNmi inv rdy flight
  · intro first exit begun r' ran
    have outcome := step_outcome inv ran
    constructor
    · rintro type rfl
      obtain ⟨lo, hi, e, course, log⟩ := outcome.entry (inv.sample first)
      exact ⟨lo, hi, fun lines flight => course.accesses log flight⟩
    · rintro rfl brk
      obtain ⟨data, lo, hi, e, course, log⟩ := outcome.brk (inv.sample first) brk
      exact ⟨data, lo, hi, fun lines flight => course.accesses log flight⟩

set_option maxRecDepth 20000 in
theorem lines_cannot_disturb_lda : ∃ cpu : Cpu6502, ¬ cpu.AtBoundary .nmos6502 ∧
    Agree NmiApart
      (run (busCycle .nmos6502 .debug) (cpu, (⟨⟨fun _ => 0xAD⟩, []⟩ : Recorder SimpleBus)) [Lines.none])
      (run (busCycle .nmos6502 .debug) (cpu, ⟨⟨fun _ => 0xAD⟩, []⟩) [⟨true, true, true⟩]) := by
  obtain ⟨cpu, ran, running⟩ : ∃ cpu : Cpu6502,
      new.step Variant.nmos6502.flavor .debug Lines.none (⟨⟨fun _ => 0xAD⟩, []⟩ : Recorder SimpleBus) =
        .ok (.opcodeFetch, cpu, ⟨⟨fun _ => 0xAD⟩, [.read 0 false true 0xAD]⟩) ∧ cpu.ucycs.len = 3 :=
    ⟨_, rfl, rfl⟩
  have called : new.call .nmos6502 .debug (.step Lines.none (⟨fun _ => 0xAD⟩ : SimpleBus)) =
      .ok ([.read 0 false true 0xAD], cpu) := by
    rw [call, ran]
    rfl
  have inside : ¬ cpu.AtBoundary .nmos6502 := by
    intro boundary
    have empty := boundary.drained.2
    omega
  have reach : cpu.Reachable SimpleBus .nmos6502 .debug := .tail .refl trivial called
  refine ⟨cpu, inside, (lines_cannot_disturb reach _).1 _ _ ?_ ⟨inside, fun _ _ _ => trivial⟩⟩
  exact .cons rfl .nil

end Cpu6502

end Rs65x
