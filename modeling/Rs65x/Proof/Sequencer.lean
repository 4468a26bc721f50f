import Rs65x.Proof.Step

/-!
# The core with its queue as a list

The sequencer is the core without the storage of its queue: the live micro-ops are a list beside a
core whose own queue is empty. A step of the core refines a step of the sequencer.
-/

namespace Rs65x
open Fallible

namespace Cpu6502

def withQueue (cpu : Cpu6502) (q : UcycQueue) : Cpu6502 := { cpu with ucycs := q }

theorem finished_withQueue (F : Flavor) {cpu : Cpu6502} (inst : cpu.currentInst.isSome)
    (i : Instruction) (q : UcycQueue) :
    (cpu.withQueue q).finished F i = (cpu.finished F i).withQueue q :=
  finished_carries F inst i fun h => { h with ucycs := q }

end Cpu6502

/-- The micro-ops that are live, and the rest of the core. -/
structure Sequencer where
  cpu : Cpu6502
  live : List MicroOp

def Cpu6502.sequencer (cpu : Cpu6502) : Sequencer := ⟨cpu.withQueue .default, cpu.ucycs.live⟩

namespace Sequencer
open Cpu6502
variable {β : Type} [Bus β]

def stalls (s : Sequencer) (lines : Lines) : Bool :=
  !lines.rdy && match s.live.head? with
    | none => true
    | some u => s.cpu.currentInst.isNone || u.bus.read

def boundary (v : Variant) (cpu : Cpu6502) (i : Instruction) (lines : Lines) (bus : β) :
    StepExit × Sequencer × β :=
  if cpu.extraCycleDue v.flavor i then
    (.extraCycle, ⟨{ cpu with extraAdcSbcCycle := true }, []⟩,
      (Bus.read bus (cpu.extraAddr v.flavor i) false true).2)
  else
    let (data, bus) := Bus.read bus (cpu.pc.setWidth 32) false true
    let interrupt (type : InterruptType) : StepExit × Sequencer × β :=
      (.interrupt type, ⟨cpu.settled.interrupted v data .default, interruptTail type.vector⟩, bus)
    if cpu.pendingNmi then interrupt .nmi
    else if lines.irq && !cpu.irqDisable then interrupt .irq
    else (.opcodeFetch, ⟨cpu.settled.fetched v data .default, v.emission data⟩, bus)

def execute (v : Variant) (cpu : Cpu6502) (i : Instruction) (u : MicroOp) (rest : List MicroOp)
    (bus : β) : StepExit × Sequencer × β :=
  let (e, us) := (cpu.exec i bus).next v.flavor u rest
  let cpu := cpu.restore e .default
  (.ucyc, ⟨if us.isEmpty then cpu.finished v.flavor i else cpu, us⟩, e.bus)

def advance (v : Variant) (prof : Profile) (s : Sequencer) (lines : Lines) (bus : β) :
    Except Fault (StepExit × Sequencer × β) :=
  match s.cpu.currentInst, s.live with
  | none, _ =>
      let (data, bus) := Bus.read bus (s.cpu.pc.setWidth 32) false true
      .ok (.opcodeFetch, ⟨s.cpu.fetched v data .default, v.emission data⟩, bus)
  | some i, [] => .ok (boundary v s.cpu i lines bus)
  | some i, u :: rest =>
      if prof = .debug ∧ u.alu = .fixPtr ∧ s.cpu.scratch.ptr = 0xFF00 then .error .overflow
      else .ok (execute v s.cpu i u rest bus)

section
variable {v : Variant} {prof : Profile} {s : Sequencer} {lines : Lines} {bus : β} {i : Instruction}

theorem advance_first (inst : s.cpu.currentInst = none) :
    s.advance v prof lines bus = .ok (.opcodeFetch,
      ⟨s.cpu.fetched v (Bus.read bus (s.cpu.pc.setWidth 32) false true).1 .default,
        v.emission (Bus.read bus (s.cpu.pc.setWidth 32) false true).1⟩,
      (Bus.read bus (s.cpu.pc.setWidth 32) false true).2) := by
  simp only [advance, inst]

theorem advance_boundary (inst : s.cpu.currentInst = some i) (live : s.live = []) :
    s.advance v prof lines bus = .ok (boundary v s.cpu i lines bus) := by
  simp only [advance, inst, live]

theorem advance_execute (inst : s.cpu.currentInst = some i) {u : MicroOp} {rest : List MicroOp}
    (live : s.live = u :: rest)
    (fits : ¬ (prof = .debug ∧ u.alu = .fixPtr ∧ s.cpu.scratch.ptr = 0xFF00)) :
    s.advance v prof lines bus = .ok (execute v s.cpu i u rest bus) := by
  simp only [advance, inst, live, if_neg fits]

end

def sampleNmi (s : Sequencer) (lines : Lines) : Sequencer := ⟨s.cpu.sampleNmi lines, s.live⟩

def step (v : Variant) (prof : Profile) (s : Sequencer) (lines : Lines) (bus : β) :
    Except Fault (StepExit × Sequencer × β) :=
  if s.stalls lines then .ok (.stalled, s.sampleNmi lines, bus)
  else (s.sampleNmi lines).advance v prof lines bus

end Sequencer

namespace Cpu6502
variable {β : Type} [Bus β]

theorem sequencer_stalls (cpu : Cpu6502) (lines : Lines) :
    cpu.sequencer.stalls lines = cpu.stalls lines := by
  rw [Sequencer.stalls, stalls, nextCycleRead, UcycQueue.front_eq]
  rfl

theorem fetched_sequencer (cpu : Cpu6502) (v : Variant) (op : U8) {q : UcycQueue}
    {us : List MicroOp} (live : q.live = us) :
    (cpu.fetched v op q).sequencer = ⟨cpu.sequencer.cpu.fetched v op .default, us⟩ := by
  subst live
  rfl

theorem interrupted_sequencer (cpu : Cpu6502) (v : Variant) (data : U8) {q : UcycQueue}
    {us : List MicroOp} (live : q.live = us) :
    (cpu.interrupted v data q).sequencer =
      ⟨cpu.sequencer.cpu.interrupted v data .default, us⟩ := by
  subst live
  rfl

theorem Outcome.advance {v : Variant} {cpu cpu' : Cpu6502} (inv : cpu.Inv v) {lines : Lines}
    {bus bus' : β} {exit : StepExit} (outcome : Outcome v cpu lines bus exit cpu' bus')
    (awake : cpu.stalls lines = false) {prof : Profile}
    (small : prof = .release ∨ cpu.ptrOverflows = false) :
    cpu.sequencer.advance v prof lines bus = .ok (exit, cpu'.sequencer, bus') := by
  have fits {u : MicroOp} {rest : List MicroOp} (live : cpu.ucycs.live = u :: rest) :
      ¬ (prof = .debug ∧ u.alu = .fixPtr ∧ cpu.scratch.ptr = 0xFF00) := by
    rintro ⟨rfl, alu, ptr⟩
    simp [ptrOverflows, UcycQueue.front_eq, live, alu, ptr] at small
  cases outcome with
  | stalled low => simp [awake] at low
  | @ucyc i u rest e us q awake inst live next wf live' more =>
      refine (Sequencer.advance_execute inst live (fits live)).trans ?_
      subst live'
      have next' : (cpu.sequencer.cpu.exec i bus).next v.flavor u rest = (e, q.live) := next
      simp only [Sequencer.execute, next', List.isEmpty_eq_false_iff.2 more]
      rfl
  | @last i u rest e q awake inst live next drained =>
      refine (Sequencer.advance_execute inst live (fits live)).trans ?_
      have next' : (cpu.sequencer.cpu.exec i bus).next v.flavor u rest = (e, []) := next
      have done : ((cpu.restore e q).finished v.flavor i).sequencer =
          ⟨(cpu.sequencer.cpu.restore e .default).finished v.flavor i, []⟩ := by
        have some : (cpu.restore e q).currentInst.isSome := by simp [restore, inst]
        rw [Cpu6502.sequencer, ← finished_withQueue _ some]
        obtain ⟨_, _, _, _, _, eq⟩ := finished_frame inv inst e q
        rw [eq]
        exact congrArg (Sequencer.mk _) drained.live_eq
      simp only [Sequencer.execute, next', done]
      rfl
  | extraCycle awake inst empty due =>
      refine (Sequencer.advance_boundary inst empty.live_eq).trans (congrArg _ ?_)
      refine (if_pos due).trans ?_
      rw [← empty.live_eq]
      rfl
  | @interrupt i type q awake inst empty ended request wf live' =>
      refine (Sequencer.advance_boundary inst empty.live_eq).trans (congrArg _ ?_)
      refine (if_neg (Bool.eq_false_iff.1 ended)).trans ?_
      rw [interrupted_sequencer _ v _ live']
      obtain ⟨rfl, nmi⟩ | ⟨rfl, none, irq, clear⟩ := request
      · exact if_pos nmi
      · refine (if_neg (Bool.eq_false_iff.1 none)).trans (if_pos ?_)
        rw [Bool.and_eq_true, Bool.not_eq_true']
        exact ⟨irq, clear⟩
  | @fetch i q awake inst empty ended quiet masked wf live' =>
      refine (Sequencer.advance_boundary inst empty.live_eq).trans (congrArg _ ?_)
      refine (if_neg (Bool.eq_false_iff.1 ended)).trans ?_
      rw [fetched_sequencer _ v _ live']
      refine (if_neg (Bool.eq_false_iff.1 quiet)).trans (if_neg ?_)
      rw [Bool.and_eq_true, Bool.not_eq_true']
      rintro ⟨irq, clear⟩
      obtain low | disabled := masked
      · simp [low] at irq
      · exact absurd (disabled.symm.trans clear) (by simp)
  | @first q awake inst wf live' =>
      refine (Sequencer.advance_first inst).trans ?_
      rw [fetched_sequencer _ v _ live']
      rfl

theorem sequencer_overflows {v : Variant} {cpu : Cpu6502} (inv : cpu.Inv v) {lines : Lines}
    {bus : β} (large : cpu.ptrOverflows) :
    (cpu.sequencer.sampleNmi lines).advance v .debug lines bus = .error .overflow := by
  obtain ⟨i, u, rest, inst, live, large⟩ := inv.overflowing large
  have inst' : (cpu.sequencer.sampleNmi lines).cpu.currentInst = some i := inst
  have live' : (cpu.sequencer.sampleNmi lines).live = u :: rest := live
  simp only [Sequencer.advance, inst', live']
  exact if_pos ⟨trivial, large⟩

theorem step_refines {v : Variant} (prof : Profile) {cpu : Cpu6502} (inv : cpu.Inv v)
    (lines : Lines) (bus : β) :
    (cpu.step v.flavor prof lines bus).map (fun r => (r.1, r.2.1.sequencer, r.2.2)) =
      cpu.sequencer.step v prof lines bus := by
  rw [Sequencer.step, sequencer_stalls]
  cases stalls : cpu.stalls lines with
  | true =>
      rw [step_stalls stalls]
      rfl
  | false =>
      rw [if_neg (by simp)]
      by_cases small : prof = .release ∨ cpu.ptrOverflows = false
      · obtain ⟨exit, cpu', bus', run, outcome⟩ := step_spec inv lines bus small
        rw [run]
        exact (outcome.advance (inv.sample lines) stalls small).symm
      · obtain ⟨debug, large⟩ := not_or.1 small
        cases prof with
        | release => exact absurd rfl debug
        | debug =>
            replace large : cpu.ptrOverflows := by simpa using large
            rw [step_overflows inv bus stalls large, sequencer_overflows inv large]
            rfl

end Cpu6502

end Rs65x
