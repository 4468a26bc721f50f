import Rs65x.Proof.Sequencer
import Rs65x.Proof.Reach

/-!
# What the host sees of a run
-/

namespace Rs65x
open Fallible Machine

/-- What the host has seen after a step: every access so far, and the registers. -/
structure Observation where
  accesses : List Access
  a : U8
  x : U8
  y : U8
  s : U8
  p : U8
  pc : U16
  deriving DecidableEq

namespace Cpu6502
variable {β : Type} [Bus β]

def observation (s : Cpu6502 × Recorder β) : Observation :=
  ⟨s.2.log, s.1.a, s.1.x, s.1.y, s.1.s, s.1.p, s.1.pc⟩

def observe (v : Variant) (prof : Profile) (s : Cpu6502 × Recorder β) (lines : Lines) :
    Except Fault (Observation × (Cpu6502 × Recorder β)) := do
  let (_, t) ← busCycle v prof s lines
  return (observation t, t)

def seen (v : Variant) (prof : Profile) (cpu : Cpu6502) (ram : U16 → U8) (lines : List Lines) :
    Except Fault (List Observation) :=
  (run (observe v prof) (cpu, (⟨⟨ram⟩, []⟩ : Recorder SimpleBus)) lines).map (·.1)

end Cpu6502

namespace Sequencer
open Cpu6502
variable {β : Type} [Bus β]

def observe (v : Variant) (prof : Profile) (s : Sequencer × Recorder β) (lines : Lines) :
    Except Fault (Observation × (Sequencer × Recorder β)) := do
  let (_, t) ← s.1.step v prof lines s.2
  return (observation (t.1.cpu, t.2), t)

def busCycle (v : Variant) (prof : Profile) (s : Sequencer × β) (lines : Lines) :
    Except Fault (StepExit × (Sequencer × β)) :=
  s.1.step v prof lines s.2

/-- The sequencer of the core, with the same bus. -/
def Refined (v : Variant) (s : Cpu6502 × β) (t : Sequencer × β) : Prop :=
  s.1.Inv v ∧ t = (s.1.sequencer, s.2)

theorem cycle_agrees {v : Variant} {prof : Profile} {s : Cpu6502 × β} {t : Sequencer × β}
    (related : Refined v s t) (lines : Lines) :
    Agree (Refined v) (Cpu6502.busCycle v prof s lines) (busCycle v prof t lines) := by
  obtain ⟨cpu, bus⟩ := s
  obtain ⟨inv, rfl⟩ := related
  have refines := step_refines prof inv lines bus
  simp only [Cpu6502.busCycle, busCycle, ← refines]
  rcases run : cpu.step v.flavor prof lines bus with e | ⟨exit, cpu', bus'⟩
  · exact rfl
  · exact ⟨rfl, (step_outcome inv run).inv (inv.sample lines), rfl⟩

theorem run_agrees {v : Variant} (prof : Profile) {cpu : Cpu6502} (inv : cpu.Inv v) (bus : β)
    (lines : List Lines) :
    Agree (Refined v) (run (Cpu6502.busCycle v prof) (cpu, bus) lines)
      (run (busCycle v prof) (cpu.sequencer, bus) lines) :=
  run_agree (R := Refined v) (fun _ _ lines related => cycle_agrees related lines) ⟨inv, rfl⟩ lines

theorem observe_agrees {v : Variant} {prof : Profile} {s : Cpu6502 × Recorder β}
    {t : Sequencer × Recorder β} (related : Refined v s t) (lines : Lines) :
    Agree (Refined v) (Cpu6502.observe v prof s lines) (observe v prof t lines) := by
  refine (cycle_agrees related lines).relabel (g := fun t => observation (t.1.cpu, t.2)) ?_
  rintro s t ⟨-, rfl⟩
  rfl

theorem run_observe_agrees {v : Variant} (prof : Profile) {cpu : Cpu6502} (inv : cpu.Inv v)
    (r : Recorder β) (lines : List Lines) :
    Agree (Refined v) (run (Cpu6502.observe v prof) (cpu, r) lines)
      (run (observe v prof) (cpu.sequencer, r) lines) :=
  run_agree (R := Refined v) (fun _ _ lines related => observe_agrees related lines) ⟨inv, rfl⟩ lines

end Sequencer

end Rs65x
