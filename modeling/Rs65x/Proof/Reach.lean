import Rs65x.Proof.Frame
import Rs65x.Lib.Machine

/-!
# Reachable cores and runs

The host calls `step` and `reset` with a bus of its choice each time, so whatever else it does to
the memory between the calls is covered.
-/

namespace Rs65x
open Fallible Machine

namespace Cpu6502
variable {β : Type} [Bus β]

inductive Call (β : Type) where
  | step (lines : Lines) (bus : β)
  | reset (bus : β)

def call (v : Variant) (prof : Profile) (cpu : Cpu6502) :
    Call β → Except Fault (List Access × Cpu6502)
  | .step lines bus => do
      let (_, cpu, r) ← cpu.step v.flavor prof lines (⟨bus, []⟩ : Recorder β)
      return (r.log, cpu)
  | .reset bus =>
      let (cpu, r) := cpu.reset (⟨bus, []⟩ : Recorder β)
      .ok (r.log, cpu)

variable (β) in
def Reachable (v : Variant) (prof : Profile) (cpu : Cpu6502) : Prop :=
  Reaches (call (β := β) v prof) (fun _ _ => True) new cpu

theorem reset_inv (v : Variant) (cpu : Cpu6502) (bus : β) : (cpu.reset bus).1.Inv v :=
  .of_fresh cpu.ucycs.clear_drained rfl

theorem call_ok {v : Variant} {prof : Profile} {cpu cpu' : Cpu6502} {lines : Lines} {bus : β}
    {log : List Access} (run : cpu.call v prof (.step lines bus) = .ok (log, cpu')) :
    ∃ exit r, cpu.step v.flavor prof lines (⟨bus, []⟩ : Recorder β) = .ok (exit, cpu', r) ∧
      r.log = log := by
  simp only [call, bind_eq_ok, Prod.exists] at run
  obtain ⟨exit, next, r, run, eq⟩ := run
  cases eq
  exact ⟨exit, r, run, rfl⟩

theorem call_inv {v : Variant} {prof : Profile} {cpu cpu' : Cpu6502} (inv : cpu.Inv v)
    {input : Call β} {log : List Access} (run : cpu.call v prof input = .ok (log, cpu')) :
    cpu'.Inv v := by
  cases input with
  | step lines bus =>
      obtain ⟨exit, r, run, -⟩ := call_ok run
      exact (step_outcome inv run).inv (inv.sample lines)
  | reset bus =>
      cases run
      exact reset_inv v cpu _

theorem Reachable.inv {v : Variant} {prof : Profile} {cpu : Cpu6502}
    (reach : cpu.Reachable β v prof) : cpu.Inv v :=
  Reaches.invariant reach (new_inv v) fun inv _ run => call_inv inv run

/-- What holds of a new core and after a reset, and is kept by a cycle, holds of every reachable
core. -/
theorem Reachable.invariant {v : Variant} {prof : Profile} {cpu : Cpu6502} {P : Cpu6502 → Prop}
    (reach : cpu.Reachable β v prof) (start : P new)
    (step : ∀ {cpu cpu' lines exit} {r r' : Recorder β}, cpu.Inv v → P cpu →
      Outcome v (cpu.sampleNmi lines) lines r exit cpu' r' → P cpu')
    (reset : ∀ {cpu} {bus : β}, P cpu → P (cpu.reset (⟨bus, []⟩ : Recorder β)).1) : P cpu := by
  have both : cpu.Inv v ∧ P cpu := by
    refine Reaches.invariant (P := fun cpu => cpu.Inv v ∧ P cpu) reach ⟨new_inv v, start⟩ ?_
    intro cpu input log cpu' ⟨inv, holds⟩ _ run
    refine ⟨call_inv inv run, ?_⟩
    cases input with
    | step lines bus =>
        obtain ⟨exit, r, run, -⟩ := call_ok run
        exact step inv holds (step_outcome inv run)
    | reset bus =>
        cases run
        exact reset holds
  exact both.2

/-! ## Runs of `step` -/

def cycle (v : Variant) (prof : Profile) (cpu : Cpu6502) (input : Lines × β) :
    Except Fault (StepExit × Cpu6502) := do
  let (exit, cpu, _) ← cpu.step v.flavor prof input.1 input.2
  return (exit, cpu)

theorem cycle_outcome {v : Variant} {prof : Profile} {cpu cpu' : Cpu6502} (inv : cpu.Inv v)
    {input : Lines × β} {exit : StepExit} (run : cpu.cycle v prof input = .ok (exit, cpu')) :
    ∃ bus', Outcome v (cpu.sampleNmi input.1) input.1 input.2 exit cpu' bus' := by
  simp only [cycle, bind_eq_ok, Prod.exists] at run
  obtain ⟨exit, next, bus', run, eq⟩ := run
  cases eq
  exact ⟨bus', step_outcome inv run⟩

theorem cycle_inv {v : Variant} {prof : Profile} {cpu cpu' : Cpu6502} (inv : cpu.Inv v)
    {input : Lines × β} {exit : StepExit} (run : cpu.cycle v prof input = .ok (exit, cpu')) :
    cpu'.Inv v :=
  let ⟨_, outcome⟩ := cycle_outcome inv run
  outcome.inv (inv.sample input.1)

theorem cycle_returns {v : Variant} {cpu : Cpu6502} (inv : cpu.Inv v) (input : Lines × β) :
    ∃ exit cpu', cpu.cycle v .release input = .ok (exit, cpu') := by
  obtain ⟨exit, cpu', bus', run, -⟩ := step_spec inv input.1 input.2 (.inl rfl)
  exact ⟨exit, cpu', by rw [cycle, run]; rfl⟩

theorem follow_inv (v : Variant) (prof : Profile) (input : Nat → Lines × β) (n : Nat) :
    (follow (cycle v prof) new input n).Inv v := by
  induction n with
  | zero => exact new_inv v
  | succ n ih =>
      simp only [follow]
      split
      · next run => exact cycle_inv ih run
      · exact ih

def releaseTrace (v : Variant) (input : Nat → Lines × β) (length : Nat) :
    Trace (cycle (β := β) v .release) new length :=
  .ofInputs new length input .stalled fun n _ => cycle_returns (follow_inv v .release input n) _

def busCycle (v : Variant) (prof : Profile) (s : Cpu6502 × β) (lines : Lines) :
    Except Fault (StepExit × (Cpu6502 × β)) :=
  s.1.step v.flavor prof lines s.2

namespace Outcome
variable {v : Variant} {cpu cpu' : Cpu6502} {lines : Lines} {bus bus' : β} {exit : StepExit}

theorem prevNmi (inv : cpu.Inv v) (outcome : Outcome v cpu lines bus exit cpu' bus') :
    cpu'.prevNmi = cpu.prevNmi := by
  cases outcome with
  | @last i u rest e q awake inst live next drained =>
      obtain ⟨_, _, _, _, _, eq⟩ := finished_frame inv inst e q
      rw [eq]
      rfl
  | _ => rfl

theorem pendingNmi (inv : cpu.Inv v) (outcome : Outcome v cpu lines bus exit cpu' bus') :
    cpu'.pendingNmi = (cpu.pendingNmi && exit ≠ .interrupt .nmi) := by
  cases outcome with
  | @last i u rest e q awake inst live next drained =>
      obtain ⟨_, _, _, _, _, eq⟩ := finished_frame inv inst e q
      rw [eq]
      simp [restore]
  | @interrupt i type q awake inst empty ended request wf live' =>
      obtain ⟨rfl, -⟩ | ⟨rfl, none, -⟩ := request
      · simp [interrupted]
      · simp [interrupted, none]
  | _ => simp [restore, fetched, settled]

end Outcome

end Cpu6502

end Rs65x
