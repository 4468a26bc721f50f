import Rs65x.Lib.Milestones
import Rs65x.Proof.Turns
import Rs65x.Proof.Reach

/-!
# Instructions under stalls

RDY may be low in any cycle. The micro-ops of an instruction are worked off all the same.
-/

namespace Rs65x
open Fallible Machine Worklist

namespace Cpu6502
variable {β : Type}

structure Ended (v : Variant) (i : Instruction) (e : Exec β) (s : Cpu6502 × β) : Prop where
  inv : s.1.Inv v
  drained : s.1.ucycs.Drained
  finished : ∃ (c : Cpu6502) (prev pending : Bool), c.Executing i e ∧
    s = ((c.finished v.flavor i).withNmi prev pending, e.bus)

theorem Ended.inst {v : Variant} {i : Instruction} {e : Exec β} {s : Cpu6502 × β}
    (ended : Ended v i e s) : s.1.currentInst = some i := by
  obtain ⟨c, prev, pending, executing, rfl⟩ := ended.finished
  exact (finished_rest v.flavor executing.inst).1

theorem Ended.boundary {v : Variant} {i : Instruction} {e : Exec β} {s : Cpu6502 × β}
    (ended : Ended v i e s)
    (quiet : ∀ c : Cpu6502, c.extraCycleDue v.flavor i = false) : s.1.AtBoundary v where
  drained := ended.drained
  ended inst := by
    cases ended.inst.symm.trans inst
    exact quiet s.1

variable [Bus β]

/-- In instruction `i`, with `n` micro-ops to go, which end at `e`. -/
structure OnCourse (v : Variant) (i : Instruction) (e : Exec β) (n : Nat) (s : Cpu6502 × β) :
    Prop where
  inv : s.1.Inv v
  live : s.1.ucycs.live ≠ []
  turns : ∃ e₀, s.1.Executing i e₀ ∧ s.2 = e₀.bus ∧ Exec.Turns v.flavor e₀ s.1.ucycs.live n e []

def InFlight (v : Variant) (prof : Profile) : Cpu6502 × β → List Lines → Prop :=
  Throughout (busCycle v prof) fun s => ¬ s.1.AtBoundary v

variable {v : Variant} {prof : Profile} {i : Instruction} {e : Exec β} {n : Nat} {cpu : Cpu6502}
  {r : β} {lines : Lines}

theorem OnCourse.turn (course : OnCourse v i e n (cpu, r)) (prof : Profile)
    (awake : (cpu.sampleNmi lines).stalls lines = false) :
    ∃ t, cpu.step v.flavor prof lines r = .ok (.ucyc, t) ∧
      ((∃ m, n = m + 1 ∧ OnCourse v i e m t) ∨ n = 1 ∧ Ended v i e t) := by
  obtain ⟨e₀, executing, bus, turns⟩ := course.turns
  replace bus : r = e₀.bus := bus
  subst bus
  obtain ⟨u, rest, live⟩ := List.exists_cons_of_ne_nil course.live
  replace live : cpu.ucycs.live = u :: rest := live
  rw [live] at turns
  obtain ⟨fits, m, rfl, turns'⟩ := turns.cases_cons
  rcases next : e₀.next v.flavor u rest with ⟨e₁, us⟩
  rw [next] at turns'
  obtain ⟨c, executing₁, -, wf, live₁, run⟩ :=
    step_turn course.inv executing live next prof (.inr fits) awake
  have inv := (step_outcome course.inv run).inv (course.inv.sample lines)
  cases us with
  | nil =>
      obtain ⟨rfl, rfl⟩ := turns'.cases_nil
      have some : c.currentInst.isSome := Option.isSome_iff_exists.2 ⟨i, executing₁.inst⟩
      obtain ⟨_, _, _, _, _, _, eq⟩ := finished_framed v.flavor some i
      have drained : (c.finished v.flavor i).ucycs.Drained := by
        rw [eq]
        exact wf.live_eq_nil.1 live₁
      exact ⟨_, run, .inr ⟨rfl, inv, drained, c, _, _, executing₁, rfl⟩⟩
  | cons u₁ us =>
      rw [if_neg (List.cons_ne_nil u₁ us)] at run inv
      have more : c.ucycs.live ≠ [] := live₁ ▸ List.cons_ne_nil u₁ us
      exact ⟨_, run, .inl ⟨m, rfl, inv, more, e₁, executing₁, rfl, live₁ ▸ turns'⟩⟩

theorem OnCourse.step (course : OnCourse v i e n (cpu, r)) (prof : Profile) (lines : Lines) :
    ∃ exit t, cpu.step v.flavor prof lines r = .ok (exit, t) ∧
      (exit = .stalled ∧ OnCourse v i e n t ∨
        exit = .ucyc ∧ ((∃ m, n = m + 1 ∧ OnCourse v i e m t) ∨ n = 1 ∧ Ended v i e t)) := by
  cases stalls : (cpu.sampleNmi lines).stalls lines with
  | true =>
      obtain ⟨e₀, executing, turns⟩ := course.turns
      refine ⟨_, _, step_stalls stalls r, .inl ⟨rfl, course.inv.sample lines, course.live, e₀, ?_, turns⟩⟩
      exact ⟨executing.inst, executing.exec⟩
  | false =>
      obtain ⟨t, run, there⟩ := course.turn prof stalls
      exact ⟨_, _, run, .inr ⟨rfl, there⟩⟩

theorem Ended.step (ended : Ended v i e (cpu, r)) (quiet : ∀ c : Cpu6502, c.extraCycleDue v.flavor i = false)
    {exit : StepExit} {t : Cpu6502 × β} (run : cpu.step v.flavor prof lines r = .ok (exit, t)) :
    exit = .stalled ∧ Ended v i e t ∨ exit.starts = true := by
  refine ((ended.boundary quiet).step run).imp_left ?_
  rintro ⟨rfl, rfl⟩
  obtain ⟨c, prev, pending, executing, eq⟩ := ended.finished
  refine ⟨rfl, ended.inv.sample lines, ended.drained, c, lines.nmi,
    (cpu.sampleNmi lines).pendingNmi, executing, ?_⟩
  cases eq
  rfl

theorem OnCourse.keeps {s t : Cpu6502 × β} (course : (∃ n, OnCourse v i e n s) ∨ Ended v i e s)
    (quiet : ∀ c : Cpu6502, c.extraCycleDue v.flavor i = false) {cycles : List Lines} {exits : List StepExit}
    (ran : run (busCycle v prof) s cycles = .ok (exits, t))
    (none : ∀ exit ∈ exits, exit.starts = false) :
    (∃ n, OnCourse v i e n t) ∨ Ended v i e t := by
  refine run_keeps (P := fun s => (∃ n, OnCourse v i e n s) ∨ Ended v i e s) ran none course ?_
  intro s lines exit t course step calm
  rcases course with ⟨n, course⟩ | ended
  · obtain ⟨exit', t', step', there⟩ := course.step prof lines
    cases step.symm.trans step'
    rcases there with ⟨-, course⟩ | ⟨-, ⟨m, -, course⟩ | ⟨-, ended⟩⟩
    · exact .inl ⟨n, course⟩
    · exact .inl ⟨m, course⟩
    · exact .inr ended
  · rcases ended.step quiet step with ⟨-, ended⟩ | starts
    · exact .inr ended
    · cases starts.symm.trans calm

theorem OnCourse.flight {s : Cpu6502 × β} (course : OnCourse v i e n s)
    (quiet : ∀ c : Cpu6502, c.extraCycleDue v.flavor i = false) {cycles : List Lines}
    (flight : InFlight v prof s cycles) : ∃ exits t,
      run (busCycle v prof) s cycles = .ok (exits, t) ∧ (∀ exit ∈ exits, exit = .stalled ∨ exit = .ucyc) ∧
      ((∃ m, n = exits.count .ucyc + m ∧ OnCourse v i e m t) ∨
        n = exits.count .ucyc ∧ Ended v i e t) := by
  induction cycles generalizing s n with
  | nil => exact ⟨[], s, rfl, by simp, .inl ⟨n, by simp, course⟩⟩
  | cons first cycles ih =>
      obtain ⟨-, flight⟩ := flight
      obtain ⟨exit, u, step, there⟩ := course.step prof first
      replace flight := flight exit u step
      rcases there with ⟨rfl, further⟩ | ⟨rfl, ⟨m, rfl, further⟩ | ⟨rfl, ended⟩⟩
      · obtain ⟨exits, t, run, kinds, there⟩ := ih further flight
        refine ⟨.stalled :: exits, t, ?_, ?_, by simpa using there⟩
        · rw [run_cons cycles step, run]
          rfl
        · simpa using kinds
      · obtain ⟨exits, t, run, kinds, there⟩ := ih further flight
        refine ⟨.ucyc :: exits, t, ?_, ?_, ?_⟩
        · rw [run_cons cycles step, run]
          rfl
        · simpa using kinds
        · rw [List.count_cons_self]
          refine there.imp ?_ ?_
          · rintro ⟨k, count, further⟩
            exact ⟨k, by omega, further⟩
          · rintro ⟨count, ended⟩
            exact ⟨by omega, ended⟩
      · cases cycles with
        | nil => exact ⟨[.ucyc], u, run_cons [] step, by simp, .inr ⟨by simp, ended⟩⟩
        | cons next cycles => exact absurd (ended.boundary quiet) flight.1

end Cpu6502

end Rs65x
