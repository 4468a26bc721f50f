import Rs65x.Proof.Control
import Rs65x.Proof.Entry
import Rs65x.Proof.Perform

/-!
# From one boundary to the next

A core at a boundary begins an instruction or an interrupt sequence and carries it out, whatever
stalls it. On a simple bus this is one step of the programmer's model.
-/

namespace Rs65x
open Fallible Machine Words Worklist

namespace Cpu6502

/-- A run from `s` to a boundary begins one thing. -/
def Carries {β : Type} [Bus β] (v : Variant) (prof : Profile) (start : StepExit)
    (s t : Cpu6502 × β) : Prop :=
  ∃ cycles exits, run (busCycle v prof) s cycles = .ok (exits, t) ∧
    exits.filter (·.starts) = [start] ∧ t.1.AtBoundary v

def code (s : Cpu6502 × Recorder SimpleBus) : U8 := s.2.bus.ram s.1.pc

section
variable {β : Type} [Bus β] {v : Variant} {prof : Profile} {start : StepExit}
  {s t u : Cpu6502 × β} {i : Instruction} {e : Exec β} {n : Nat}

theorem Carries.starts (carries : Carries v prof start s t) : start.starts = true := by
  obtain ⟨-, exits, -, starts, -⟩ := carries
  exact (List.mem_filter.1 (starts ▸ List.mem_singleton_self start)).2

theorem Carries.boundary (carries : Carries v prof start s t) : t.1.AtBoundary v := by
  obtain ⟨-, -, -, -, there⟩ := carries
  exact there

theorem Carries.begins (boundary : s.1.AtBoundary v) (carries : Carries v prof start s t) :
    ∃ prev pending lines u cycles exits, (s.1.pendingNmi = true → pending = true) ∧
      (s.1.withNmi prev pending).step v.flavor prof lines s.2 = .ok (start, u) ∧
      run (busCycle v prof) u cycles = .ok (exits, t) ∧ (∀ exit ∈ exits, exit.starts = false) ∧
      t.1.AtBoundary v := by
  obtain ⟨cycles, exits, ran, starts, there⟩ := carries
  induction cycles generalizing s exits with
  | nil =>
      cases ran
      cases starts
  | cons lines cycles ih =>
      obtain ⟨exit, u, rest, step, tail, rfl⟩ := run_cons_ok ran
      rcases boundary.step step with ⟨rfl, rfl⟩ | begins
      · have waited : (s.1.sampleNmi lines).AtBoundary v := ⟨boundary.drained, boundary.ended⟩
        obtain ⟨prev, pending, lines', u, cycles, exits, held, step⟩ := ih waited rest tail starts
        refine ⟨prev, pending, lines', u, cycles, exits, fun nmi => held ?_, step⟩
        simp [sampleNmi, nmi]
      · rw [List.filter_cons_of_pos begins] at starts
        obtain ⟨rfl, none⟩ := List.cons.inj starts
        refine ⟨s.1.prevNmi, s.1.pendingNmi, lines, u, cycles, rest, id, step, tail, ?_, there⟩
        intro exit mem
        exact Bool.eq_false_iff.2 (List.filter_eq_nil_iff.1 none exit mem)

theorem OnCourse.ends (course : OnCourse v i e n u)
    (quiet : ∀ c : Cpu6502, c.extraCycleDue v.flavor i = false) {cycles : List Lines} {exits : List StepExit}
    (ran : run (busCycle v prof) u cycles = .ok (exits, t))
    (none : ∀ exit ∈ exits, exit.starts = false) (there : t.1.AtBoundary v) : Ended v i e t := by
  rcases OnCourse.keeps (.inl ⟨n, course⟩) quiet ran none with ⟨m, further⟩ | ended
  · exact absurd there.drained.live_eq further.live
  · exact ended

theorem OnCourse.arrives (course : OnCourse v i e n u) (prof : Profile) : ∃ cycles exits t,
      run (busCycle v prof) u cycles = .ok (exits, t) ∧ (∀ exit ∈ exits, exit.starts = false) ∧
      Ended v i e t ∧ t.1.pendingNmi = u.1.pendingNmi := by
  obtain ⟨e₀, executing, bus, turns⟩ := course.turns
  obtain ⟨m, rfl⟩ := turns.count_pos course.live
  obtain ⟨cpu, r⟩ := u
  replace bus : r = e₀.bus := bus
  subst bus
  let calm : Lines := { Lines.none with nmi := cpu.prevNmi }
  have length : (List.replicate (m + 1) calm).length = m + 1 := List.length_replicate
  have rdy : ∀ lines ∈ List.replicate (m + 1) calm, lines.rdy = true := by
    intro lines mem
    rw [List.eq_of_mem_replicate mem]
    rfl
  have held : ∀ lines ∈ List.replicate (m + 1) calm, lines.nmi = cpu.prevNmi := by
    intro lines mem
    rw [List.eq_of_mem_replicate mem]
  obtain ⟨c, executing', kept, drained, inv, ran⟩ :=
    turns_run course.inv executing (turns.anywhere prof) length rdy
  have some : c.currentInst.isSome := Option.isSome_iff_exists.2 ⟨i, executing'.inst⟩
  have hidden := finished_hidden v.flavor some i
  have prev : (c.finished v.flavor i).prevNmi = c.prevNmi := congrArg Hidden.prevNmi hidden
  have pending : (c.finished v.flavor i).pendingNmi = c.pendingNmi :=
    congrArg Hidden.pendingNmi hidden
  refine ⟨_, _, _, ran, ?_, ⟨inv, ?_, c, c.prevNmi, c.pendingNmi, executing', ?_⟩, ?_⟩
  · intro exit mem
    rw [List.eq_of_mem_replicate mem]
    rfl
  · obtain ⟨-, queue, -⟩ := finished_rest v.flavor executing'.inst
    exact queue ▸ drained
  · rw [← prev, ← pending]
    rfl
  · exact pending.trans (kept.nmi held).2

theorem OnCourse.carries {lines : Lines} (begins : s.1.step v.flavor prof lines s.2 = .ok (start, u))
    (starts : start.starts = true) (course : OnCourse v i e n u)
    (quiet : ∀ c : Cpu6502, c.extraCycleDue v.flavor i = false) :
    ∃ t, Carries v prof start s t ∧ t.1.pendingNmi = u.1.pendingNmi := by
  obtain ⟨cycles, exits, t, ran, none, ended, pending⟩ := course.arrives prof
  refine ⟨t, ⟨lines :: cycles, start :: exits, ?_, ?_, ended.boundary quiet⟩, pending⟩
  · have first : busCycle v prof s lines = .ok (start, u) := begins
    rw [run_cons cycles first, ran]
    rfl
  · rw [List.filter_cons_of_pos starts, List.filter_eq_nil_iff.2 fun exit mem => by simp [none exit mem]]

end

section
variable {v : Variant} {prof : Profile} {s t u : Cpu6502 × Recorder SimpleBus} {a : Arch}
  {e : Exec (Recorder SimpleBus)} {lines : Lines} {n : Nat}

theorem fetch_course (drained : s.1.ucycs.Drained) (start : s.1.arch s.2.bus.ram = a)
    (fetch : s.1.step v.flavor prof lines s.2 = .ok (.opcodeFetch, u))
    (turns : Exec.Turns v.flavor (a.opened v s.2.log) (v.emission a.opcode) (n + 1) e []) :
    OnCourse v (v.decode a.opcode) e (n + 1) u := by
  obtain ⟨cpu₁, run, inv, live, executing, -⟩ :=
    fetch_spec (v := v) drained (congrArg (·.map (·.1)) fetch) start
  cases fetch.symm.trans run
  have bus : (⟨s.2.bus, s.2.log ++ [a.opcodeRead]⟩ : Recorder SimpleBus) = (a.opened v s.2.log).bus := by
    rw [← start]
    rfl
  refine ⟨inv, ?_, _, executing, bus, live ▸ turns⟩
  intro empty
  rw [← live, empty] at turns
  cases turns.cases_nil.1

theorem Carries.ended (boundary : s.1.AtBoundary v) (carries : Carries v prof .opcodeFetch s t)
    (start : s.1.arch s.2.bus.ram = a)
    (quiet : ∀ c : Cpu6502, c.extraCycleDue v.flavor (v.decode a.opcode) = false)
    (turns : Exec.Turns v.flavor (a.opened v s.2.log) (v.emission a.opcode) (n + 1) e []) :
    Ended v (v.decode a.opcode) e t := by
  obtain ⟨prev, pending, lines, u, cycles, exits, -, step, ran, none, there⟩ := carries.begins boundary
  have course : OnCourse v (v.decode a.opcode) e (n + 1) u :=
    fetch_course (s := (s.1.withNmi prev pending, s.2)) boundary.drained start step turns
  exact course.ends quiet ran none there

theorem Ended.arch {i : Instruction} (ended : Ended v i e t) : ∃ c : Cpu6502, c.Executing i e ∧
    t.1.arch t.2.bus.ram = (c.finished v.flavor i).arch e.bus.bus.ram := by
  obtain ⟨c, prev, pending, executing, rfl⟩ := ended.finished
  exact ⟨c, executing, rfl⟩

theorem Carries.performs (boundary : s.1.AtBoundary v) (carries : Carries v prof .opcodeFetch s t)
    (start : s.1.arch s.2.bus.ram = a)
    (quiet : ∀ c : Cpu6502, c.extraCycleDue v.flavor (v.decode a.opcode) = false)
    (turns : Exec.Turns v.flavor (a.opened v s.2.log) (v.emission a.opcode) (n + 1) e [])
    (completes : a.Completes v e) : t.1.arch t.2.bus.ram = a.perform (v.decode a.opcode) := by
  obtain ⟨c, executing, arch⟩ := (carries.ended boundary start quiet turns).arch
  rw [arch]
  exact (completes c executing).1

set_option maxRecDepth 20000 in
theorem decode_jsr (v : Variant) : v.decode 0x20 = ⟨.jsr, .jump .toSubroutine, .read⟩ :=
  (v.decode_documented (by decide)).trans (by decide)

set_option maxRecDepth 20000 in
theorem decode_rts (v : Variant) : v.decode 0x60 = ⟨.rts, .jump .fromSubroutine, .read⟩ :=
  (v.decode_documented (by decide)).trans (by decide)

end

end Cpu6502

end Rs65x
