import Rs65x.Lib.Milestones
import Rs65x.Proof.Carries

/-!
# The cores agree on documented code

At successive opcode fetches a core shows the states of the programmer's model.
-/

namespace Rs65x
open Fallible Machine

namespace Cpu6502

def traceCycle (v : Variant) (prof : Profile) (s : Cpu6502 × Recorder SimpleBus) (lines : Lines) :
    Except Fault ((StepExit × Arch) × (Cpu6502 × Recorder SimpleBus)) := do
  let (exit, t) ← busCycle v prof s lines
  return ((exit, s.1.arch s.2.bus.ram), t)

def fetched? (label : StepExit × Arch) : Option Arch :=
  if label.1 = .opcodeFetch then some label.2 else none

def Calm (label : StepExit × Arch) : Prop := ∀ type, label.1 ≠ .interrupt type

/-- The registers and the memory at the opcode fetches of a run. -/
def fetches (labels : List (StepExit × Arch)) : List Arch := labels.filterMap fetched?

theorem traceCycle_ok {v : Variant} {prof : Profile} {s t : Cpu6502 × Recorder SimpleBus}
    {lines : Lines} {label : StepExit × Arch} :
    traceCycle v prof s lines = .ok (label, t) ↔
      busCycle v prof s lines = .ok (label.1, t) ∧ label.2 = s.1.arch s.2.bus.ram := by
  obtain ⟨exit, shown⟩ := label
  simp only [traceCycle, bind_eq_ok, Prod.exists, pure_eq]
  constructor
  · rintro ⟨exit', cpu, r, run, eq⟩
    cases eq
    exact ⟨run, rfl⟩
  · rintro ⟨run, rfl⟩
    exact ⟨exit, t.1, t.2, run, rfl⟩

structure At (v : Variant) (s : Arch) (t : Cpu6502 × Recorder SimpleBus) : Prop where
  boundary : t.1.AtBoundary v
  arch : t.1.arch t.2.bus.ram = s

structure From (v : Variant) (s : Arch) (n : Nat) (t : Cpu6502 × Recorder SimpleBus) : Prop where
  doc : s.Documented
  inv : t.1.Inv v
  live : t.1.ucycs.live ≠ []
  turns : ∃ e e', t.1.Executing (v.decode s.opcode) e ∧ t.2 = e.bus ∧
    Exec.Turns v.flavor e t.1.ucycs.live n e' [] ∧ s.Completes v e'

section
variable {v : Variant} {prof : Profile} {s : Arch} {cpu : Cpu6502} {r : Recorder SimpleBus}
  {lines : Lines}

theorem At.sample (at_s : At v s (cpu, r)) (lines : Lines) : At v s (cpu.sampleNmi lines, r) :=
  ⟨⟨at_s.boundary.drained, at_s.boundary.ended⟩, at_s.arch⟩

theorem from_iff {n : Nat} {t : Cpu6502 × Recorder SimpleBus} : From v s n t ↔
    s.Documented ∧ ∃ e, OnCourse v (v.decode s.opcode) e n t ∧ s.Completes v e := by
  constructor
  · rintro ⟨doc, inv, live, e, e', executing, bus, turns, completes⟩
    exact ⟨doc, e', ⟨inv, live, e, executing, bus, turns⟩, completes⟩
  · rintro ⟨doc, e', ⟨inv, live, e, executing, bus, turns⟩, completes⟩
    exact ⟨doc, inv, live, e, e', executing, bus, turns, completes⟩

theorem at_next (doc : s.Documented) {e : Exec (Recorder SimpleBus)} (completes : s.Completes v e)
    {t : Cpu6502 × Recorder SimpleBus} (ended : Ended v (v.decode s.opcode) e t) :
    At v s.next t := by
  have inst := ended.inst
  have drained := ended.drained
  obtain ⟨c, prev, pending, executing, rfl⟩ := ended.finished
  obtain ⟨arch, due⟩ := completes c executing
  generalize c.finished v.flavor (v.decode s.opcode) = last at *
  exact ⟨.of_inst drained inst due, arch.trans (congrArg s.perform (v.decode_documented doc.opcode))⟩

theorem At.fetch (at_s : At v s (cpu, r))
    (fetch : (cpu.step v.flavor prof lines r).map (·.1) = .ok .opcodeFetch) (doc : s.Documented) :
    ∃ n t, cpu.step v.flavor prof lines r = .ok (.opcodeFetch, t) ∧ From v s n t := by
  obtain ⟨cpu₁, step, -⟩ := fetch_spec (v := v) at_s.boundary.drained fetch at_s.arch
  obtain ⟨n, e, turns, completes⟩ := Arch.perform_turns v doc r.log
  have course : OnCourse v (v.decode s.opcode) e (n + 1) _ :=
    fetch_course (s := (cpu, r)) at_s.boundary.drained at_s.arch step turns
  exact ⟨n + 1, _, step, from_iff.2 ⟨doc, e, course, completes⟩⟩

theorem At.depart (at_s : At v s (cpu, r)) {exit : StepExit} {t : Cpu6502 × Recorder SimpleBus}
    (run : cpu.step v.flavor prof lines r = .ok (exit, t)) (calm : ∀ type, exit ≠ .interrupt type) :
    exit = .stalled ∧ At v s t ∨
      exit = .opcodeFetch ∧ (s.Documented → ∃ n, From v s n t) := by
  have departs (fetch : exit = .opcodeFetch) (doc : s.Documented) : ∃ n, From v s n t := by
    obtain ⟨n, t', run', leaves⟩ := at_s.fetch (by rw [run, fetch]; rfl) doc
    cases run.symm.trans run'
    exact ⟨n, leaves⟩
  obtain ⟨exit', cpu', r', run', outcome⟩ :=
    step_drained (v := v) at_s.boundary.drained prof lines r
  cases run.symm.trans run'
  cases outcome with
  | stalled => exact .inl ⟨rfl, at_s.sample lines⟩
  | fetch | first => exact .inr ⟨rfl, departs rfl⟩
  | ucyc _ _ live | last _ _ live => cases live.symm.trans at_s.boundary.drained.live_eq
  | extraCycle _ inst _ due => cases due.symm.trans (at_s.boundary.ended inst)
  | interrupt => exact absurd rfl (calm _)

theorem From.turn (prof : Profile) {n : Nat} (leaves : From v s n (cpu, r))
    (awake : (cpu.sampleNmi lines).stalls lines = false) :
    ∃ t, cpu.step v.flavor prof lines r = .ok (.ucyc, t) ∧
      (At v s.next t ∨ ∃ m < n, From v s m t) := by
  obtain ⟨doc, e, course, completes⟩ := from_iff.1 leaves
  obtain ⟨t, run, ⟨m, rfl, further⟩ | ⟨-, ended⟩⟩ := course.turn prof awake
  · exact ⟨t, run, .inr ⟨m, Nat.lt_succ_self m, from_iff.2 ⟨doc, e, further, completes⟩⟩⟩
  · exact ⟨t, run, .inl (at_next doc completes ended)⟩

theorem From.travel {n : Nat} (leaves : From v s n (cpu, r)) {exit : StepExit}
    {t : Cpu6502 × Recorder SimpleBus} (run : cpu.step v.flavor prof lines r = .ok (exit, t)) :
    exit ≠ .opcodeFetch ∧ ((∃ m, From v s m t) ∨ At v s.next t) := by
  obtain ⟨doc, e, course, completes⟩ := from_iff.1 leaves
  obtain ⟨exit', t', run', there⟩ := course.step prof lines
  cases run.symm.trans run'
  rcases there with ⟨rfl, course⟩ | ⟨rfl, ⟨m, -, course⟩ | ⟨-, ended⟩⟩
  · exact ⟨by decide, .inl ⟨n, from_iff.2 ⟨doc, e, course, completes⟩⟩⟩
  · exact ⟨by decide, .inl ⟨m, from_iff.2 ⟨doc, e, course, completes⟩⟩⟩
  · exact ⟨by decide, .inr (at_next doc completes ended)⟩

end

def route (v : Variant) (prof : Profile) :
    Route (traceCycle v prof) fetched? Calm Arch.next Arch.Documented where
  At := At v
  From := From v
  depart {s t lines label t'} at_s run calm := by
    obtain ⟨run, shown⟩ := traceCycle_ok.1 run
    obtain ⟨exit, at_s'⟩ | ⟨exit, leaves⟩ := at_s.depart run calm
    · exact .inl ⟨by simp [fetched?, exit], at_s'⟩
    · exact .inr ⟨by simp [fetched?, exit, shown, at_s.arch], leaves⟩
  travel {s n t lines label t'} leaves run _ := by
    obtain ⟨other, there⟩ := leaves.travel (traceCycle_ok.1 run).1
    exact ⟨if_neg other, there⟩

theorem route_drives (v : Variant) (prof : Profile) :
    (route v prof).Drives Lines.none fun t => t.1.pendingNmi = false where
  depart {s t} at_s ready := by
    obtain ⟨t', run, ready'⟩ := at_s.boundary.fetches ready prof t.2
    refine ⟨(.opcodeFetch, s), t', traceCycle_ok.2 ⟨run, at_s.arch.symm⟩, ?_, rfl, ready'⟩
    rintro _ ⟨⟩
  travel {s n t} leaves ready := by
    obtain ⟨cpu, r⟩ := t
    have awake : (cpu.sampleNmi Lines.none).stalls Lines.none = false := by
      simp [Cpu6502.stalls, Lines.none]
    obtain ⟨t', run, there⟩ := From.turn prof leaves awake
    refine ⟨(.ucyc, _), t', traceCycle_ok.2 ⟨run, rfl⟩, ?_, ?_, there⟩
    · rintro _ ⟨⟩
    have pending := (step_outcome leaves.inv run).pendingNmi (leaves.inv.sample Lines.none)
    have sampled : (cpu.sampleNmi Lines.none).pendingNmi = false := by
      simpa [sampleNmi, Lines.none] using ready
    rw [pending, sampled]
    rfl

/-- On documented code with D clear two cores show the same registers and the same memory at
successive opcode fetches, and the second core makes as many as the first. -/
theorem documented_agreement {v v' : Variant} {prof prof' : Profile} {cpu cpu' : Cpu6502}
    {ram : U16 → U8} (start : cpu.AtBoundary v) (start' : cpu'.AtBoundary v')
    (same : cpu'.arch ram = cpu.arch ram) {lines : List Lines} {labels : List (StepExit × Arch)}
    {t : Cpu6502 × Recorder SimpleBus}
    (run : Machine.run (traceCycle v prof) (cpu, ⟨⟨ram⟩, []⟩) lines = .ok (labels, t))
    (calm : ∀ label ∈ labels, Calm label) (documented : ∀ s ∈ fetches labels, s.Documented) :
    (∀ lines' (labels' : List (StepExit × Arch)) t',
      Machine.run (traceCycle v' prof') (cpu', ⟨⟨ram⟩, []⟩) lines' = .ok (labels', t') →
      (∀ label ∈ labels', Calm label) → ∀ (k : Nat) s s', (fetches labels)[k]? = some s →
        (fetches labels')[k]? = some s' → s' = s) ∧
    (cpu'.pendingNmi = false → ∃ n labels' t',
      Machine.run (traceCycle v' prof') (cpu', ⟨⟨ram⟩, []⟩) (List.replicate n Lines.none) =
        .ok (labels', t') ∧
      (∀ label ∈ labels', Calm label) ∧ fetches labels' = fetches labels) := by
  have here : At v (cpu.arch ram) (cpu, ⟨⟨ram⟩, []⟩) := ⟨start, rfl⟩
  have here' : At v' (cpu.arch ram) (cpu', ⟨⟨ram⟩, []⟩) := ⟨start', same⟩
  have follows : Follows Arch.next Arch.Documented (cpu.arch ram) (fetches labels) :=
    ((route v prof).follows run calm (cpu.arch ram)).1 here
  constructor
  · intro lines' labels' t' run' calm' k s s' shown shown'
    obtain ⟨rfl, goods⟩ := follows.eq_iterate documented shown
    have follows' : Follows Arch.next Arch.Documented (cpu.arch ram) (fetches labels') :=
      ((route v' prof').follows run' calm' (cpu.arch ram)).1 here'
    exact follows' k s' (fun j lt => goods j lt.le) shown'
  · intro ready
    obtain ⟨passed, goods⟩ := follows.eq_map documented
    obtain ⟨n, labels', t', run', calm', passed', -⟩ :=
      Route.passes (route_drives v' prof') here' ready (fetches labels).length goods
    exact ⟨n, labels', t', run', calm', passed'.trans passed.symm⟩

def aslRam : U16 → U8 := fun addr =>
  -- ASL $10F0,X at $0200, and NOP behind it.
  if addr = 0x0200 then 0x1E else if addr = 0x0201 then 0xF0 else if addr = 0x0202 then 0x10 else 0xEA

def aslCpu : Cpu6502 := { new with x := 1, pc := 0x0200 }

set_option maxRecDepth 20000 in
theorem documented_agreement_asl : ∃ n labels' t',
    Machine.run (traceCycle .rockwell65C02 .debug) (aslCpu, ⟨⟨aslRam⟩, []⟩)
      (List.replicate n Lines.none) = .ok (labels', t') ∧
    (fetches labels').map (fun s => (s.pc, s.ram 0x10F1)) = [(0x0200, 0xEA), (0x0203, 0xD4)] := by
  have check : (match Machine.run (traceCycle .nmos6502 .debug) (aslCpu, ⟨⟨aslRam⟩, []⟩)
        (List.replicate 8 Lines.none) with
      | .ok (labels, _) =>
        (labels.all fun label => label.1 = .opcodeFetch || label.1 = .ucyc) &&
        ((fetches labels).all fun s => documentedOpcodes.contains (s.ram s.pc).toNat &&
          !flagSet s.p Psr.D && s.ram s.pc ≠ 0x6C) &&
        (fetches labels).map (fun s => (s.pc, s.ram 0x10F1)) = [(0x0200, 0xEA), (0x0203, 0xD4)]
      | .error _ => false) = true := by
    decide
  split at check
  · next labels t run =>
      simp only [Bool.and_eq_true, List.all_eq_true, Bool.or_eq_true, decide_eq_true_eq,
        Bool.not_eq_true', List.contains_iff_mem] at check
      obtain ⟨⟨exits, documented⟩, shown⟩ := check
      have calm (label) (mem : label ∈ labels) : Calm label := by
        intro type eq
        obtain h | h := exits label mem <;> cases h.symm.trans eq
      obtain ⟨-, reaches⟩ := @documented_agreement .nmos6502 .rockwell65C02 .debug .debug aslCpu aslCpu
        aslRam ⟨⟨rfl, rfl⟩, nofun⟩ ⟨⟨rfl, rfl⟩, nofun⟩ rfl _ labels t run calm fun s mem =>
          ⟨(documented s mem).1.1, (documented s mem).1.2, fun jmp => absurd jmp (documented s mem).2⟩
      obtain ⟨n, labels', t', run', -, same⟩ := reaches rfl
      exact ⟨n, labels', t', run', same ▸ shown⟩
  · cases check

end Cpu6502

end Rs65x
