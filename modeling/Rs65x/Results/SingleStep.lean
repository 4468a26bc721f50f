import Rs65x.Results.Builds
import Rs65x.Results.Buses
import Rs65x.Results.Emulation
import Rs65x.Tests.SingleStep

/-!
# What the single-step tests decide
-/

namespace Rs65x.Tests
open Fallible Machine Traces Cpu6502

def Access.of : Rs65x.Access → Access
  | .read addr _ _ data => ⟨addr.setWidth 16, data, .read⟩
  | .write addr data _ _ => ⟨addr.setWidth 16, data, .write⟩

def Access.event (access : Access) : Traces.Event U16 U8 :=
  (access.accessType = .read, access.addr, access.data)

theorem Access.event_of (a : Rs65x.Access) : (Access.of a).event = a.seen := by
  cases a <;> rfl

theorem Access.event_injective : Function.Injective Access.event := by
  rintro ⟨addr, data, type⟩ ⟨addr', data', type'⟩ same
  simp only [event, Prod.mk.injEq] at same
  obtain ⟨types, rfl, rfl⟩ := same
  cases type <;> cases type' <;> first | rfl | cases types

structure Watches (r : Recorder SimpleBus) (h : Harness) : Prop where
  mem : h.mem = r.bus.ram
  lines : h.lines = Lines.none
  last : ∀ a ∈ r.log.getLast?, h.last = .of a

theorem watches_last {r : Recorder SimpleBus} {h : Harness} {a : Rs65x.Access} {bus : SimpleBus}
    (mem : h.mem = bus.ram) (lines : h.lines = Lines.none) (last : h.last = .of a) :
    Watches ⟨bus, r.log ++ [a]⟩ h := by
  refine ⟨mem, lines, fun a' mem => ?_⟩
  rw [List.getLast?_concat, Option.mem_some_iff] at mem
  rw [last, mem]

theorem watches_stands_in : StandsIn Watches fun _ _ => True where
  read addr vda vpa watches _ := by
    have data := congrFun watches.mem (addr.setWidth 16)
    refine ⟨data, watches_last watches.mem watches.lines ?_⟩
    exact congrArg (Access.mk (addr.setWidth 16) · AccessType.read) data
  write addr data vda vpa watches _ :=
    watches_last (congrArg (Function.update · (addr.setWidth 16) data) watches.mem) watches.lines rfl

section
variable {v : Variant} {prof : Profile} {cpu cpu' : Cpu6502} {r r' : Recorder SimpleBus}
  {h h' : Harness} {exit : StepExit}

theorem awake_log (inv : cpu.Inv v) (step : cpu.step v.flavor prof Lines.none r = .ok (exit, cpu', r')) :
    cpu'.Inv v ∧ ∃ a, r'.log = r.log ++ [a] := by
  have outcome := step_outcome inv step
  obtain ⟨a, log, -⟩ := outcome.log (inv.sample Lines.none) rfl
  exact ⟨outcome.inv (inv.sample Lines.none), a, log⟩

theorem then_ok {B : Type} {check : Except Failure Unit} {next : Unit → Except Failure B} {b : B} :
    (check >>= next) = .ok b ↔ check = .ok () ∧ next () = .ok b := by
  rw [bind_eq_ok]
  constructor
  · rintro ⟨⟨⟩, both⟩
    exact both
  · exact fun both => ⟨(), both⟩

theorem assert_ok {cond : Prop} [Decidable cond] {failure : Failure} :
    assert cond failure = .ok () ↔ cond := by
  unfold assert
  split
  · next holds => exact iff_of_true rfl holds
  · next fails => exact iff_of_false (fun eq => by cases eq) fails

theorem assertCycle_ok {expected actual : Access} :
    assertCycle expected actual = .ok () ↔ expected = actual := by
  unfold assertCycle
  split
  · next same => exact iff_of_true rfl same
  · next other =>
      refine iff_of_false (fun fine => other ?_) other
      simp only [then_ok, assert_ok] at fine
      cases expected
      cases actual
      obtain ⟨type, addr, data⟩ := fine
      exact congr (congr (congrArg Access.mk addr) data) type

theorem forM_ok {B : Type} {check : B → Except Failure Unit} {l : List B} :
    l.forM check = .ok () ↔ ∀ b ∈ l, check b = .ok () := by
  induction l with
  | nil => exact iff_of_true rfl fun _ mem => absurd mem List.not_mem_nil
  | cons b l ih =>
      change (check b >>= fun _ => l.forM check) = .ok () ↔ _
      rw [then_ok, ih, List.forall_mem_cons]

structure State.Describes (fin : State) (arch : Arch) : Prop where
  pc : arch.pc = fin.pc
  a : arch.a = fin.a
  s : arch.s = fin.s
  x : arch.x = fin.x
  y : arch.y = fin.y
  p : arch.p = fin.p
  ram : ∀ byte ∈ fin.ram, arch.ram byte.1 = byte.2

theorem assertFinal_ok {fin : State} :
    assertFinal cpu h fin = .ok () ↔ fin.Describes (cpu.arch h.mem) := by
  simp only [assertFinal, then_ok, assert_ok, forM_ok]
  constructor
  · rintro ⟨pc, a, s, x, y, p, ram⟩
    exact ⟨pc, a, s, x, y, p, ram⟩
  · rintro ⟨pc, a, s, x, y, p, ram⟩
    exact ⟨pc, a, s, x, y, p, ram⟩

/-! ## The loop of a case -/

def quietly (cycles : List Access) : List Lines := cycles.map fun _ => Lines.none

theorem runCycles_sound {cycles : List Access} (watches : Watches r h) (inv : cpu.Inv v)
    (ran : runCycles v.flavor prof (cpu, h) cycles = .ok (cpu', h')) :
    ∃ exits r', run (busCycle v prof) (cpu, r) (quietly cycles) = .ok (exits, (cpu', r')) ∧
      Watches r' h' ∧ r'.log.map Access.of = r.log.map Access.of ++ cycles := by
  induction cycles generalizing cpu r h with
  | nil =>
      cases ran
      exact ⟨[], r, rfl, watches, (List.append_nil _).symm⟩
  | cons cycle cycles ih =>
      rw [runCycles, watches.lines] at ran
      split at ran
      · cases ran
      · next exit cpu₁ h₁ step =>
          rw [then_ok, assertCycle_ok] at ran
          obtain ⟨expected, ran⟩ := ran
          obtain ⟨r₁, step', watches₁⟩ := step_follows_back watches_stands_in (fun _ _ => trivial) watches step
          obtain ⟨inv₁, a, log⟩ := awake_log inv step'
          obtain ⟨exits, r', ran', watches', logs⟩ := ih watches₁ inv₁ ran
          have first : busCycle v prof (cpu, r) Lines.none = .ok (exit, (cpu₁, r₁)) := step'
          refine ⟨exit :: exits, r', ?_, watches', ?_⟩
          · change run _ _ (Lines.none :: quietly cycles) = _
            rw [run_cons _ first, ran', ok_bind]
          · have last := watches₁.last a (by rw [log]; simp)
            rw [logs, log, expected, last]
            simp

theorem runCycles_complete {cycles : List Access} {exits : List StepExit} (watches : Watches r h)
    (inv : cpu.Inv v)
    (ran : run (busCycle v prof) (cpu, r) (quietly cycles) = .ok (exits, (cpu', r')))
    (logs : r'.log.map Access.of = r.log.map Access.of ++ cycles) :
    ∃ h', runCycles v.flavor prof (cpu, h) cycles = .ok (cpu', h') ∧ Watches r' h' := by
  induction cycles generalizing cpu r h exits with
  | nil =>
      cases ran
      exact ⟨h, rfl, watches⟩
  | cons cycle cycles ih =>
      obtain ⟨exit, ⟨cpu₁, r₁⟩, rest, step, tail, rfl⟩ := run_cons_ok ran
      obtain ⟨h₁, step', watches₁⟩ := step_follows watches_stands_in (fun _ _ => trivial) watches step
      obtain ⟨inv₁, a, log⟩ := awake_log inv step
      obtain ⟨more, further⟩ := run_logged tail
      replace further : r'.log = r₁.log ++ more := further
      rw [further, log, List.append_assoc, List.map_append] at logs
      obtain ⟨expected, others⟩ := List.cons.inj (List.append_cancel_left logs)
      replace others : more.map Access.of = cycles := others
      obtain ⟨h', ran', watches'⟩ := ih watches₁ inv₁ tail (by rw [further, List.map_append, others])
      refine ⟨h', ?_, watches'⟩
      have last := watches₁.last a (by rw [log]; simp)
      have fine : assertCycle cycle h₁.last = .ok () := assertCycle_ok.2 (expected.symm.trans last.symm)
      rw [runCycles, watches.lines, step']
      simp only [fine, ok_bind, ran']

end

/-! ## The suite -/

def State.arch (initial : State) : Arch where
  a := initial.a
  x := initial.x
  y := initial.y
  s := initial.s
  p := initial.p
  pc := initial.pc
  ram := initial.ram.foldl (fun mem byte => Function.update mem byte.1 byte.2) fun _ => 0

/-- What the case records is what `k` instructions do in the programmer's model. -/
structure SingleStepCase.Records (v : Variant) (k : Nat) (test : SingleStepCase) : Prop where
  cycles : test.cycles.map Access.event =
    test.initial.arch.eventsOfAll v (List.replicate k .opcodeFetch)
  final : test.final.Describes ((Arch.execute v)^[k] test.initial.arch)

section
variable {v : Variant} {k : Nat} {test : SingleStepCase}

def recorder (initial : State) : Recorder SimpleBus := ⟨⟨(setupInitial initial).2.mem⟩, []⟩

theorem watches_setup (initial : State) : Watches (recorder initial) (setupInitial initial).2 :=
  ⟨rfl, rfl, fun _ mem => by cases mem⟩

theorem setup_inv (initial : State) : (setupInitial initial).1.Inv v :=
  ⟨(new_inv v).wf, (new_inv v).idle, (new_inv v).inst⟩

theorem quietly_eq (cycles : List Access) :
    quietly cycles = (List.range cycles.length).map fun _ => Lines.none := by
  rw [quietly, List.map_const', List.map_const', List.length_range]

theorem case_run (jamless : ∀ j < k, (v.decode ((Arch.execute v)^[j] test.initial.arch).opcode).addressMode ≠ .jam)
    (count : test.cycles.length = cyclesOfAll v test.initial.arch k) :
    ∃ exits cpu' r', run (busCycle v .release) ((setupInitial test.initial).1, recorder test.initial)
        (quietly test.cycles) = .ok (exits, (cpu', r')) ∧
      cpu'.arch r'.bus.ram = (Arch.execute v)^[k] test.initial.arch ∧
      r'.log.map Access.seen = test.initial.arch.eventsOfAll v (List.replicate k .opcodeFetch) := by
  have boundary : (setupInitial test.initial).1.AtBoundary v :=
    .of_fresh UcycQueue.default_drained rfl
  have clean : ¬ (setupInitial test.initial).1.MarkedByReset := fun marked => by cases marked.2
  obtain ⟨exits, t, ran, -, arch, -, log⟩ := @run_instructions v
    ((setupInitial test.initial).1, recorder test.initial) test.initial.arch (fun _ => Lines.none)
    (setup_inv test.initial) boundary clean rfl (fun _ => ⟨rfl, rfl, rfl⟩) rfl k jamless
  rw [← count, ← quietly_eq] at ran
  exact ⟨exits, t.1, t.2, ran, arch, log⟩

theorem records_of_run {prof : Profile} {cpu' : Cpu6502} {h' : Harness}
    (jamless : ∀ j < k, (v.decode ((Arch.execute v)^[j] test.initial.arch).opcode).addressMode ≠ .jam)
    (count : test.cycles.length = cyclesOfAll v test.initial.arch k)
    (ran : runCycles v.flavor prof (setupInitial test.initial) test.cycles = .ok (cpu', h'))
    (final : assertFinal cpu' h' test.final = .ok ()) : test.Records v k := by
  obtain ⟨exits, r', ran', watches, logs⟩ :=
    runCycles_sound (watches_setup test.initial) (setup_inv test.initial) ran
  obtain ⟨exits', t, u, release, arch, log⟩ := case_run jamless count
  have same : (cpu', r') = (t, u) := by
    cases prof with
    | release =>
        cases ran'.symm.trans release
        rfl
    | debug =>
        obtain ⟨x, ran'', ⟨-, debug⟩ | ⟨-, fault⟩⟩ :=
          run_builds (v := v) (s := ((setupInitial test.initial).1, recorder test.initial))
            (setup_inv test.initial) (quietly test.cycles)
        · cases debug.symm.trans ran'
          cases ran''.symm.trans release
          rfl
        · cases fault.symm.trans ran'
  cases same
  replace logs : r'.log.map Access.of = test.cycles := logs
  constructor
  · rw [← logs, ← log, List.map_map]
    exact List.map_congr_left fun a _ => Access.event_of a
  · rw [assertFinal_ok, watches.mem, arch] at final
    exact final

theorem runCase_ok
    (jamless : ∀ j < k, (v.decode ((Arch.execute v)^[j] test.initial.arch).opcode).addressMode ≠ .jam)
    (count : test.cycles.length = cyclesOfAll v test.initial.arch k) :
    runCase v.flavor .release test = .ok () ↔ test.Records v k := by
  unfold runCase
  rw [bind_eq_ok]
  constructor
  · rintro ⟨⟨cpu', h'⟩, ran, final⟩
    exact records_of_run jamless count ran final
  · intro records
    obtain ⟨exits, cpu', r', release, arch, log⟩ := case_run jamless count
    have logs : r'.log.map Access.of = (recorder test.initial).log.map Access.of ++ test.cycles := by
      apply Access.event_injective.list_map
      change (r'.log.map Access.of).map Access.event = test.cycles.map Access.event
      rw [records.cycles, ← log, List.map_map]
      exact List.map_congr_left fun a _ => Access.event_of a
    obtain ⟨h', ran, watches⟩ :=
      runCycles_complete (watches_setup test.initial) (setup_inv test.initial) release logs
    refine ⟨(cpu', h'), ran, ?_⟩
    change assertFinal cpu' h' test.final = .ok ()
    rw [assertFinal_ok, watches.mem, arch]
    exact records.final

end

/-- The single-step tests pass on exactly the cases that the programmer's model would record. -/
theorem single_step_decides {v : Variant} {k : Nat} {tests : List SingleStepCase}
    (jamless : ∀ test ∈ tests, ∀ j < k,
      (v.decode ((Arch.execute v)^[j] test.initial.arch).opcode).addressMode ≠ .jam)
    (count : ∀ test ∈ tests, test.cycles.length = cyclesOfAll v test.initial.arch k) :
    (runOpcode v.flavor .release tests = .ok () ↔ ∀ test ∈ tests, test.Records v k) ∧
    (runOpcode v.flavor .debug tests = .ok () → ∀ test ∈ tests, test.Records v k) := by
  unfold runOpcode
  rw [forM_ok, forM_ok]
  constructor
  · exact forall₂_congr fun test mem => runCase_ok (jamless test mem) (count test mem)
  · intro passes test mem
    have case := passes test mem
    rw [runCase, bind_eq_ok] at case
    obtain ⟨⟨cpu', h'⟩, ran, final⟩ := case
    exact records_of_run (jamless test mem) (count test mem) ran final

def incCase : SingleStepCase where
  -- INC $10, with the dummy write of the NMOS cores.
  initial := ⟨0x0200, 0xFD, 0, 0, 0, 0x24, [(0x0200, 0xE6), (0x0201, 0x10), (0x10, 0x7F)]⟩
  final := ⟨0x0202, 0xFD, 0, 0, 0, 0xA4, [(0x10, 0x80)]⟩
  cycles := [⟨0x0200, 0xE6, .read⟩, ⟨0x0201, 0x10, .read⟩, ⟨0x10, 0x7F, .read⟩, ⟨0x10, 0x7F, .write⟩,
    ⟨0x10, 0x80, .write⟩]

set_option maxRecDepth 20000 in
theorem single_step_decides_inc :
    runOpcode (Variant.flavor .nmos6502) .release [incCase] = .ok () := by
  have jamless : ∀ test ∈ [incCase], ∀ j < 1, (Variant.decode .nmos6502
      ((Arch.execute .nmos6502)^[j] test.initial.arch).opcode).addressMode ≠ .jam := by
    intro test mem j lt
    rw [List.mem_singleton.1 mem, Nat.lt_one_iff.1 lt]
    decide
  have count : ∀ test ∈ [incCase], test.cycles.length = cyclesOfAll .nmos6502 test.initial.arch 1 := by
    intro test mem
    rw [List.mem_singleton.1 mem]
    decide
  have records : ∀ test ∈ [incCase], test.Records .nmos6502 1 := by
    intro test mem
    rw [List.mem_singleton.1 mem]
    refine ⟨by decide, ⟨by decide, by decide, by decide, by decide, by decide, by decide, ?_⟩⟩
    exact List.forall_mem_singleton.2 (by decide)
  exact (single_step_decides jamless count).1.2 records

end Rs65x.Tests
