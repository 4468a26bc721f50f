import Rs65x.Lib.Progress
import Rs65x.Proof.Flight
import Rs65x.Results.Cycles

/-!
# The cores are the programmer's model

From any boundary, under any lines, stalls and interrupts, and in either build.
-/

namespace Rs65x
open Fallible Machine

def StepExit.works : StepExit → Bool
  | .stalled => false
  | _ => true

namespace Cpu6502
variable {v : Variant} {prof : Profile} {s t : Cpu6502 × Recorder SimpleBus} {cycles : List Lines}
  {exits : List StepExit}

/-- The registers and the memory at a boundary are the effects of all that has begun, in order. -/
theorem runs_emulate (boundary : s.1.AtBoundary v)
    (ran : run (busCycle v prof) s cycles = .ok (exits, t)) (there : t.1.AtBoundary v) :
    t.1.arch t.2.bus.ram = (s.1.arch s.2.bus.ram).afterAll v exits := by
  have start : HeadsFor v False (s.1.arch s.2.bus.ram) [] s :=
    .rest boundary (fun time => time.elim) rfl fun time => time.elim
  exact ((start.run ran).boundary there).1

def edgeRam : U16 → U8 := fun addr =>
  -- LDA #5, and a handler of NMI at $03EA.
  if addr = 0 then 0xA9 else if addr = 1 then 5 else if addr = 0xFFFB then 3 else 0xEA

def edgeStart : Cpu6502 × Recorder SimpleBus := (new, ⟨⟨edgeRam⟩, []⟩)

def edgeCycles : List Lines :=
  -- NMI rises in the second cycle.
  Lines.none :: List.replicate 7 ⟨false, true, true⟩

theorem edgeStart_boundary (v : Variant) : edgeStart.1.AtBoundary v :=
  .of_fresh UcycQueue.default_drained rfl

set_option maxRecDepth 20000 in
theorem runs_emulate_nmi : ∃ exits t,
    run (busCycle .nes .debug) edgeStart edgeCycles = .ok (exits, t) ∧
    t.1.arch t.2.bus.ram = (edgeStart.1.arch edgeRam).afterAll .nes exits ∧ t.1.pc = 0x03EA := by
  obtain ⟨exits, t, ran, drained, inst, pc⟩ : ∃ exits t,
      run (busCycle .nes .debug) edgeStart edgeCycles = .ok (exits, t) ∧ t.1.ucycs.Drained ∧
      t.1.currentInst = some (Variant.decode .nes 0) ∧ t.1.pc = 0x03EA :=
    ⟨_, _, rfl, ⟨rfl, rfl⟩, rfl, rfl⟩
  have there : t.1.AtBoundary .nes := .of_inst drained inst (never_due_brk .nes t.1)
  exact ⟨exits, t, ran, runs_emulate (edgeStart_boundary .nes) ran there, pc⟩

theorem Outcome.counts {β : Type} [Bus β] {cpu cpu' : Cpu6502} {lines : Lines} {r r' : Recorder β}
    {exit : StepExit} (inv : cpu.Inv v) (outcome : Outcome v cpu lines r exit cpu' r') :
    r'.log.length = r.log.length + if exit.works then 1 else 0 := by
  cases stalls : cpu.stalls lines with
  | true =>
      cases outcome with
      | stalled => rfl
      | ucyc awake | last awake | extraCycle awake | interrupt awake | fetch awake | first awake =>
          cases stalls.symm.trans awake
  | false =>
      obtain ⟨access, log, -⟩ := outcome.log inv stalls
      rw [log, List.length_append]
      cases outcome with
      | stalled asleep => cases stalls.symm.trans asleep
      | _ => rfl

theorem run_counts {β : Type} [Bus β] {s t : Cpu6502 × Recorder β} (inv : s.1.Inv v)
    (ran : run (busCycle v prof) s cycles = .ok (exits, t)) :
    t.2.log.length = s.2.log.length + exits.countP (·.works) := by
  induction cycles generalizing s exits with
  | nil =>
      cases ran
      rfl
  | cons lines cycles ih =>
      obtain ⟨exit, u, rest, step, tail, rfl⟩ := run_cons_ok ran
      have outcome := step_outcome inv step
      have one : u.2.log.length = s.2.log.length + _ := outcome.counts (inv.sample lines)
      rw [ih (outcome.inv (inv.sample lines)) tail, one, List.countP_cons]
      omega

/-- What the bus has seen in any cycle is what the model has it see, the data included, one access in
a cycle. -/
theorem runs_access (reach : s.1.Reachable SimpleBus v prof) (boundary : s.1.AtBoundary v) (clean : ¬ s.1.MarkedByReset)
    (ran : run (busCycle v prof) s cycles = .ok (exits, t)) :
    let all := (s.1.arch s.2.bus.ram).eventsOfAll v exits
    ((v.decode t.1.currentOpcode).addressMode ≠ .jam →
      t.2.log.map Access.seen = s.2.log.map Access.seen ++ all.take (exits.countP (·.works))) ∧
    (t.1.AtBoundary v → exits.countP (·.works) = all.length) := by
  intro all
  have start : HeadsFor v True (s.1.arch s.2.bus.ram) (s.2.log.map Access.seen) s :=
    .rest boundary (fun _ => clean) rfl fun _ => rfl
  have heads := start.run ran
  have count := run_counts reach.inv ran
  constructor
  · intro other
    have length : (t.2.log.map Access.seen).length =
        (s.2.log.map Access.seen).length + exits.countP (·.works) := by simpa using count
    rw [List.prefix_iff_eq_take.1 (heads.log trivial other), length, List.take_length_add_append]
  · intro there
    have log := (heads.boundary there).2 trivial
    have lengths := congrArg List.length log
    simp only [List.length_map, List.length_append, count] at lengths
    exact Nat.add_left_cancel lengths

set_option maxRecDepth 20000 in
theorem runs_access_nmi : ∃ exits t,
    run (busCycle .nes .debug) edgeStart (edgeCycles.take 6) = .ok (exits, t) ∧
    t.2.log.map Access.seen = ((edgeStart.1.arch edgeRam).eventsOfAll .nes exits).take 6 := by
  obtain ⟨exits, t, ran, count, opcode⟩ : ∃ exits t,
      run (busCycle .nes .debug) edgeStart (edgeCycles.take 6) = .ok (exits, t) ∧
      exits.countP (·.works) = 6 ∧ t.1.currentOpcode = 0 := ⟨_, _, rfl, rfl, rfl⟩
  have clean : ¬ edgeStart.1.MarkedByReset := fun marked => by cases marked.2
  have shown := (@runs_access .nes .debug edgeStart t _ exits .refl (edgeStart_boundary .nes) clean ran).1
  rw [opcode, decode_brk, count] at shown
  exact ⟨exits, t, ran, shown (by decide)⟩

/-! ## Progress -/

section
variable {timed : Prop} {i : Instruction} {e : Exec (Recorder SimpleBus)} {a : Arch}
  {events : List (Traces.Event U16 U8)} {lines : Nat → Lines}

def Lands (v : Variant) (s : Cpu6502 × Recorder SimpleBus) (lines : Nat → Lines) : Prop :=
  LeadsTo (busCycle v .release) (·.starts = false) (·.1.AtBoundary v) lines s

theorem due_lands (drained : s.1.ucycs.Drained) (inst : s.1.currentInst = some i)
    (due : s.1.extraCycleDue v.flavor i = true) (recurs : Recurs (·.rdy = true) lines) :
    Lands v s lines := by
  refine LeadsTo.of_recurs (P := fun s : Cpu6502 × Recorder SimpleBus => s.1.ucycs.Drained ∧
    s.1.currentInst = some i ∧ s.1.extraCycleDue v.flavor i = true) ?_ ⟨drained, inst, due⟩ recurs
  rintro s lines ⟨drained, inst, due⟩ -
  cases stalls : (s.1.sampleNmi (lines 0)).stalls (lines 0) with
  | true =>
      refine .inr ⟨fun high => ?_, _, _, step_stalls stalls s.2, rfl, drained, inst, due⟩
      simp [Cpu6502.stalls, high] at stalls
  | false =>
      refine .inl (LeadsTo.cons (step_due drained inst due stalls .release s.2) rfl (LeadsTo.here ?_))
      refine ⟨drained, fun _ => ?_⟩
      simp [extraCycleDue, adcSbcExtraCycle]

theorem finished_lands {c : Cpu6502} (executing : c.Executing i e) (drained : c.ucycs.Drained)
    (recurs : Recurs (·.rdy = true) lines) : Lands v (c.finished v.flavor i, e.bus) lines := by
  obtain ⟨inst, queue, -⟩ := finished_rest v.flavor executing.inst
  rw [← queue] at drained
  cases due : (c.finished v.flavor i).extraCycleDue v.flavor i with
  | true => exact due_lands drained inst due recurs
  | false =>
      exact LeadsTo.here (.of_inst drained inst due)

theorem Under.lands {mark : Bool} {n : Nat} (under : Under v i e mark n s)
    (recurs : Recurs (·.rdy = true) lines) : Lands v s lines := by
  induction n generalizing s lines with
  | zero =>
      obtain ⟨e₀, -, -, turns⟩ := under.turns
      obtain ⟨m, eq⟩ := turns.count_pos under.live
      cases eq
  | succ n ih =>
      refine LeadsTo.of_recurs (P := Under v i e mark (n + 1)) (fun s lines under recurs => ?_) under recurs
      cases stalls : (s.1.sampleNmi (lines 0)).stalls (lines 0) with
      | true =>
          obtain ⟨e₀, executing, turns⟩ := under.turns
          refine .inr ⟨fun high => ?_, _, _, step_stalls stalls s.2, rfl, under.inv.sample (lines 0),
            under.marked, under.live, e₀, ⟨executing.inst, executing.exec⟩, turns⟩
          simp [Cpu6502.stalls, high] at stalls
      | false =>
          obtain ⟨exit, cpu, r, step, -⟩ :=
            step_spec under.inv (lines 0) s.2 (.inl (rfl : Profile.release = .release))
          obtain ⟨rfl, m, eq, further | ⟨-, c, executing, -, drained, finished⟩⟩ :=
            under.turn stalls step
          · cases eq
            exact .inl (LeadsTo.cons step rfl (ih further recurs.tail))
          · refine .inl (LeadsTo.cons step rfl ?_)
            rw [finished]
            exact finished_lands executing drained recurs.tail

theorem HeadsFor.lands (heads : HeadsFor v timed a events s) (recurs : Recurs (·.rdy = true) lines)
    (other : (v.decode s.1.currentOpcode).addressMode ≠ .jam) : Lands v s lines := by
  cases heads with
  | rest boundary => exact LeadsTo.here boundary
  | due drained inst due => exact due_lands drained inst due recurs
  | under under => exact under.lands recurs
  | jammed _ _ _ jam => exact absurd jam other

theorem AtBoundary.starts {β : Type} [Bus β] {cpu : Cpu6502} (boundary : cpu.AtBoundary v)
    {lines : Lines} (rdy : lines.rdy = true) (prof : Profile) (bus : β) :
    ∃ exit t, cpu.step v.flavor prof lines bus = .ok (exit, t) ∧ exit.starts = true := by
  obtain ⟨exit, cpu', bus', step, outcome⟩ := step_drained (v := v) boundary.drained prof lines bus
  refine ⟨exit, _, step, ?_⟩
  rcases boundary.step step with ⟨rfl, -⟩ | starts
  · cases outcome with
    | stalled stalls => simp [Cpu6502.stalls, rdy] at stalls
  · exact starts

theorem AtBoundary.advance (boundary : s.1.AtBoundary v) (rdy : (lines 0).rdy = true)
    (recurs : Recurs (·.rdy = true) lines) :
    ∃ start u, busCycle v .release s (lines 0) = .ok (start, u) ∧ start.starts = true ∧
      ((v.decode u.1.currentOpcode).addressMode ≠ .jam → ∃ n exits t,
        run (busCycle v .release) s ((List.range n).map lines) = .ok (start :: exits, t) ∧
        (∀ exit ∈ exits, exit.starts = false) ∧ t.1.AtBoundary v) := by
  obtain ⟨start, u, step, starts⟩ := boundary.starts rdy .release s.2
  have heads : HeadsFor v False (s.1.arch s.2.bus.ram) [] s :=
    .rest boundary (fun time => time.elim) rfl fun time => time.elim
  refine ⟨start, u, step, starts, fun other => ?_⟩
  obtain ⟨n, exits, t, ran, none, there⟩ := (heads.step step).lands recurs.tail other
  have first : busCycle v .release s (lines 0) = .ok (start, u) := step
  refine ⟨n + 1, exits, t, ?_, none, there⟩
  rw [range_succ_map, run_cons _ first, ran]
  rfl

theorem run_further {n m : Nat} {exits exits' : List StepExit} {u : Cpu6502 × Recorder SimpleBus}
    (ran : run (busCycle v .release) s ((List.range n).map lines) = .ok (exits, t))
    (ran' : run (busCycle v .release) t ((List.range m).map fun k => lines (n + k)) = .ok (exits', u)) :
    run (busCycle v .release) s ((List.range (n + m)).map lines) = .ok (exits ++ exits', u) := by
  rw [List.range_add, List.map_append, run_append _ ran, List.map_map]
  change run _ t ((List.range m).map fun k => lines (n + k)) >>= _ = _
  rw [ran']
  rfl

theorem filter_starts {start : StepExit} {exits : List StepExit} (starts : start.starts = true)
    (none : ∀ exit ∈ exits, exit.starts = false) : (start :: exits).filter (·.starts) = [start] := by
  rw [List.filter_cons_of_pos starts, List.filter_eq_nil_iff.2 fun exit mem => by simp [none exit mem]]

theorem interrupt_not_jam {β : Type} [Bus β] {cpu cpu' : Cpu6502} {bus bus' : β} {line : Lines}
    {exit : StepExit} (boundary : cpu.AtBoundary v)
    (step : cpu.step v.flavor prof line bus = .ok (exit, cpu', bus')) (starts : exit.starts = true)
    (jam : (v.decode cpu'.currentOpcode).addressMode = .jam) : exit = .opcodeFetch := by
  obtain ⟨_, _, _, step', outcome⟩ := step_drained (v := v) boundary.drained prof line bus
  cases step.symm.trans step'
  cases outcome with
  | fetch | first => rfl
  | interrupt => cases (congrArg (·.addressMode) (decode_brk v)).symm.trans jam
  | stalled | ucyc | last | extraCycle => cases starts

def Proceeds (v : Variant) (s : Cpu6502 × Recorder SimpleBus) (lines : Nat → Lines) : Prop :=
  ∃ n exits t, run (busCycle v .release) s ((List.range n).map lines) = .ok (exits, t) ∧
    ((v.decode t.1.currentOpcode).addressMode = .jam ∧ (∃ front, exits = front ++ [.opcodeFetch] ∧
        ∀ exit ∈ front, exit.starts = false) ∨
      t.1.AtBoundary v ∧ (exits.filter (·.starts)).length = 1)

theorem AtBoundary.proceeds_awake (boundary : s.1.AtBoundary v) (rdy : (lines 0).rdy = true)
    (recurs : Recurs (·.rdy = true) lines) : Proceeds v s lines := by
  obtain ⟨start, u, step, starts, lands⟩ := boundary.advance rdy recurs
  by_cases jam : (v.decode u.1.currentOpcode).addressMode = .jam
  · obtain rfl := interrupt_not_jam boundary step starts jam
    exact ⟨1, _, u, run_cons [] step, .inl ⟨jam, [], rfl, fun _ mem => absurd mem List.not_mem_nil⟩⟩
  · obtain ⟨n, exits, t, ran, none, there⟩ := lands jam
    refine ⟨n, _, t, ran, .inr ⟨there, ?_⟩⟩
    rw [filter_starts starts none]
    rfl

theorem AtBoundary.proceeds (boundary : s.1.AtBoundary v) (recurs : Recurs (·.rdy = true) lines) :
    Proceeds v s lines := by
  obtain ⟨m, high⟩ := recurs 0
  rw [Nat.zero_add] at high
  induction m generalizing s lines with
  | zero => exact boundary.proceeds_awake high recurs
  | succ m ih =>
      cases rdy : (lines 0).rdy with
      | true => exact boundary.proceeds_awake rdy recurs
      | false =>
          have stalls : (s.1.sampleNmi (lines 0)).stalls (lines 0) = true := by
            have none : (s.1.sampleNmi (lines 0)).ucycs.live = [] := boundary.drained.live_eq
            simp [Cpu6502.stalls, rdy, nextCycleRead, UcycQueue.front_eq, none]
          have step : busCycle v .release s (lines 0) = _ := step_stalls stalls s.2
          obtain ⟨n, exits, t, ran, outcome⟩ :=
            @ih (s.1.sampleNmi (lines 0), s.2) _ ⟨boundary.drained, boundary.ended⟩ recurs.tail high
          refine ⟨n + 1, .stalled :: exits, t, ?_, ?_⟩
          · rw [range_succ_map, run_cons _ step, ran]
            rfl
          · rcases outcome with ⟨jam, front, rfl, none⟩ | landed
            · exact .inl ⟨jam, .stalled :: front, rfl, List.forall_mem_cons.2 ⟨rfl, none⟩⟩
            · exact .inr landed

/-- As long as RDY comes back high, the core gets through any number of instructions and interrupt
sequences, unless a JAM is among them. -/
theorem runs_advance (boundary : s.1.AtBoundary v) (recurs : Recurs (·.rdy = true) lines) (k : Nat) :
    ∃ n exits t, run (busCycle v .release) s ((List.range n).map lines) = .ok (exits, t) ∧
      ((v.decode t.1.currentOpcode).addressMode = .jam ∧ (∃ front, exits = front ++ [.opcodeFetch] ∧
          (front.filter (·.starts)).length < k) ∨
        t.1.AtBoundary v ∧ (exits.filter (·.starts)).length = k) := by
  induction k with
  | zero => exact ⟨0, [], s, rfl, .inr ⟨boundary, rfl⟩⟩
  | succ k ih =>
      obtain ⟨n, exits, t, ran, ⟨jam, front, rfl, few⟩ | ⟨there, count⟩⟩ := ih
      · exact ⟨n, _, t, ran, .inl ⟨jam, front, rfl, Nat.lt_succ_of_lt few⟩⟩
      obtain ⟨m, exits', u, ran', ⟨jam, front, rfl, none⟩ | ⟨landed, one⟩⟩ :=
        there.proceeds (recurs.shift n)
      · refine ⟨n + m, _, u, run_further ran ran', .inl ⟨jam, exits ++ front, ?_, ?_⟩⟩
        · exact (List.append_assoc exits front _).symm
        · rw [List.filter_append, List.length_append, count, List.filter_eq_nil_iff.2
            fun exit mem => by simp [none exit mem]]
          exact Nat.lt_succ_self k
      · refine ⟨n + m, _, u, run_further ran ran', .inr ⟨landed, ?_⟩⟩
        rw [List.filter_append, List.length_append, count, one]

def slowLines (n : Nat) : Lines :=
  -- RDY is high in every third cycle.
  ⟨true, n % 2 = 1, n % 3 = 2⟩

theorem runs_advance_slow : ∃ n exits t,
    run (busCycle .nes .release) edgeStart ((List.range n).map slowLines) = .ok (exits, t) ∧
    ((Variant.decode .nes t.1.currentOpcode).addressMode = .jam ∧ (∃ front,
        exits = front ++ [.opcodeFetch] ∧ (front.filter (·.starts)).length < 1000) ∨
      t.1.AtBoundary .nes ∧ (exits.filter (·.starts)).length = 1000) := by
  refine runs_advance (edgeStart_boundary .nes) (fun n => ⟨2 - n % 3, ?_⟩) 1000
  simp only [slowLines, decide_eq_true_eq]
  omega

/-! ## Programs -/

def Uninterrupted (cpu : Cpu6502) (lines : Lines) : Prop :=
  lines.rdy = true ∧ lines.irq = false ∧ lines.nmi = cpu.prevNmi

theorem uninterrupted_step {β : Type} [Bus β] {cpu cpu' : Cpu6502} {bus bus' : β} {exit : StepExit}
    {line : Lines} (inv : cpu.Inv v) (calm : cpu.Uninterrupted line) (pending : cpu.pendingNmi = false)
    (step : cpu.step v.flavor prof line bus = .ok (exit, cpu', bus')) :
    (exit.works = true ∧ ∀ type, exit ≠ .interrupt type) ∧ cpu'.prevNmi = cpu.prevNmi ∧
      cpu'.pendingNmi = false := by
  have outcome := step_outcome inv step
  have none : (cpu.sampleNmi line).pendingNmi = false := by simp [sampleNmi, calm.2.2, pending]
  refine ⟨⟨?_, ?_⟩, (outcome.prevNmi (inv.sample line)).trans calm.2.2, ?_⟩
  · cases outcome with
    | stalled asleep => simp [calm.1, Cpu6502.stalls] at asleep
    | _ => rfl
  · rintro type rfl
    cases outcome with
    | interrupt _ _ _ _ request =>
        rcases request with ⟨-, edge⟩ | ⟨-, -, irq, -⟩
        · cases none.symm.trans edge
        · cases calm.2.1.symm.trans irq
  · rw [outcome.pendingNmi (inv.sample line), none]
    rfl

theorem uninterrupted_run {β : Type} [Bus β] {s t : Cpu6502 × β} (inv : s.1.Inv v)
    (calm : ∀ line ∈ cycles, s.1.Uninterrupted line) (pending : s.1.pendingNmi = false)
    (ran : run (busCycle v prof) s cycles = .ok (exits, t)) :
    (∀ exit ∈ exits, exit.works = true ∧ ∀ type, exit ≠ .interrupt type) ∧ t.1.Inv v ∧ t.1.prevNmi = s.1.prevNmi ∧
      t.1.pendingNmi = false := by
  induction cycles generalizing s exits with
  | nil =>
      cases ran
      exact ⟨fun _ mem => absurd mem List.not_mem_nil, inv, rfl, pending⟩
  | cons line cycles ih =>
      obtain ⟨exit, u, rest, step, tail, rfl⟩ := run_cons_ok ran
      rw [List.forall_mem_cons] at calm
      obtain ⟨other, prev, pending'⟩ := uninterrupted_step inv calm.1 pending step
      have calm' : ∀ line ∈ cycles, u.1.Uninterrupted line := fun line mem => by
        rw [Uninterrupted, prev]
        exact calm.2 line mem
      obtain ⟨others, inv', prev', pending''⟩ :=
        ih ((step_outcome inv step).inv (inv.sample line)) calm' pending' tail
      exact ⟨List.forall_mem_cons.2 ⟨other, others⟩, inv', prev'.trans prev, pending''⟩

theorem starts_calm {exit : StepExit} (calm : exit.starts = false) (a : Arch) :
    a.after v exit = a ∧ a.eventsOf v exit = [] := by
  cases exit with
  | opcodeFetch | interrupt => cases calm
  | stalled | ucyc | extraCycle => exact ⟨rfl, rfl⟩

theorem all_of_starts (a : Arch) (exits : List StepExit) :
    a.afterAll v exits = a.afterAll v (exits.filter (·.starts)) ∧
      a.eventsOfAll v exits = a.eventsOfAll v (exits.filter (·.starts)) := by
  induction exits generalizing a with
  | nil => exact ⟨rfl, rfl⟩
  | cons exit exits ih =>
      cases starts : exit.starts with
      | true =>
          rw [List.filter_cons_of_pos starts]
          exact ⟨(ih (a.after v exit)).1, congrArg (a.eventsOf v exit ++ ·) (ih (a.after v exit)).2⟩
      | false =>
          obtain ⟨same, none⟩ := starts_calm (v := v) starts a
          rw [List.filter_cons_of_neg (by simp [starts]), Arch.eventsOfAll, none, same,
            List.nil_append, Arch.afterAll, List.foldl_cons, same]
          exact ih a

theorem afterAll_replicate (a : Arch) (k : Nat) :
    a.afterAll v (List.replicate k .opcodeFetch) = (Arch.execute v)^[k] a := by
  induction k generalizing a with
  | zero => rfl
  | succ k ih => exact ih (a.execute v)

def cyclesOfAll (v : Variant) (a : Arch) (k : Nat) : Nat :=
  (a.accessesOfAll v (List.replicate k .opcodeFetch)).length

theorem fetch_opcode {u : Cpu6502 × Recorder SimpleBus} {line : Lines} (drained : s.1.ucycs.Drained)
    (arch : s.1.arch s.2.bus.ram = a)
    (fetch : busCycle v prof s line = .ok (.opcodeFetch, u)) : u.1.currentOpcode = a.opcode := by
  obtain ⟨cpu, run, -, -, executing, -⟩ :=
    fetch_spec (v := v) drained (congrArg (·.map (·.1)) fetch) arch
  cases fetch.symm.trans run
  exact congrArg (fun e => e.ctx.opcode) executing.exec

theorem cyclesOfAll_events (a : Arch) (k : Nat) :
    cyclesOfAll v a k = (a.eventsOfAll v (List.replicate k .opcodeFetch)).length := by
  rw [cyclesOfAll, ← Arch.eventsOfAll_access, List.length_map]

/-- `k` instructions, none of them a JAM, run as in the programmer's model and cycle by cycle. -/
theorem run_instructions (inv : s.1.Inv v) (boundary : s.1.AtBoundary v)
    (clean : ¬ s.1.MarkedByReset) (pending : s.1.pendingNmi = false)
    (calm : ∀ n, s.1.Uninterrupted (lines n)) (arch : s.1.arch s.2.bus.ram = a) {k : Nat}
    (jamless : ∀ j < k, (v.decode ((Arch.execute v)^[j] a).opcode).addressMode ≠ .jam) :
    ∃ exits t, run (busCycle v .release) s ((List.range (cyclesOfAll v a k)).map lines) =
        .ok (exits, t) ∧ t.1.AtBoundary v ∧ t.1.arch t.2.bus.ram = (Arch.execute v)^[k] a ∧
      exits.filter (·.starts) = List.replicate k .opcodeFetch ∧ t.2.log.map Access.seen =
        s.2.log.map Access.seen ++ a.eventsOfAll v (List.replicate k .opcodeFetch) := by
  have start : HeadsFor v True (s.1.arch s.2.bus.ram) (s.2.log.map Access.seen) s :=
    .rest boundary (fun _ => clean) rfl fun _ => rfl
  obtain ⟨n, exits, t, ran, there, starts⟩ : ∃ n exits t,
      run (busCycle v .release) s ((List.range n).map lines) = .ok (exits, t) ∧
      t.1.AtBoundary v ∧ exits.filter (·.starts) = List.replicate k .opcodeFetch := by
    induction k with
    | zero => exact ⟨0, [], s, rfl, boundary, rfl⟩
    | succ k ih =>
        obtain ⟨n, exits, t, ran, there, starts⟩ := ih fun j lt => jamless j (Nat.lt_succ_of_lt lt)
        have calms : ∀ line ∈ (List.range n).map lines, s.1.Uninterrupted line := by
          intro line mem
          obtain ⟨j, -, rfl⟩ := List.mem_map.1 mem
          exact calm j
        obtain ⟨-, inv', prev, none⟩ := uninterrupted_run inv calms pending ran
        obtain ⟨start, u, step, begins, lands⟩ :=
          @AtBoundary.advance v t (fun k => lines (n + k)) there (calm n).1 fun k => ⟨0, (calm (n + k)).1⟩
        have quiet : t.1.Uninterrupted (lines n) := by
          rw [Uninterrupted, prev]
          exact calm n
        obtain ⟨⟨-, other⟩, -⟩ := uninterrupted_step inv' quiet none step
        obtain rfl : start = .opcodeFetch := by
          cases start with
          | opcodeFetch => rfl
          | interrupt type => exact absurd rfl (other type)
          | stalled | ucyc | extraCycle => cases begins
        have here := ((start.run ran).boundary there).1
        rw [arch, (all_of_starts a exits).1, starts, afterAll_replicate] at here
        have jam := jamless k (Nat.lt_succ_self k)
        rw [← fetch_opcode there.drained here step] at jam
        obtain ⟨m, exits', w, ran', calm', landed⟩ := lands jam
        refine ⟨n + m, _, w, run_further ran ran', landed, ?_⟩
        rw [List.filter_append, starts, filter_starts begins calm', List.replicate_succ']
  have calms : ∀ line ∈ (List.range n).map lines, s.1.Uninterrupted line := by
    intro line mem
    obtain ⟨j, -, rfl⟩ := List.mem_map.1 mem
    exact calm j
  obtain ⟨works, -⟩ := uninterrupted_run inv calms pending ran
  have length : exits.length = n := by
    rw [run_length ran, List.length_map, List.length_range]
  obtain ⟨after, events⟩ := all_of_starts (v := v) a exits
  obtain ⟨here, log⟩ := (start.run ran).boundary there
  replace log := log trivial
  rw [arch, events, starts] at log
  have count : s.2.log.length + cyclesOfAll v a k = s.2.log.length + n := by
    have lengths := congrArg List.length log
    rw [List.length_map, List.length_append, List.length_map, ← cyclesOfAll_events,
      run_counts inv ran, List.countP_eq_length.2 fun exit mem => (works exit mem).1, length] at lengths
    exact lengths.symm
  rw [Nat.add_left_cancel count]
  refine ⟨exits, t, ran, there, ?_, starts, log⟩
  rw [here, arch, after, starts, afterAll_replicate]

/-- A program without a JAM runs as in the programmer's model, in exactly the cycles of its
instructions. -/
theorem runs_compute (reach : s.1.Reachable SimpleBus v .release) (boundary : s.1.AtBoundary v)
    (clean : ¬ s.1.MarkedByReset) (pending : s.1.pendingNmi = false)
    (calm : ∀ n, s.1.Uninterrupted (lines n)) (arch : s.1.arch s.2.bus.ram = a) {k : Nat}
    (jamless : ∀ j < k, (v.decode ((Arch.execute v)^[j] a).opcode).addressMode ≠ .jam) :
    ∃ exits t, run (busCycle v .release) s ((List.range (cyclesOfAll v a k)).map lines) =
        .ok (exits, t) ∧ t.1.AtBoundary v ∧ t.1.arch t.2.bus.ram = (Arch.execute v)^[k] a ∧
      exits.filter (·.starts) = List.replicate k .opcodeFetch := by
  obtain ⟨exits, t, ran, there, effect, starts, -⟩ :=
    run_instructions reach.inv boundary clean pending calm arch jamless
  exact ⟨exits, t, ran, there, effect, starts⟩

set_option maxRecDepth 20000 in
theorem runs_compute_lda : ∃ exits t,
    run (busCycle .nes .release) edgeStart ((List.range 4).map fun _ => Lines.none) = .ok (exits, t) ∧
    t.1.arch t.2.bus.ram = (Arch.execute .nes)^[2] (edgeStart.1.arch edgeRam) ∧ t.1.a = 5 := by
  have clean : ¬ edgeStart.1.MarkedByReset := fun marked => by cases marked.2
  have jamless : ∀ j < 2, (Variant.decode .nes
      ((Arch.execute .nes)^[j] (edgeStart.1.arch edgeRam)).opcode).addressMode ≠ .jam := by
    intro j lt
    interval_cases j
    · decide
    · decide
  obtain ⟨exits, t, ran, -, arch, -⟩ := @runs_compute .nes edgeStart (edgeStart.1.arch edgeRam)
    (fun _ => Lines.none) .refl (edgeStart_boundary .nes) clean rfl (fun _ => ⟨rfl, rfl, rfl⟩) rfl 2 jamless
  have cycles : cyclesOfAll .nes (edgeStart.1.arch edgeRam) 2 = 4 := by decide
  exact ⟨exits, t, cycles ▸ ran, arch, (congrArg Arch.a arch).trans (by decide)⟩

end

end Cpu6502

end Rs65x
