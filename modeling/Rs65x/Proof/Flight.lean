import Rs65x.Proof.Events
import Rs65x.Results.Jam
import Rs65x.Results.Timing

/-!
# Any build, any lines

What begins at a boundary is on its way to the end of its micro-ops, however the lines stall it, and
then to the cycle that a CMOS core may insert.
-/

namespace Rs65x
open Fallible Machine Traces Words Worklist

theorem Variant.emission_jammed {v : Variant} {op : U8} (jam : (v.decode op).addressMode = .jam) :
    v.emission op = jamOps := by
  obtain ⟨-, -, -, emits⟩ := v.emission_spec op
  replace emits := emits .release
  rw [jam] at emits
  cases v <;> first | exact (Except.ok.inj emits).symm | cases emits

namespace Cpu6502

/-- In instruction `i`, with `n` micro-ops to go, which end at `e` unless the build panics. -/
structure Under {β : Type} [Bus β] (v : Variant) (i : Instruction) (e : Exec β) (mark : Bool)
    (n : Nat) (s : Cpu6502 × β) : Prop where
  inv : s.1.Inv v
  marked : s.1.extraAdcSbcCycle = mark
  live : s.1.ucycs.live ≠ []
  turns : ∃ e₀, s.1.Executing i e₀ ∧ s.2 = e₀.bus ∧
    Exec.TurnsIn .release v.flavor e₀ s.1.ucycs.live n e []

def extraEvents (F : Flavor) (cpu : Cpu6502) (i : Instruction) (ram : U16 → U8) :
    List (Traces.Event U16 U8) :=
  spell ram ram (cpu.extraAccesses F i)

/-- Completed at `e`, the core shows `a`, and if the run is `timed` its log `events`, but for an
inserted cycle. -/
structure Leads (v : Variant) (timed : Prop) (i : Instruction) (e : Exec (Recorder SimpleBus))
    (a : Arch) (events : List (Traces.Event U16 U8)) : Prop where
  effect : ∀ c : Cpu6502, c.Executing i e → (c.finished v.flavor i).arch e.bus.bus.ram = a
  made : timed → e.bus.log.map Access.seen <+: events
  inserts : timed → ∀ c : Cpu6502, c.Executing i e → c.extraAdcSbcCycle = false →
    e.bus.log.map Access.seen ++ (c.finished v.flavor i).extraEvents v.flavor i e.bus.bus.ram = events

/-- What has begun will have left `a` when it is over, and `events` if the run is `timed`. -/
inductive HeadsFor (v : Variant) (timed : Prop) (a : Arch) (events : List (Traces.Event U16 U8))
    (s : Cpu6502 × Recorder SimpleBus) : Prop
  | rest (boundary : s.1.AtBoundary v) (clean : timed → ¬ s.1.MarkedByReset)
      (arch : s.1.arch s.2.bus.ram = a) (log : timed → s.2.log.map Access.seen = events)
  | due {i : Instruction} (drained : s.1.ucycs.Drained)
      (inst : s.1.currentInst = some i) (due : s.1.extraCycleDue v.flavor i = true)
      (arch : s.1.arch s.2.bus.ram = a)
      (log : timed → s.2.log.map Access.seen ++ s.1.extraEvents v.flavor i s.2.bus.ram = events)
  | under {i : Instruction} {e : Exec (Recorder SimpleBus)} {mark : Bool} {n : Nat}
      (under : Under v i e mark n s) (unmarked : timed → mark = false)
      (leads : Leads v timed i e a events)
  | jammed {made : Nat} (inv : s.1.Inv v) (le : made ≤ 4) (live : s.1.ucycs.live = jamOps.drop made)
      (jam : (v.decode s.1.currentOpcode).addressMode = .jam)

section
variable {β : Type} [Bus β] {v : Variant} {prof : Profile} {i : Instruction} {e : Exec β} {mark : Bool} {n : Nat}
  {cpu : Cpu6502} {r : β} {lines : Lines} {exit : StepExit} {t : Cpu6502 × β}

theorem returned_fits (inv : cpu.Inv v) (executing : cpu.Executing i e) {u : MicroOp}
    {rest : List MicroOp} (live : cpu.ucycs.live = u :: rest)
    (awake : (cpu.sampleNmi lines).stalls lines = false)
    (run : cpu.step v.flavor prof lines r = .ok (exit, t)) :
    prof = .release ∨ ¬ (u.alu = .fixPtr ∧ e.scratch.ptr = 0xFF00) := by
  cases prof with
  | release => exact .inl rfl
  | debug =>
      refine .inr ?_
      rintro ⟨alu, ptr⟩
      have scratch : cpu.scratch = e.scratch := congrArg Exec.scratch executing.exec
      have large : cpu.ptrOverflows = true := by
        simp [ptrOverflows, UcycQueue.front_eq, live, alu, scratch, ptr]
      cases run.symm.trans (step_overflows inv r awake large)

theorem Under.turn (under : Under v i e mark n (cpu, r))
    (awake : (cpu.sampleNmi lines).stalls lines = false)
    (run : cpu.step v.flavor prof lines r = .ok (exit, t)) :
    exit = .ucyc ∧ ∃ m, n = m + 1 ∧ (Under v i e mark m t ∨ m = 0 ∧ ∃ c : Cpu6502, c.Executing i e ∧
      c.extraAdcSbcCycle = mark ∧ c.ucycs.Drained ∧ t = (c.finished v.flavor i, e.bus)) := by
  obtain ⟨e₀, executing, bus, turns⟩ := under.turns
  replace bus : r = e₀.bus := bus
  subst bus
  obtain ⟨u, rest, live⟩ := List.exists_cons_of_ne_nil under.live
  replace live : cpu.ucycs.live = u :: rest := live
  rw [live] at turns
  obtain ⟨-, m, rfl, turns'⟩ := turns.cases_cons
  rcases next : e₀.next v.flavor u rest with ⟨e₁, us⟩
  rw [next] at turns'
  obtain ⟨c, executing₁, kept, wf, live₁, ran⟩ := step_turn under.inv executing live next prof
    (returned_fits under.inv executing live awake run) awake
  cases run.symm.trans ran
  have inv := (step_outcome under.inv ran).inv (under.inv.sample lines)
  have marked : c.extraAdcSbcCycle = mark := kept.extra.trans under.marked
  refine ⟨rfl, m, rfl, ?_⟩
  cases us with
  | nil =>
      obtain ⟨rfl, rfl⟩ := turns'.cases_nil
      exact .inr ⟨rfl, c, executing₁, marked, wf.live_eq_nil.1 live₁, rfl⟩
  | cons u₁ us =>
      rw [if_neg (List.cons_ne_nil u₁ us)] at inv ⊢
      have more : c.ucycs.live ≠ [] := live₁ ▸ List.cons_ne_nil u₁ us
      exact .inl ⟨inv, marked, more, e₁, executing₁, rfl, live₁ ▸ turns'⟩

theorem Under.step (under : Under v i e mark n (cpu, r))
    (run : cpu.step v.flavor prof lines r = .ok (exit, t)) : exit.starts = false ∧
      ((∃ m, Under v i e mark m t) ∨ ∃ c : Cpu6502, c.Executing i e ∧ c.extraAdcSbcCycle = mark ∧
        c.ucycs.Drained ∧ t = (c.finished v.flavor i, e.bus)) := by
  cases stalls : (cpu.sampleNmi lines).stalls lines with
  | true =>
      cases run.symm.trans (step_stalls stalls r)
      obtain ⟨e₀, executing, turns⟩ := under.turns
      refine ⟨rfl, .inl ⟨n, under.inv.sample lines, under.marked, under.live, e₀, ?_, turns⟩⟩
      exact ⟨executing.inst, executing.exec⟩
  | false =>
      obtain ⟨rfl, m, rfl, further | ⟨rfl, ended⟩⟩ := under.turn stalls run
      · exact ⟨rfl, .inl ⟨m, further⟩⟩
      · exact ⟨rfl, .inr ended⟩

theorem jammed_step {made : Nat} (inv : cpu.Inv v) (le : made ≤ 4)
    (live : cpu.ucycs.live = jamOps.drop made) (run : cpu.step v.flavor prof lines r = .ok (exit, t)) :
    exit.starts = false ∧ t.1.currentOpcode = cpu.currentOpcode ∧
      ∃ m ≤ 4, t.1.ucycs.live = jamOps.drop m := by
  obtain ⟨u, rest, first, idles, left, -⟩ := jamOps_drop le
  rw [first] at live
  cases stalls : (cpu.sampleNmi lines).stalls lines with
  | true =>
      cases run.symm.trans (step_stalls stalls r)
      exact ⟨rfl, rfl, made, le, live.trans first.symm⟩
  | false =>
      cases inst : cpu.currentInst with
      | none => cases live.symm.trans (inv.idle inst).live_eq
      | some i =>
          have executing : cpu.Executing i (cpu.exec i r) := ⟨inst, rfl⟩
          obtain ⟨-, us⟩ := Exec.next_idles v.flavor (cpu.exec i r) idles rest
          rw [left] at us
          have more : jamOps.drop (min (made + 1) 4) ≠ [] := by
            simp [jamOps]
          have next : (cpu.exec i r).next v.flavor u rest =
              (((cpu.exec i r).next v.flavor u rest).1, jamOps.drop (min (made + 1) 4)) := by
            rw [← us]
          obtain ⟨c, executing', -, -, live', ran⟩ := step_turn inv executing live next prof
            (returned_fits inv executing live stalls run) stalls
          rw [if_neg more] at ran
          cases run.symm.trans ran
          have same := congrArg (fun e => e.ctx.opcode) executing'.exec
          refine ⟨rfl, same.trans ?_, _, Nat.min_le_right _ _, live'⟩
          obtain ⟨_, _, _, _, _, eq, -⟩ := (cpu.exec i r).next_frame v.flavor u rest
          rw [eq]
          rfl

end

section
variable {v : Variant} {prof : Profile} {timed : Prop} {i : Instruction} {e : Exec (Recorder SimpleBus)} {a : Arch}
  {events : List (Traces.Event U16 U8)} {s t : Cpu6502 × Recorder SimpleBus} {lines : Lines}
  {exit : StepExit}

theorem Leads.heads (leads : Leads v timed i e a events) {c : Cpu6502} (executing : c.Executing i e)
    (unmarked : timed → c.extraAdcSbcCycle = false) (drained : c.ucycs.Drained) :
    HeadsFor v timed a events (c.finished v.flavor i, e.bus) := by
  have arch := leads.effect c executing
  have log (time : timed) := leads.inserts time c executing (unmarked time)
  obtain ⟨inst, queue, -, mark⟩ := finished_rest v.flavor executing.inst
  rw [← queue] at drained
  cases due : (c.finished v.flavor i).extraCycleDue v.flavor i with
  | true => exact .due drained inst due arch log
  | false =>
      refine .rest ⟨drained, fun inst' => ?_⟩ (fun _ marked => ?_) arch fun time => ?_
      · cases inst.symm.trans inst'
        exact due
      · cases marked.1.symm.trans inst
      · rw [← log time, extraEvents, extraAccesses, if_neg (by rw [due]; decide), spell,
          List.append_nil]

theorem turns_extend {F : Flavor} {e e' : Exec (Recorder SimpleBus)} {us left : List MicroOp} {n : Nat}
    (turns : Exec.TurnsIn prof F e us n e' left) : ∃ tail, e'.bus.log = e.bus.log ++ tail := by
  induction turns with
  | refl => exact ⟨[], (List.append_nil _).symm⟩
  | @turn e e' u rest left n _ _ ih =>
      obtain ⟨tail, log⟩ := ih
      obtain ⟨access, first, -⟩ := e.next_log F u rest
      rw [log, first]
      exact ⟨[access] ++ tail, List.append_assoc _ _ _⟩

theorem inserted_reads (a : Arch) : ∀ access ∈ a.inserted v, access.1 = true := by
  intro access mem
  unfold Arch.inserted at mem
  dsimp only at mem
  split at mem
  · rw [List.mem_singleton.1 mem]
  · cases mem

theorem fetch_heads (drained : s.1.ucycs.Drained) (clean : timed → ¬ s.1.MarkedByReset)
    (arch : s.1.arch s.2.bus.ram = a) (log : timed → s.2.log.map Access.seen = events)
    (fetch : s.1.step v.flavor prof lines s.2 = .ok (.opcodeFetch, t)) :
    HeadsFor v timed (a.execute v) (events ++ a.eventsOf v .opcodeFetch) t := by
  obtain ⟨cpu, run, inv, live, executing, -, mark⟩ :=
    fetch_spec (v := v) drained (congrArg (·.map (·.1)) fetch) arch
  cases fetch.symm.trans run
  have unmarked (time : timed) : cpu.extraAdcSbcCycle = false := by
    rw [mark, Bool.and_eq_false_iff]
    by_contra both
    simp only [not_or, Bool.not_eq_false, Option.isNone_iff_eq_none] at both
    exact clean time ⟨both.2, both.1⟩
  have opcode : cpu.currentOpcode = a.opcode := congrArg (fun e => e.ctx.opcode) executing.exec
  by_cases jam : (v.decode a.opcode).addressMode = .jam
  · refine .jammed inv (Nat.zero_le 4) (live.trans ?_) (opcode ▸ jam)
    exact Variant.emission_jammed jam
  obtain ⟨n, e, executed⟩ := Arch.executed s.2.log jam
  have bus : (⟨s.2.bus, s.2.log ++ [a.opcodeRead]⟩ : Recorder SimpleBus) = (a.opened v s.2.log).bus := by
    rw [← arch]
    rfl
  have turns := executed.turns
  obtain ⟨done, ended⟩ : ∃ c : Cpu6502, c.Executing (v.decode a.opcode) e := by
    rw [← live] at turns
    by_cases empty : cpu.ucycs.live = []
    · rw [empty] at turns
      obtain ⟨-, rfl⟩ := turns.cases_nil
      exact ⟨cpu, executing⟩
    · obtain ⟨m, rfl⟩ := turns.count_pos empty
      have rdy : ∀ line ∈ List.replicate (m + 1) Lines.none, line.rdy = true :=
        fun line mem => List.eq_of_mem_replicate mem ▸ rfl
      obtain ⟨c, ended, -⟩ := turns_run inv executing turns List.length_replicate rdy
      exact ⟨c, ended⟩
  have ram : e.bus.bus.ram = (a.execute v).ram := congrArg Arch.ram (executed.realizes done ended)
  obtain ⟨seen, coherent⟩ := executed.events
  rw [ram] at seen coherent
  have leads : Leads v timed (v.decode a.opcode) e (a.execute v)
      (events ++ a.eventsOf v .opcodeFetch) := by
    have all (time : timed) : e.bus.log.map Access.seen ++
        spell (a.execute v).ram (a.execute v).ram (a.inserted v) = events ++ a.eventsOf v .opcodeFetch := by
      rw [seen, log time, List.append_assoc, ← spell_append coherent (inserted_reads a)]
      rfl
    refine ⟨executed.realizes, fun time => ⟨_, all time⟩, fun time c executing unmarked => ?_⟩
    rw [extraEvents, executed.inserts c executing unmarked, ram, all time]
  by_cases empty : v.emission a.opcode = []
  · rw [empty] at turns live
    obtain ⟨rfl, rfl⟩ := turns.cases_nil
    have nop := finished_nop cpu (Variant.emission_nil empty jam)
    have settled := leads.heads executing unmarked (inv.wf.live_eq_nil.1 live)
    rw [nop, ← bus] at settled
    exact settled
  · refine .under ⟨inv, rfl, ?_, _, executing, bus, live ▸ turns⟩ unmarked leads
    exact live ▸ empty

theorem interrupt_heads {type : InterruptType} (boundary : s.1.AtBoundary v)
    (arch : s.1.arch s.2.bus.ram = a) (log : timed → s.2.log.map Access.seen = events)
    (step : s.1.step v.flavor prof lines s.2 = .ok (.interrupt type, t)) :
    HeadsFor v timed (a.after v (.interrupt type)) (events ++ a.eventsOf v (.interrupt type)) t := by
  obtain ⟨exit, cpu', r', step', outcome⟩ :=
    step_drained (v := v) boundary.drained prof lines s.2
  cases step.symm.trans step'
  cases outcome with
  | @interrupt _ _ q _ _ _ _ _ wf live =>
      let m : Narrow := ⟨s.1.interrupted v 0 q |>.toCtx (v.decode 0), s.2.bus.ram s.1.pc, 0x7F, 0, 0, 0,
        .read, s.2.bus.ram, s.2.log ++ [.read (s.1.pc.setWidth 32) false true (s.2.bus.ram s.1.pc)]⟩
      have quiet : m.Quiet := ⟨rfl, congrArg (·.mnemonic.action) (decode_brk v)⟩
      subst arch
      obtain ⟨e, turns, arch⟩ := Exec.turns_entered v.flavor quiet rfl (.inl rfl) type.vector
      obtain ⟨e', turns', logged⟩ :=
        @Exec.logged_entry v.flavor m quiet s.1.s rfl _ (.inl rfl) type.vector
      obtain ⟨-, rfl⟩ := turns.unique turns'
      have read : Bus.read s.2 ((s.1.sampleNmi lines).pc.setWidth 32) false true =
          (s.2.bus.ram s.1.pc, ⟨m.exec.bus.bus, m.exec.bus.log⟩) := Exec.bus_read s.2 s.1.pc false true
      rw [read]
      have more : q.live ≠ [] := by
        rw [live]
        exact List.cons_ne_nil _ _
      refine .under (e := e) (n := 5) ⟨interrupted_inv _ _ wf live, rfl, more, m.exec, ⟨rfl, rfl⟩, rfl, ?_⟩
        (fun _ => rfl) ?_
      · change Exec.TurnsIn .release v.flavor m.exec q.live 5 e []
        rw [live]
        exact turns.anywhere _
      · have ram : e.bus.bus.ram = ((s.1.arch s.2.bus.ram).after v (.interrupt type)).ram :=
          congrArg Arch.ram arch
        have all (time : timed) : e.bus.log.map Access.seen =
            events ++ (s.1.arch s.2.bus.ram).eventsOf v (.interrupt type) := by
          rw [Arch.entry_events (s := s.1.arch s.2.bus.ram) turns rfl rfl logged, log time, ram]
          rfl
        refine ⟨fun c executing => ?_, fun time => all time ▸ List.prefix_rfl, fun time c _ _ => ?_⟩
        · have here : c.arch e.bus.bus.ram = _ := (executing.arch e.bus.bus.ram).trans arch
          have p : c.p = s.1.p := congrArg Arch.p here
          rw [finished_entry, here, p]
          rfl
        · rw [extraEvents, extraAccesses, never_due_brk, if_neg Bool.false_ne_true, spell,
            List.append_nil, all time]

/-- One cycle, whatever the lines and the build. -/
theorem HeadsFor.step (heads : HeadsFor v timed a events s)
    (step : busCycle v prof s lines = .ok (exit, t)) :
    HeadsFor v timed (a.after v exit) (events ++ a.eventsOf v exit) t := by
  have idle (calm : exit.starts = false) (further : HeadsFor v timed a events t) :
      HeadsFor v timed (a.after v exit) (events ++ a.eventsOf v exit) t := by
    cases exit with
    | opcodeFetch | interrupt => cases calm
    | stalled | ucyc | extraCycle => exact (List.append_nil events).symm ▸ further
  cases heads with
  | rest boundary clean arch log =>
      rcases boundary.step step with ⟨rfl, rfl⟩ | starts
      · exact idle rfl (.rest ⟨boundary.drained, boundary.ended⟩ clean arch log)
      · cases exit with
        | opcodeFetch => exact fetch_heads boundary.drained clean arch log step
        | interrupt type => exact interrupt_heads boundary arch log step
        | stalled | ucyc | extraCycle => cases starts
  | @due i drained inst due arch log =>
      have mark : s.1.extraAdcSbcCycle = false := by
        simp only [extraCycleDue, adcSbcExtraCycle, Bool.and_eq_true, Bool.not_eq_true'] at due
        exact due.2.2
      cases stalls : (s.1.sampleNmi lines).stalls lines with
      | true =>
          cases step.symm.trans (step_stalls stalls s.2)
          exact idle rfl (.due drained inst due arch log)
      | false =>
          have ran := step_due drained inst due stalls prof s.2
          cases step.symm.trans ran
          refine idle rfl (.rest ⟨drained, fun inst' => ?_⟩ (fun _ marked => ?_) arch fun time => ?_)
          · simp [extraCycleDue, adcSbcExtraCycle]
          · cases marked.1.symm.trans inst
          · rw [← log time, extraEvents, extraAccesses, if_pos due]
            exact List.map_append
  | under under unmarked leads =>
      obtain ⟨calm, ⟨m, further⟩ | ⟨c, executing, rfl, drained, rfl⟩⟩ := under.step step
      · exact idle calm (.under further unmarked leads)
      · exact idle calm (leads.heads executing unmarked drained)
  | jammed inv le live jam =>
      obtain ⟨calm, opcode, m, le', live'⟩ := jammed_step inv le live step
      have inv' := (step_outcome inv step).inv (inv.sample lines)
      exact idle calm (.jammed inv' le' live' (opcode ▸ jam))

theorem HeadsFor.run {cycles : List Lines} {exits : List StepExit} (heads : HeadsFor v timed a events s)
    (ran : Machine.run (busCycle v prof) s cycles = .ok (exits, t)) :
    HeadsFor v timed (a.afterAll v exits) (events ++ a.eventsOfAll v exits) t := by
  induction cycles generalizing s a events exits with
  | nil =>
      cases ran
      rw [Arch.eventsOfAll, List.append_nil]
      exact heads
  | cons lines cycles ih =>
      obtain ⟨exit, u, rest, step, tail, rfl⟩ := run_cons_ok ran
      rw [Arch.eventsOfAll, ← List.append_assoc]
      exact ih (heads.step step) tail

theorem HeadsFor.boundary (heads : HeadsFor v timed a events s) (boundary : s.1.AtBoundary v) :
    s.1.arch s.2.bus.ram = a ∧ (timed → s.2.log.map Access.seen = events) := by
  cases heads with
  | rest _ _ arch log => exact ⟨arch, log⟩
  | due _ inst due => cases due.symm.trans (boundary.ended inst)
  | under under => exact absurd boundary.drained.live_eq under.live
  | jammed _ le live =>
      obtain ⟨u, rest, first, -⟩ := jamOps_drop le
      cases boundary.drained.live_eq.symm.trans (live.trans first)

theorem HeadsFor.log (heads : HeadsFor v timed a events s) (time : timed)
    (other : (v.decode s.1.currentOpcode).addressMode ≠ .jam) :
    s.2.log.map Access.seen <+: events := by
  cases heads with
  | rest _ _ _ log => exact log time ▸ List.prefix_rfl
  | due _ _ _ _ log => exact ⟨_, log time⟩
  | under under _ leads =>
      obtain ⟨e₀, -, bus, turns⟩ := under.turns
      obtain ⟨tail, log⟩ := turns_extend turns
      refine List.IsPrefix.trans ⟨tail.map Access.seen, ?_⟩ (leads.made time)
      rw [bus, log, List.map_append]
  | jammed _ _ _ jam => exact absurd jam other

end

end Cpu6502

end Rs65x
