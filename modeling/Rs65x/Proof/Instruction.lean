import Rs65x.Proof.Operand

/-!
# From an opcode fetch to the next boundary
-/

namespace Rs65x
open Fallible Machine Words Worklist

def Exec.arch (e : Exec (Recorder SimpleBus)) : Arch :=
  ⟨e.ctx.a, e.ctx.x, e.ctx.y, e.ctx.sp, e.ctx.status, e.ctx.pc, e.bus.bus.ram⟩

namespace Cpu6502

def arch (cpu : Cpu6502) (ram : U16 → U8) : Arch := ⟨cpu.a, cpu.x, cpu.y, cpu.s, cpu.p, cpu.pc, ram⟩

/-- The core fetches an opcode in a first cycle and carries the instruction out in `n` more, which
end at a boundary. -/
def Executes (v : Variant) (prof : Profile) (s : Cpu6502 × Recorder SimpleBus) (first : Lines)
    (lines : Nat → Lines) (n : Nat) (t : Cpu6502 × Recorder SimpleBus) : Prop :=
  ∃ exits, run (busCycle v prof) s (first :: (List.range n).map lines) =
      .ok (.opcodeFetch :: exits, t) ∧
    (∀ exit ∈ exits, exit = .ucyc ∨ exit = .extraCycle) ∧ t.1.AtBoundary v

end Cpu6502

namespace Arch
variable (s : Arch)

def opcode : U8 := s.ram s.pc

def opcodeRead : Access := .read (s.pc.setWidth 32) false true s.opcode

def opened (v : Variant) (log : List Access) : Exec (Recorder SimpleBus) :=
  (s.opening (v.decode s.opcode) s.opcode (log ++ [s.opcodeRead])).exec

end Arch

namespace Cpu6502

theorem fetch_spec {v : Variant} {prof : Profile} {cpu : Cpu6502} (drained : cpu.ucycs.Drained)
    {lines : Lines} {r : Recorder SimpleBus}
    (fetch : (cpu.step v.flavor prof lines r).map (·.1) = .ok .opcodeFetch) {s : Arch}
    (start : cpu.arch r.bus.ram = s) :
    ∃ cpu₁, cpu.step v.flavor prof lines r =
        .ok (.opcodeFetch, cpu₁, ⟨r.bus, r.log ++ [s.opcodeRead]⟩) ∧
      cpu₁.Inv v ∧ cpu₁.ucycs.live = v.emission s.opcode ∧
      cpu₁.Executing (v.decode s.opcode) (s.opened v r.log) ∧
      (cpu.currentInst = none → cpu.Kept [lines] cpu₁) ∧
      cpu₁.extraAdcSbcCycle = (cpu.extraAdcSbcCycle && cpu.currentInst.isNone) := by
  subst start
  obtain ⟨exit, cpu₁, r₁, run, outcome⟩ := step_drained (v := v) drained prof lines r
  rw [run] at fetch
  obtain rfl : exit = .opcodeFetch := Except.ok.inj fetch
  have read : Bus.read r ((cpu.sampleNmi lines).pc.setWidth 32) false true =
      ((cpu.arch r.bus.ram).opcode, ⟨r.bus, r.log ++ [(cpu.arch r.bus.ram).opcodeRead]⟩) :=
    Exec.bus_read r cpu.pc false true
  generalize eq : cpu.arch r.bus.ram = s at *
  have started {base : Cpu6502} {q : UcycQueue} (same : base.toCtx = cpu.toCtx) (wf : q.Wf)
      (live : q.live = v.emission s.opcode)
      (kept : cpu.currentInst = none → cpu.Kept [lines] (base.fetched v s.opcode q))
      (extra : base.extraAdcSbcCycle = (cpu.extraAdcSbcCycle && cpu.currentInst.isNone)) :
      (base.fetched v s.opcode q).Inv v ∧
      (base.fetched v s.opcode q).ucycs.live = v.emission s.opcode ∧
      (base.fetched v s.opcode q).Executing (v.decode s.opcode) (s.opened v r.log) ∧
      (cpu.currentInst = none → cpu.Kept [lines] (base.fetched v s.opcode q)) ∧
      (base.fetched v s.opcode q).extraAdcSbcCycle =
        (cpu.extraAdcSbcCycle && cpu.currentInst.isNone) := by
    subst eq
    refine ⟨fetched_inv base wf live, live, ⟨rfl, ?_⟩, kept, extra⟩
    obtain ⟨pc, sp, p, a, x, y, -⟩ :=
      MicroCtx6502.mk.inj (congrFun same (v.decode (cpu.arch r.bus.ram).opcode))
    simp only [fetched, exec, toCtx, pc, sp, p, a, x, y]
    rfl
  cases outcome with
  | fetch _ inst _ _ _ _ wf live =>
      rw [read] at run live
      replace inst : cpu.currentInst = _ := inst
      exact ⟨_, run, started rfl wf live (fun none => by cases none.symm.trans inst)
        (by simp [inst, settled])⟩
  | first _ inst wf live =>
      rw [read] at run live
      replace inst : cpu.currentInst = none := inst
      exact ⟨_, run, started rfl wf live (fun _ => ⟨rfl, rfl, fun held => by
        simp [fetched, sampleNmi, held lines]⟩) (by simp [inst, sampleNmi])⟩

theorem settle {v : Variant} {prof : Profile} {cpu : Cpu6502} (inv : cpu.Inv v)
    (drained : cpu.ucycs.Drained) {i : Instruction} (inst : cpu.currentInst = some i)
    (due : cpu.extraCycleDue v.flavor i = true) {lines : Lines} (rdy : lines.rdy = true)
    (r : Recorder SimpleBus) : ∃ cpu' r', cpu.step v.flavor prof lines r =
        .ok (.extraCycle, cpu', r') ∧ cpu'.AtBoundary v ∧ cpu'.arch = cpu.arch ∧
      cpu'.scratch = cpu.scratch ∧ cpu'.currentInst = some i ∧ cpu'.Inv v ∧ r'.bus = r.bus ∧
      ∃ data, r'.log = r.log ++ [.read (cpu.extraAddr v.flavor i) false true data] := by
  have awake : (cpu.sampleNmi lines).stalls lines = false := by simp [stalls, rdy]
  have run := step_due drained inst due awake prof r
  refine ⟨_, _, run, ⟨drained, fun _ => ?_⟩, rfl, rfl, inst, ?_, rfl, _, rfl⟩
  · simp [extraCycleDue, adcSbcExtraCycle]
  · exact (step_outcome inv run).inv (inv.sample lines)

theorem Executing.arch {c : Cpu6502} {i : Instruction} {e : Exec (Recorder SimpleBus)}
    (executing : c.Executing i e) (ram : U16 → U8) : c.arch ram = { e.arch with ram } := by
  have same : e.ctx = c.toCtx i := congrArg Exec.ctx executing.exec.symm
  rw [Exec.arch, same]
  rfl

theorem completed_operand {i : Instruction} (cpu : Cpu6502)
    (operand : i.addressMode.isMemory ∨ i.addressMode = .noMemory .immediate) :
    completed i cpu = cpu := by
  unfold completed
  split
  · next implied => simp [implied, AddressMode.isMemory] at operand
  · next brk => simp [brk, AddressMode.isMemory] at operand
  · rfl

theorem finished_read (F : Flavor) {c : Cpu6502} {i : Instruction} (inst : c.currentInst = some i)
    (read : i.memoryAction = .read)
    (operand : i.addressMode.isMemory ∨ i.addressMode = .noMemory .immediate) (prof : Profile) :
    c.finishRead F prof i.mnemonic = .ok (c.finished F i) := by
  have some : c.currentInst.isSome := by simp [inst]
  obtain ⟨done, -, eq⟩ := finishRead_always F some i.mnemonic
  replace eq : ∀ prof, c.finishRead F prof i.mnemonic = .ok done := eq
  rw [finished, finishInstruction_eq, if_pos read, eq, eq, ok_bind, get_ok,
    completed_operand done operand]

theorem finished_write (F : Flavor) (c : Cpu6502) {i : Instruction} (write : i.memoryAction ≠ .read)
    (memory : i.addressMode.isMemory) : c.finished F i = c := by
  rw [finished, finishInstruction_eq, if_neg write, ok_bind, get_ok,
    completed_operand c (.inl memory)]

def extraAccesses (F : Flavor) (cpu : Cpu6502) (i : Instruction) : List (Bool × U16) :=
  if cpu.extraCycleDue F i then [(true, (cpu.extraAddr F i).setWidth 16)] else []

theorem executes_counted {v : Variant} {prof : Profile} {cpu : Cpu6502}
    (drained : cpu.ucycs.Drained) {first : Lines} {r : Recorder SimpleBus}
    (fetch : (cpu.step v.flavor prof first r).map (·.1) = .ok .opcodeFetch) {s : Arch}
    (start : cpu.arch r.bus.ram = s) (more : v.emission s.opcode ≠ []) {n : Nat}
    {e : Exec (Recorder SimpleBus)}
    (turns : Exec.TurnsIn prof v.flavor (s.opened v r.log) (v.emission s.opcode) n e [])
    {lines : Nat → Lines} (rdy : ∀ n, (lines n).rdy = true) :
    ∃ t, ∃ c : Cpu6502, let done := c.finished v.flavor (v.decode s.opcode)
      run (busCycle v prof) (cpu, r) (first :: (List.range n).map lines) =
        .ok (.opcodeFetch :: List.replicate n .ucyc, (done, e.bus)) ∧
      Executes v prof (cpu, r) first lines
        (n + (done.extraAccesses v.flavor (v.decode s.opcode)).length) t ∧
      c.Executing (v.decode s.opcode) e ∧
      c.extraAdcSbcCycle = (cpu.extraAdcSbcCycle && cpu.currentInst.isNone) ∧
      t.1.Inv v ∧ t.1.arch = done.arch ∧ t.1.scratch = c.scratch ∧ t.2.bus = e.bus.bus ∧
      (∃ tail, t.2.log = e.bus.log ++ tail ∧
        tail.map Access.brief = done.extraAccesses v.flavor (v.decode s.opcode)) := by
  obtain ⟨cpu₁, fetched, inv, live, executing, -, extra⟩ := fetch_spec drained fetch start
  obtain ⟨k, rfl⟩ := turns.count_pos more
  rw [← live] at turns
  have count : ((List.range (k + 1)).map lines).length = k + 1 := by simp
  obtain ⟨c, at_end, kept, drained', inv', worked⟩ :=
    turns_run inv executing turns count (by simp [rdy])
  obtain ⟨inst, queue, scratch, -⟩ := finished_rest v.flavor at_end.inst
  rw [← queue] at drained'
  have exits : ∀ exit ∈ List.replicate (k + 1) StepExit.ucyc,
      exit = .ucyc ∨ exit = .extraCycle := fun exit mem => .inl (List.eq_of_mem_replicate mem)
  have start_run {tail : List Lines} {exits : List StepExit} {t : Cpu6502 × Recorder SimpleBus}
      (rest : run (busCycle v prof) (cpu₁, (s.opened v r.log).bus) tail = .ok (exits, t)) :
      run (busCycle v prof) (cpu, r) (first :: tail) = .ok (.opcodeFetch :: exits, t) := by
    have next : busCycle v prof (cpu, r) first = .ok (.opcodeFetch, cpu₁, (s.opened v r.log).bus) := by
      subst start
      exact fetched
    rw [run_cons tail next, rest]
    rfl
  have kept : c.extraAdcSbcCycle = _ := kept.extra.trans extra
  cases due : (c.finished v.flavor (v.decode s.opcode)).extraCycleDue v.flavor (v.decode s.opcode) with
  | false =>
      have none : (c.finished v.flavor (v.decode s.opcode)).extraAccesses v.flavor
          (v.decode s.opcode) = [] := if_neg (Bool.eq_false_iff.1 due)
      refine ⟨(c.finished v.flavor (v.decode s.opcode), e.bus), c, start_run worked, ?_, at_end, kept,
        inv', rfl, scratch, rfl, [], (List.append_nil _).symm, none.symm⟩
      rw [none]
      refine ⟨_, start_run worked, exits, drained', fun inst' => ?_⟩
      cases inst.symm.trans inst'
      exact due
  | true =>
      obtain ⟨cpu₂, r₂, extra, boundary, regs, scratch', inst₂, inv₂, bus, data, log⟩ :=
        settle inv' drained' inst due (rdy (k + 1)) e.bus
      have last : run (busCycle v prof) (c.finished v.flavor (v.decode s.opcode), e.bus)
          [lines (k + 1)] = .ok ([.extraCycle], (cpu₂, r₂)) := run_cons [] extra
      have both := run_append [lines (k + 1)] worked
      rw [last] at both
      have one : (c.finished v.flavor (v.decode s.opcode)).extraAccesses v.flavor (v.decode s.opcode) =
          [_] := if_pos due
      refine ⟨(cpu₂, r₂), c, start_run worked, ?_, at_end, kept, inv₂, regs, scratch'.trans scratch,
        bus, _, log, one.symm⟩
      rw [one]
      refine ⟨List.replicate (k + 1) .ucyc ++ [.extraCycle], ?_, ?_, boundary⟩
      · rw [List.length_singleton, List.range_succ, List.map_append]
        exact start_run both
      · intro exit mem
        obtain mem | mem := List.mem_append.1 mem
        · exact exits exit mem
        · exact .inr (List.mem_singleton.1 mem)

theorem fetch_boundary {v : Variant} {prof : Profile} {s u : Cpu6502 × Recorder SimpleBus} {a : Arch}
    (drained : s.1.ucycs.Drained) (start : s.1.arch s.2.bus.ram = a) {lines : Lines}
    (fetch : s.1.step v.flavor prof lines s.2 = .ok (.opcodeFetch, u)) (empty : v.emission a.opcode = [])
    (quiet : ∀ c : Cpu6502, c.extraCycleDue v.flavor (v.decode a.opcode) = false) :
    u.1.AtBoundary v ∧ u.1.arch u.2.bus.ram = (a.opened v s.2.log).arch ∧
      u.2.log = s.2.log ++ [a.opcodeRead] := by
  obtain ⟨cpu, run, inv, live, executing, -⟩ :=
    fetch_spec (v := v) drained (congrArg (·.map (·.1)) fetch) start
  cases fetch.symm.trans run
  refine ⟨⟨inv.wf.live_eq_nil.1 (live.trans empty), fun inst => ?_⟩, ?_, rfl⟩
  · cases executing.inst.symm.trans inst
    exact quiet cpu
  · have ram : s.2.bus.ram = a.ram := by rw [← start]; rfl
    exact (executing.arch _).trans (by rw [ram]; rfl)

theorem executes_turns {v : Variant} {prof : Profile} {s : Cpu6502 × Recorder SimpleBus} {a : Arch}
    (drained : s.1.ucycs.Drained) {first : Lines}
    (fetch : (s.1.step v.flavor prof first s.2).map (·.1) = .ok .opcodeFetch)
    (start : s.1.arch s.2.bus.ram = a)
    (completion : ∀ c : Cpu6502, c.finished v.flavor (v.decode a.opcode) = c)
    (quiet : ∀ c : Cpu6502, c.extraCycleDue v.flavor (v.decode a.opcode) = false) {n : Nat}
    {e : Exec (Recorder SimpleBus)}
    (turns : Exec.TurnsIn prof v.flavor (a.opened v s.2.log) (v.emission a.opcode) n e [])
    {lines : Nat → Lines} (rdy : ∀ n, (lines n).rdy = true) :
    ∃ t, Executes v prof s first lines n t ∧ t.1.arch t.2.bus.ram = e.arch ∧ t.2.log = e.bus.log := by
  by_cases empty : v.emission a.opcode = []
  · rw [empty] at turns
    obtain ⟨rfl, rfl⟩ := turns.cases_nil
    obtain ⟨cpu, run, -⟩ := fetch_spec (v := v) drained fetch start
    obtain ⟨here, shown, log⟩ := fetch_boundary drained start run empty quiet
    exact ⟨_, ⟨[], run_cons [] run, fun _ mem => absurd mem List.not_mem_nil, here⟩, shown, log⟩
  · obtain ⟨t, c, -, executes, executing, -, -, regs, -, bus, tail, log, briefs⟩ :=
      executes_counted drained fetch start empty turns rdy
    have none : (c.finished v.flavor (v.decode a.opcode)).extraAccesses v.flavor (v.decode a.opcode) =
        [] := if_neg (Bool.eq_false_iff.1 (quiet _))
    rw [none] at executes briefs
    refine ⟨t, executes, ?_, ?_⟩
    · rw [regs, bus, completion, executing.arch]
      rfl
    · rw [log, List.map_eq_nil_iff.1 briefs, List.append_nil]

theorem executes {v : Variant} {prof : Profile} {cpu : Cpu6502} (drained : cpu.ucycs.Drained)
    {first : Lines} {r : Recorder SimpleBus}
    (fetch : (cpu.step v.flavor prof first r).map (·.1) = .ok .opcodeFetch) {s : Arch}
    (start : cpu.arch r.bus.ram = s) (more : v.emission s.opcode ≠ []) {n : Nat}
    {e : Exec (Recorder SimpleBus)}
    (turns : Exec.Turns v.flavor (s.opened v r.log) (v.emission s.opcode) n e [])
    {lines : Nat → Lines} (rdy : ∀ n, (lines n).rdy = true) :
    ∃ m t, ∃ c : Cpu6502, Executes v prof (cpu, r) first lines m t ∧ t.1.Inv v ∧
      c.Executing (v.decode s.opcode) e ∧ t.1.arch = (c.finished v.flavor (v.decode s.opcode)).arch ∧
      t.1.scratch = c.scratch ∧ t.2.bus = e.bus.bus ∧
      Access.writes t.2.log = Access.writes e.bus.log := by
  obtain ⟨t, c, -, executes, executing, -, inv, regs, scratch, bus, tail, log, briefs⟩ :=
    executes_counted drained fetch start more (turns.anywhere prof) rdy
  refine ⟨_, t, c, executes, inv, executing, regs, scratch, bus, ?_⟩
  have reads : ∀ a ∈ tail, a.isRead = true := by
    intro a mem
    have mem := briefs ▸ List.mem_map_of_mem (f := Access.brief) mem
    rw [extraAccesses] at mem
    split at mem
    · exact congrArg Prod.fst (List.mem_singleton.1 mem)
    · cases mem
  rw [log, Access.writes_append, Access.writes_of_reads reads, List.append_nil]

end Cpu6502

end Rs65x
