import Rs65x.Lib.Milestones
import Rs65x.Proof.Observe
import Rs65x.Proof.Perform

/-!
# What a reset leaves behind
-/

namespace Rs65x
open Fallible Machine

namespace Sequencer
open Cpu6502
variable {β : Type} [Bus β]

/-! ## The flag of the inserted decimal cycle -/

def withExtra (s : Sequencer) (b : Bool) : Sequencer :=
  ⟨{ s.cpu with extraAdcSbcCycle := b }, s.live⟩

structure NoDecimal (s : Sequencer) : Prop where
  first : s.cpu.currentInst = none → flagSet s.cpu.p Psr.D = false
  arith : ∀ {i}, s.cpu.currentInst = some i → i.mnemonic = .adc ∨ i.mnemonic = .sbc →
    flagSet s.cpu.p Psr.D = false ∧ lawful i s.live

/-- Equal but perhaps for the flag of the decimal cycle, where that makes no difference. -/
def Alike (s t : Sequencer) : Prop := t = s ∨ s.NoDecimal ∧ ∃ b, t = s.withExtra b

def AlikeOn (s t : Sequencer × Recorder β) : Prop := s.1.Alike t.1 ∧ t.2 = s.2

theorem not_due {s : Sequencer} {F : Flavor} {i : Instruction} (quiet : s.NoDecimal)
    (inst : s.cpu.currentInst = some i) (b : Bool) :
    (s.withExtra b).cpu.extraCycleDue F i = false := by
  by_cases arith : i.mnemonic = .adc ∨ i.mnemonic = .sbc
  · simp [withExtra, extraCycleDue, adcSbcExtraCycle, (quiet.arith inst arith).1]
  · obtain ⟨notAdc, notSbc⟩ := not_or.1 arith
    simp [extraCycleDue, adcSbcExtraCycle, notAdc, notSbc]

theorem boundary_withExtra {v : Variant} {s : Sequencer} {i : Instruction} (quiet : s.NoDecimal)
    (inst : s.cpu.currentInst = some i) (b : Bool) (lines : Lines) (bus : β) :
    boundary v (s.withExtra b).cpu i lines bus = boundary v s.cpu i lines bus := by
  have due := not_due (F := v.flavor) quiet inst
  have self : s.cpu.extraCycleDue v.flavor i = false := due s.cpu.extraAdcSbcCycle
  rw [boundary, if_neg (Bool.eq_false_iff.1 (due b)), boundary, if_neg (Bool.eq_false_iff.1 self)]
  rfl

theorem finished_inst (F : Flavor) {cpu : Cpu6502} {i : Instruction} (inst : cpu.currentInst = some i) :
    (cpu.finished F i).currentInst = some i := by
  have some : cpu.currentInst.isSome := by simp [inst]
  obtain ⟨_, _, _, _, _, _, eq⟩ := finished_framed F some i
  rw [eq]
  exact inst

theorem execute_inst {v : Variant} {cpu : Cpu6502} {i : Instruction} (inst : cpu.currentInst = some i)
    (u : MicroOp) (rest : List MicroOp) (bus : β) :
    (execute v cpu i u rest bus).2.1.cpu.currentInst = some i := by
  simp only [execute]
  split
  · exact finished_inst _ inst
  · exact inst

theorem execute_decimal {v : Variant} {cpu : Cpu6502} {i : Instruction} {u : MicroOp}
    {rest : List MicroOp} (arith : i.mnemonic = .adc ∨ i.mnemonic = .sbc)
    (laws : lawful i (u :: rest)) (bus : β) :
    flagSet (execute v cpu i u rest bus).2.1.cpu.p Psr.D = flagSet cpu.p Psr.D := by
  have keeps : u.keepsStatus := by
    simp only [lawful, MicroOp.lawful, Bool.and_eq_true, Bool.or_eq_true, Bool.not_eq_true'] at laws
    refine laws.1.1.1.2.resolve_left fun loud => ?_
    obtain h | h := arith <;> simp [Instruction.quiet, h] at loud
  have kept : (cpu.restore ((cpu.exec i bus).next v.flavor u rest).1 .default).p = cpu.p :=
    Exec.next_status v.flavor (cpu.exec i bus) rest keeps
  simp only [execute]
  split
  · rw [finished_decimal _ _ arith, kept]
  · rw [kept]

theorem finished_withExtra (F : Flavor) {cpu : Cpu6502} (inst : cpu.currentInst.isSome)
    (i : Instruction) (b : Bool) : { cpu with extraAdcSbcCycle := b }.finished F i =
      { cpu.finished F i with extraAdcSbcCycle := b } :=
  finished_carries F inst i fun h => { h with extraAdcSbcCycle := b }

theorem execute_withExtra {v : Variant} {s : Sequencer} {i : Instruction} {u : MicroOp}
    {rest : List MicroOp} (inst : s.cpu.currentInst = some i) (b : Bool) (bus : β)
    {r : StepExit × Sequencer × β} (run : execute v s.cpu i u rest bus = r) :
    execute v (s.withExtra b).cpu i u rest bus = (r.1, r.2.1.withExtra b, r.2.2) := by
  have same : (s.withExtra b).cpu.exec i bus = s.cpu.exec i bus := rfl
  subst run
  simp only [execute, same]
  rcases (s.cpu.exec i bus).next v.flavor u rest with ⟨e, _ | ⟨u', us⟩⟩
  · have some : (s.cpu.restore e .default).currentInst.isSome := by simp [restore, inst]
    have moved := finished_withExtra v.flavor some i b
    exact congrArg (fun c => (StepExit.ucyc, Sequencer.mk c [], e.bus)) moved
  · rfl

theorem NoDecimal.execute {v : Variant} {s : Sequencer} {i : Instruction} {u : MicroOp}
    {rest : List MicroOp} (quiet : s.NoDecimal) (inst : s.cpu.currentInst = some i)
    (live : s.live = u :: rest) (bus : β) : (execute v s.cpu i u rest bus).2.1.NoDecimal where
  first none := by
    rw [execute_inst inst] at none
    cases none
  arith inst' arith := by
    cases (execute_inst inst u rest bus).symm.trans inst'
    obtain ⟨clear, laws⟩ := quiet.arith inst arith
    rw [live] at laws
    exact ⟨(execute_decimal arith laws bus).trans clear, Exec.next_lawful laws⟩

theorem NoDecimal.sample {s : Sequencer} (quiet : s.NoDecimal) (lines : Lines) :
    (s.sampleNmi lines).NoDecimal := ⟨quiet.first, quiet.arith⟩

theorem advance_alike (v : Variant) (prof : Profile) {s : Sequencer} (quiet : s.NoDecimal) (b : Bool)
    (lines : Lines) (bus : β) :
    (∃ fault, s.advance v prof lines bus = .error fault ∧
      (s.withExtra b).advance v prof lines bus = .error fault) ∨
    ∃ r t, s.advance v prof lines bus = .ok r ∧ r.2.1.Alike t ∧
      (s.withExtra b).advance v prof lines bus = .ok (r.1, t, r.2.2) := by
  cases inst : s.cpu.currentInst with
  | none =>
      refine .inr ⟨_, _, advance_first inst, .inr ⟨⟨fun none => (by cases none), ?_⟩, b, rfl⟩,
        advance_first (s := s.withExtra b) inst⟩
      intro i inst' _
      cases inst'
      exact ⟨quiet.first inst, (v.emission_spec _).2.1⟩
  | some i =>
      cases live : s.live with
      | nil =>
          refine .inr ⟨_, _, advance_boundary inst live, .inl rfl, ?_⟩
          rw [advance_boundary (s := s.withExtra b) inst live, boundary_withExtra quiet inst]
      | cons u rest =>
          by_cases large : prof = .debug ∧ u.alu = .fixPtr ∧ s.cpu.scratch.ptr = 0xFF00
          · refine .inl ⟨.overflow, ?_, ?_⟩
            · simp only [advance, inst, live, if_pos large]
            · have inst' : (s.withExtra b).cpu.currentInst = some i := inst
              have live' : (s.withExtra b).live = u :: rest := live
              simp only [advance, inst', live']
              exact if_pos large
          · refine .inr ⟨_, _, advance_execute inst live large, .inr ⟨quiet.execute inst live bus, b, rfl⟩, ?_⟩
            rw [advance_execute (s := s.withExtra b) inst live large, execute_withExtra inst b bus rfl]

theorem observe_alike (v : Variant) (prof : Profile) {s t : Sequencer × Recorder β}
    (alike : AlikeOn s t) (lines : Lines) :
    Agree AlikeOn (observe v prof s lines) (observe v prof t lines) := by
  obtain ⟨s, r⟩ := s
  obtain ⟨t, r'⟩ := t
  obtain ⟨alike, same⟩ := alike
  replace same : r' = r := same
  subst same
  obtain rfl | ⟨quiet, b, rfl⟩ := alike
  · cases observe v prof (t, r') lines with
    | error => exact rfl
    | ok => exact ⟨rfl, .inl rfl, rfl⟩
  · have stalls : (s.withExtra b).stalls lines = s.stalls lines := rfl
    have sampled : (s.withExtra b).sampleNmi lines = (s.sampleNmi lines).withExtra b := rfl
    simp only [observe, Sequencer.step, stalls, sampled]
    cases s.stalls lines with
    | true => exact ⟨rfl, .inr ⟨quiet.sample lines, b, rfl⟩, rfl⟩
    | false =>
        simp only [Bool.false_eq_true, if_false]
        obtain ⟨fault, eq, eq'⟩ | ⟨result, t, eq, alike, eq'⟩ := advance_alike v prof
          (quiet.sample lines) b lines r'
        · rw [eq, eq']
          exact rfl
        · rw [eq, eq']
          refine ⟨?_, alike, rfl⟩
          obtain rfl | ⟨-, b, rfl⟩ := alike
          · rfl
          · rfl

end Sequencer

namespace Cpu6502

/-! ## Nothing left behind -/

section
variable {β : Type} [Bus β] {v : Variant} {prof : Profile}

/-- A freshly constructed core with the registers, the status, the PC and the last NMI level that
a reset leaves. -/
def fresh (cpu : Cpu6502) (bus : β) : Cpu6502 :=
  { new with
    a := cpu.a
    x := cpu.x
    y := cpu.y
    s := cpu.s
    p := cpu.p ||| Psr.I
    pc := (read16 bus 0xFFFC).1
    prevNmi := cpu.prevNmi }

/-- No I flag, no NMI and no inserted cycle of an earlier instruction is still to be acted on. -/
structure Clean (cpu : Cpu6502) : Prop where
  oldI : cpu.oldI = none
  pendingNmi : cpu.pendingNmi = false
  extra : cpu.extraAdcSbcCycle = false ∨ flagSet cpu.p Psr.D = false

theorem flagSet_decimal_or (p : U8) : flagSet (p ||| Psr.I) Psr.D = flagSet p Psr.D := by
  revert p
  decide

theorem flagSet_interrupt_or (p : U8) : flagSet (p ||| Psr.I) Psr.I = true := by
  revert p
  decide

theorem fresh_inv (v : Variant) (cpu : Cpu6502) (bus : β) : (cpu.fresh bus).Inv v where
  wf := UcycQueue.default_drained.wf
  idle _ := UcycQueue.default_drained
  inst none := by cases none

theorem Clean.alike {cpu : Cpu6502} (clean : cpu.Clean) (bus : β) :
    (cpu.fresh bus).sequencer.Alike (cpu.reset bus).1.sequencer := by
  have moved : (cpu.reset bus).1.sequencer =
      (cpu.fresh bus).sequencer.withExtra cpu.extraAdcSbcCycle := by
    obtain ⟨a, x, y, s, p, pc, ucycs, scratch, inst, opcode, extra, prevNmi, pendingNmi, oldI⟩ := cpu
    obtain ⟨oldI, pendingNmi, -⟩ := clean
    cases oldI
    cases pendingNmi
    have empty := ucycs.clear_drained.live_eq
    simp only [Cpu6502.reset, sequencer, empty]
    rfl
  obtain extra | binary := clean.extra
  · exact .inl (by rw [moved, extra]; rfl)
  · refine .inr ⟨⟨fun _ => ?_, fun none => by cases none⟩, _, moved⟩
    exact (flagSet_decimal_or cpu.p).trans binary

theorem Clean.reset {cpu : Cpu6502} (clean : cpu.Clean) (bus₀ : β) {γ : Type} [Bus γ]
    (r : Recorder γ) (lines : List Lines) :
    (run (observe v prof) ((cpu.reset bus₀).1, r) lines).map (·.1) =
      (run (observe v prof) (cpu.fresh bus₀, r) lines).map (·.1) := by
  have start : Sequencer.AlikeOn ((cpu.fresh bus₀).sequencer, r)
      ((cpu.reset bus₀).1.sequencer, r) := ⟨clean.alike bus₀, rfl⟩
  have alike := run_agree (R := Sequencer.AlikeOn)
    (fun _ _ lines h => Sequencer.observe_alike v prof h lines) start lines
  have reset := Sequencer.run_observe_agrees prof (reset_inv v cpu bus₀) r lines
  have fresh := Sequencer.run_observe_agrees prof (fresh_inv v cpu bus₀) r lines
  exact reset.labels.trans (alike.labels.symm.trans fresh.labels.symm)

end

/-! ## What is left behind shows -/

section
variable {v : Variant} {prof : Profile}

theorem observe_run {γ : Type} [Bus γ] {s t : Cpu6502 × Recorder γ} {lines : List Lines}
    {exits : List StepExit} (ran : run (busCycle v prof) s lines = .ok (exits, t))
    (more : lines ≠ []) : ∃ seen, run (observe v prof) s lines = .ok (seen, t) ∧
      seen.getLast? = some (observation t) := by
  induction lines generalizing s exits with
  | nil => exact absurd rfl more
  | cons first lines ih =>
      obtain ⟨exit, u, rest, step, tail, -⟩ := run_cons_ok ran
      have seen_first : observe v prof s first = .ok (observation u, u) := by
        rw [observe, step]
        rfl
      by_cases last : lines = []
      · subst last
        cases tail
        exact ⟨[observation t], run_cons [] seen_first, rfl⟩
      · obtain ⟨seen, ran', ends⟩ := ih tail last
        refine ⟨observation u :: seen, ?_, ?_⟩
        · rw [run_cons lines seen_first, ran']
          rfl
        · rw [List.getLast?_cons, ends]
          rfl

theorem seen_differ {cpu cpu' : Cpu6502} {ram : U16 → U8} {lines : List Lines}
    {exits exits' : List StepExit} {t t' : Cpu6502 × Recorder SimpleBus}
    (ran : run (busCycle v prof) (cpu, ⟨⟨ram⟩, []⟩) lines = .ok (exits, t))
    (ran' : run (busCycle v prof) (cpu', ⟨⟨ram⟩, []⟩) lines = .ok (exits', t'))
    (more : lines ≠ []) (pc : t.1.pc ≠ t'.1.pc) :
    cpu.seen v prof ram lines ≠ cpu'.seen v prof ram lines := by
  intro same
  obtain ⟨saw, eq, ends⟩ := observe_run ran more
  obtain ⟨saw', eq', ends'⟩ := observe_run ran' more
  rw [seen, eq, seen, eq'] at same
  replace same : saw = saw' := Except.ok.inj same
  rw [same, ends'] at ends
  exact pc (congrArg Observation.pc (Option.some.inj ends)).symm

def goesOn (F : Flavor) (i : Instruction) (irq : Bool) (cpu : Cpu6502) : Bool :=
  !cpu.extraCycleDue F i && !cpu.pendingNmi && (!irq || cpu.irqDisable)

theorem boundary_pc (v : Variant) (prof : Profile) {γ : Type} [Bus γ] {cpu : Cpu6502}
    (drained : cpu.ucycs.Drained)
    {i : Instruction} (inst : cpu.currentInst = some i) (irq : Bool) (r : γ) :
    ∃ exit t, busCycle v prof (cpu, r) ⟨irq, cpu.prevNmi, true⟩ = .ok (exit, t) ∧
      t.1.pc = cpu.pc + if cpu.goesOn v.flavor i irq then 1 else 0 := by
  have held : cpu.sampleNmi ⟨irq, cpu.prevNmi, true⟩ = cpu := by simp [sampleNmi]
  obtain ⟨exit, cpu', r', ran, outcome⟩ :=
    step_drained (v := v) drained prof ⟨irq, cpu.prevNmi, true⟩ r
  refine ⟨exit, (cpu', r'), ran, ?_⟩
  rw [held] at outcome
  cases outcome with
  | stalled low => simp [Cpu6502.stalls] at low
  | ucyc _ _ live | last _ _ live => cases live.symm.trans drained.live_eq
  | extraCycle _ inst' _ due =>
      cases inst.symm.trans inst'
      simp [goesOn, due]
  | interrupt _ inst' _ ended request =>
      cases inst.symm.trans inst'
      rcases request with ⟨-, nmi⟩ | ⟨-, none, asked, clear⟩
      · simp [goesOn, nmi, interrupted, settled]
      · replace asked : irq = true := asked
        simp [goesOn, asked, clear, interrupted, settled]
  | fetch _ inst' _ ended quiet masked =>
      cases inst.symm.trans inst'
      replace masked : irq = false ∨ cpu.irqDisable = true := masked
      have goes : cpu.goesOn v.flavor i irq = true := by
        rcases masked with low | disabled
        · simp [goesOn, ended, quiet, low]
        · simp [goesOn, ended, quiet, disabled]
      rw [goes]
      rfl
  | first _ none => cases inst.symm.trans none

theorem first_pc (prof : Profile) (cpu : Cpu6502) (drained : cpu.ucycs.Drained) (idle : cpu.currentInst = none)
    {ram : U16 → U8} {op : U8} (opcode : (cpu.arch ram).opcode = op) {n : Nat}
    {e : Exec (Recorder SimpleBus)}
    (turns : Exec.Turns v.flavor ((cpu.arch ram).opened v []) (v.emission op) (n + 1) e [])
    (irq : Bool) : ∃ c : Cpu6502, ∃ exits t, c.Executing (v.decode op) e ∧
      c.extraAdcSbcCycle = cpu.extraAdcSbcCycle ∧ c.oldI = cpu.oldI ∧
      c.pendingNmi = cpu.pendingNmi ∧
      run (busCycle (β := Recorder SimpleBus) v prof) (cpu, ⟨⟨ram⟩, []⟩)
        (List.replicate (n + 2) ⟨irq, cpu.prevNmi, true⟩ ++ [⟨irq, cpu.prevNmi, true⟩]) =
          .ok (exits, t) ∧
      t.1.pc = e.ctx.pc +
        if (c.finished v.flavor (v.decode op)).goesOn v.flavor (v.decode op) irq then 1 else 0 := by
  subst opcode
  obtain ⟨exit, cpu₀, r₀, ran, outcome⟩ := step_drained (v := v) drained prof
    ⟨irq, cpu.prevNmi, true⟩ (⟨⟨ram⟩, []⟩ : Recorder SimpleBus)
  have fetch : (cpu.step v.flavor prof ⟨irq, cpu.prevNmi, true⟩
      (⟨⟨ram⟩, []⟩ : Recorder SimpleBus)).map (·.1) = .ok .opcodeFetch := by
    rw [ran]
    cases outcome with
    | stalled low => simp [Cpu6502.stalls] at low
    | first => rfl
    | ucyc _ inst | last _ inst | extraCycle _ inst | interrupt _ inst | fetch _ inst =>
        cases inst.symm.trans idle
  obtain ⟨cpu₁, fetched, inv, live, executing, kept, -⟩ := fetch_spec drained fetch rfl
  rw [← live] at turns
  obtain ⟨c, at_end, kept', drained', inv', worked⟩ := turns_run inv executing (turns.anywhere prof)
    (List.length_replicate (n := n + 1) (a := (⟨irq, cpu.prevNmi, true⟩ : Lines)))
    fun lines mem => by rw [List.eq_of_mem_replicate mem]
  have stays := (kept idle).trans kept'
  obtain ⟨prevNmi, pendingNmi⟩ := stays.nmi fun lines mem => by
    rcases List.mem_cons.1 mem with rfl | mem
    · rfl
    · rw [List.eq_of_mem_replicate mem]
  have some : c.currentInst.isSome := by simp [at_end.inst]
  have hidden := finished_hidden v.flavor some (v.decode (cpu.arch ram).opcode)
  obtain ⟨inst, queue, -, -⟩ := finished_rest v.flavor at_end.inst
  have level : (c.finished v.flavor (v.decode (cpu.arch ram).opcode)).prevNmi = cpu.prevNmi :=
    (congrArg Hidden.prevNmi hidden).trans prevNmi
  have drained'' : (c.finished v.flavor (v.decode (cpu.arch ram).opcode)).ucycs.Drained := by
    rw [queue]
    exact drained'
  obtain ⟨last, t, boundary, pc⟩ := boundary_pc v prof drained'' inst irq e.bus
  rw [level] at boundary
  have worked' : run (busCycle (β := Recorder SimpleBus) v prof) (cpu, ⟨⟨ram⟩, []⟩)
      (List.replicate (n + 2) ⟨irq, cpu.prevNmi, true⟩) = .ok (.opcodeFetch ::
        List.replicate (n + 1) .ucyc, (c.finished v.flavor (v.decode (cpu.arch ram).opcode), e.bus)) := by
    rw [List.replicate_succ, run_cons _ fetched]
    refine (congrArg (fun x => x >>= fun r => .ok (StepExit.opcodeFetch :: r.1, r.2)) worked)
  refine ⟨c, .opcodeFetch :: List.replicate (n + 1) .ucyc ++ [last], t, at_end, stays.extra, stays.oldI, pendingNmi, ?_, pc.trans ?_⟩
  · rw [run_append _ worked', run_cons [] boundary]
    rfl
  · rw [show (c.finished v.flavor (v.decode (cpu.arch ram).opcode)).pc = c.pc from
      congrArg Hidden.pc hidden, ← at_end.exec]
    rfl

theorem told_apart {β : Type} [Bus β] {cpu : Cpu6502} {bus₀ : β} {ram : U16 → U8} (op : U8)
    (irq : Bool) {n : Nat} {e : Exec (Recorder SimpleBus)}
    (opcode : (((cpu.reset bus₀).1).arch ram).opcode = op)
    (turns : Exec.Turns v.flavor ((((cpu.reset bus₀).1).arch ram).opened v []) (v.emission op)
      (n + 1) e [])
    (differ : ∀ c c' : Cpu6502, c.Executing (v.decode op) e → c'.Executing (v.decode op) e →
      c.extraAdcSbcCycle = cpu.extraAdcSbcCycle ∧ c.oldI = cpu.oldI ∧
        c.pendingNmi = cpu.pendingNmi →
      c'.extraAdcSbcCycle = false ∧ c'.oldI = none ∧ c'.pendingNmi = false →
      (c.finished v.flavor (v.decode op)).goesOn v.flavor (v.decode op) irq ≠
        (c'.finished v.flavor (v.decode op)).goesOn v.flavor (v.decode op) irq) :
    ¬ ∀ (ram : U16 → U8) (lines : List Lines),
      (cpu.reset bus₀).1.seen v prof ram lines = (cpu.fresh bus₀).seen v prof ram lines := by
  intro same
  obtain ⟨c, exits, t, executing, extra, oldI, nmi, ran, pc⟩ :=
    first_pc prof (cpu.reset bus₀).1 cpu.ucycs.clear_drained rfl opcode turns irq
  obtain ⟨c', exits', t', executing', extra', oldI', nmi', ran', pc'⟩ :=
    first_pc prof (cpu.fresh bus₀) UcycQueue.default_drained rfl opcode turns irq
  refine seen_differ ran ran' (by simp) ?_ (same ram _)
  have apart := differ c c' executing executing' ⟨extra, oldI, nmi⟩ ⟨extra', oldI', nmi'⟩
  rw [pc, pc']
  intro eq
  replace eq := add_left_cancel eq
  split at eq <;> split at eq <;> simp_all

set_option maxRecDepth 20000 in
theorem decode_nop (v : Variant) : v.decode 0xEA = ⟨.nop, .noMemory .implied, .read⟩ := by
  cases v <;> decide

set_option maxRecDepth 20000 in
theorem decode_adc (v : Variant) : v.decode 0x69 = ⟨.adc, .noMemory .immediate, .read⟩ := by
  cases v <;> decide

theorem goesOn_idle (F : Flavor) {i : Instruction} (c : Cpu6502)
    (other : i.mnemonic ≠ .adc ∧ i.mnemonic ≠ .sbc) (finished : c.finished F i = c) (irq : Bool) :
    (c.finished F i).goesOn F i irq = (!c.pendingNmi && (!irq || c.irqDisable)) := by
  have due := never_due F other c
  rw [finished, goesOn, due]
  rfl

section
variable {β : Type} [Bus β] {cpu : Cpu6502}

theorem nop_shows (bus₀ : β) {irq : Bool}
    (stops : cpu.pendingNmi = true ∧ irq = false ∨
      cpu.pendingNmi = false ∧ cpu.oldI = some false ∧ irq = true) :
    ¬ ∀ (ram : U16 → U8) (lines : List Lines),
      (cpu.reset bus₀).1.seen v prof ram lines = (cpu.fresh bus₀).seen v prof ram lines := by
  have decoded := decode_nop v
  obtain ⟨e, turns, arch⟩ := Exec.turns_implied v (((cpu.reset bus₀).1).arch fun _ => 0xEA) 0xEA
    [(((cpu.reset bus₀).1).arch fun _ => 0xEA).opcodeRead] (by rw [decoded])
  refine told_apart 0xEA irq rfl turns ?_
  intro c c' executing executing' ⟨_, oldI, nmi⟩ ⟨_, oldI', nmi'⟩
  have status : c'.p = cpu.p ||| Psr.I := by
    have same := executing'.arch e.bus.bus.ram
    rw [show ({ e.arch with ram := e.bus.bus.ram } : Arch) = e.arch from rfl, arch] at same
    exact congrArg Arch.p same
  have masked : c'.irqDisable = true := by
    simp only [irqDisable, oldI', Option.getD_none, status, flagSet_interrupt_or]
  rw [goesOn_idle _ _ (by rw [decoded]; decide) (by rw [decoded]; rfl),
    goesOn_idle _ _ (by rw [decoded]; decide) (by rw [decoded]; rfl), masked, nmi, nmi']
  rcases stops with ⟨pending, rfl⟩ | ⟨none, old, rfl⟩
  · simp [pending]
  · simp [irqDisable, none, oldI, old]

theorem rti_shows (bus₀ : β) (none : cpu.pendingNmi = false) (old : cpu.oldI = some true) :
    ¬ ∀ (ram : U16 → U8) (lines : List Lines),
      (cpu.reset bus₀).1.seen v prof ram lines = (cpu.fresh bus₀).seen v prof ram lines := by
  have decoded := decode_rti v
  obtain ⟨e, turns, arch⟩ := Exec.turns_rti v (((cpu.reset bus₀).1).arch fun _ => 0x40) 0x40
    [(((cpu.reset bus₀).1).arch fun _ => 0x40).opcodeRead] (by rw [decoded])
  refine told_apart 0x40 true rfl turns ?_
  intro c c' executing executing' ⟨_, oldI, nmi⟩ ⟨_, oldI', nmi'⟩
  have status : c'.p = pulledStatus 0x40 := by
    have same := executing'.arch e.bus.bus.ram
    rw [show ({ e.arch with ram := e.bus.bus.ram } : Arch) = e.arch from rfl, arch] at same
    exact congrArg Arch.p same
  have clear : c'.irqDisable = false := by
    simp only [irqDisable, oldI', Option.getD_none, status]
    decide
  rw [goesOn_idle _ _ (by rw [decoded]; decide) (by rw [decoded]; rfl),
    goesOn_idle _ _ (by rw [decoded]; decide) (by rw [decoded]; rfl), clear, nmi, nmi', none]
  simp [irqDisable, oldI, old]

theorem adc_shows (bus₀ : β) (none : cpu.pendingNmi = false)
    (extra : cpu.extraAdcSbcCycle = true) (decimal : flagSet cpu.p Psr.D = true)
    (cmos : v.flavor.decimal = .cmos65C02) :
    ¬ ∀ (ram : U16 → U8) (lines : List Lines),
      (cpu.reset bus₀).1.seen v prof ram lines = (cpu.fresh bus₀).seen v prof ram lines := by
  have decoded := decode_adc v
  obtain ⟨n, e, turns, ⟨ctx, -⟩, -⟩ := Exec.turns_immediate v
    (((cpu.reset bus₀).1).arch fun _ => 0x69) 0x69
    [(((cpu.reset bus₀).1).arch fun _ => 0x69).opcodeRead] (by rw [decoded]) (by rw [decoded])
  obtain ⟨m, rfl⟩ := turns.count_pos (v.emission_operand 0x69 (.inr (by rw [decoded])))
  refine told_apart 0x69 false rfl turns ?_
  intro c c' executing executing' ⟨extra₁, _, nmi⟩ ⟨extra₂, _, nmi'⟩
  have status {c : Cpu6502} (executing : c.Executing (v.decode 0x69) e) :
      flagSet (c.finished v.flavor (v.decode 0x69)).p Psr.D = true := by
    have ctx' : c.toCtx (v.decode 0x69) = e.ctx := congrArg Exec.ctx executing.exec
    have kept : c.p = cpu.p ||| Psr.I := by
      rw [ctx] at ctx'
      exact congrArg MicroCtx6502.status ctx'
    rw [finished_decimal _ _ (.inl (by rw [decoded])), kept, flagSet_decimal_or, decimal]
  have hidden {c : Cpu6502} (executing : c.Executing (v.decode 0x69) e) :=
    @finished_hidden v.flavor c (by simp [executing.inst]) (v.decode 0x69)
  have due {c : Cpu6502} (executing : c.Executing (v.decode 0x69) e) :
      (c.finished v.flavor (v.decode 0x69)).goesOn v.flavor (v.decode 0x69) false =
        (c.extraAdcSbcCycle && !c.pendingNmi) := by
    have extra := congrArg Hidden.extraAdcSbcCycle (hidden executing)
    have nmi := congrArg Hidden.pendingNmi (hidden executing)
    have d := status executing
    simp only [Cpu6502.hidden] at extra nmi
    simp only [decoded] at extra nmi d ⊢
    simp [goesOn, extraCycleDue, adcSbcExtraCycle, cmos, extra, nmi, d]
  rw [due executing, due executing', extra₁, extra₂, nmi, extra, none]
  simp

theorem Reachable.extra_cmos (reach : cpu.Reachable β v prof)
    (extra : cpu.extraAdcSbcCycle = true) : v.flavor.decimal = .cmos65C02 := by
  refine reach.invariant (P := fun cpu => cpu.extraAdcSbcCycle = true →
    v.flavor.decimal = .cmos65C02) (fun bad => by cases bad) ?_ (fun marked => marked) extra
  intro cpu cpu' lines exit r r' inv marked outcome
  cases outcome with
  | @last i u rest e q _ inst =>
      obtain ⟨_, _, _, _, _, eq⟩ := finished_frame (inv.sample lines) inst e q
      rw [eq]
      exact marked
  | extraCycle _ _ _ due =>
      intro _
      simp only [extraCycleDue, adcSbcExtraCycle, Bool.and_eq_true, decide_eq_true_eq] at due
      exact due.2.1.1.2
  | interrupt | fetch =>
      intro bad
      cases bad
  | _ => exact marked

/-- A core is after a reset like a fresh one if and only if it is clean. -/
theorem reset_as_fresh_iff (reach : cpu.Reachable β v prof) (bus₀ : β) :
    (∀ (ram : U16 → U8) (lines : List Lines),
      (cpu.reset bus₀).1.seen v prof ram lines = (cpu.fresh bus₀).seen v prof ram lines) ↔
      cpu.Clean := by
  constructor
  · intro same
    have nmi : cpu.pendingNmi = false := by
      by_contra pending
      exact nop_shows bus₀ (.inl ⟨by simpa using pending, rfl⟩) same
    refine ⟨?_, nmi, ?_⟩
    · by_contra old
      obtain ⟨b, some⟩ := Option.ne_none_iff_exists'.1 old
      cases b with
      | false => exact nop_shows bus₀ (.inr ⟨nmi, some, rfl⟩) same
      | true => exact rti_shows bus₀ nmi some same
    · by_contra dirty
      obtain ⟨extra, decimal⟩ := not_or.1 dirty
      replace extra : cpu.extraAdcSbcCycle = true := by simpa using extra
      exact adc_shows bus₀ nmi extra (by simpa using decimal) (reach.extra_cmos extra) same
  · intro clean ram lines
    exact clean.reset bus₀ _ lines

end

end

def sedCliNmi : Nat → Call SimpleBus :=
  -- SED and CLI, and an NMI edge in the last cycle of CLI.
  fun k => .step { Lines.none with nmi := 3 ≤ k } ⟨fun addr => if addr = 0 then 0xF8 else 0x58⟩

set_option maxRecDepth 20000 in
theorem reset_as_fresh_iff_nmi :
    let cpu := follow (call .rockwell65C02 .debug) new sedCliNmi
    ((cpu 7).ucycs.isEmpty = false ∧ (cpu 7).prevNmi = true ∧ flagSet (cpu 7).p Psr.D = true ∧
      flagSet (cpu 7).p Psr.I = false) ∧
    (∀ (ram : U16 → U8) (lines : List Lines),
      ((cpu 7).reset (⟨ram⟩ : SimpleBus)).1.seen .rockwell65C02 .debug ram lines =
        ((cpu 7).fresh (⟨ram⟩ : SimpleBus)).seen .rockwell65C02 .debug ram lines) ∧
    ((cpu 4).pendingNmi = true ∧ (cpu 4).oldI = some true) ∧
    ¬ ∀ (ram : U16 → U8) (lines : List Lines),
      ((cpu 4).reset (⟨fun _ => 0xEA⟩ : SimpleBus)).1.seen .rockwell65C02 .debug ram lines =
        ((cpu 4).fresh (⟨fun _ => 0xEA⟩ : SimpleBus)).seen .rockwell65C02 .debug ram lines := by
  intro cpu
  refine ⟨by decide, fun ram lines => ?_, by decide, fun same => ?_⟩
  · have clean : (cpu 7).Clean := ⟨by decide, by decide, by decide⟩
    exact (reset_as_fresh_iff (follow_reaches new sedCliNmi 7) (⟨ram⟩ : SimpleBus)).2 clean ram lines
  · have clean := (reset_as_fresh_iff (follow_reaches new sedCliNmi 4) (⟨fun _ => 0xEA⟩ : SimpleBus)).1 same
    exact absurd clean.pendingNmi (by decide)

/-- An NMI edge from before the reset is serviced after it. -/
theorem reset_leaves_nmi : ¬ ∀ v prof (cpu : Cpu6502), cpu.Reachable SimpleBus v prof →
    ∀ (bus₀ : SimpleBus) (ram : U16 → U8) (lines : List Lines),
      (cpu.reset bus₀).1.seen v prof ram lines = (cpu.fresh bus₀).seen v prof ram lines := by
  intro same
  have reset := same .nmos6502 .debug _
    (follow_reaches new (fun _ => .step ⟨false, true, true⟩ ⟨fun _ => 0xEA⟩) 1) ⟨fun _ => 0xEA⟩
    (fun _ => 0xEA) (List.replicate 3 ⟨false, true, true⟩)
  revert reset
  decide +kernel

end Cpu6502

end Rs65x
