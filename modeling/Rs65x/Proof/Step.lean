import Rs65x.Proof.Finish

/-!
# What a cycle can do

`Outcome` lists the exits of `step` with what each of them does to the core and the bus. Under the
invariant of the reachable states a cycle always has an outcome, unless it runs into the plain
addition of `FixPtr` in a debug build.
-/

namespace Rs65x
open Fallible

def StepExit.starts : StepExit → Bool
  | .opcodeFetch | .interrupt _ => true
  | _ => false

namespace Cpu6502

def stalls (cpu : Cpu6502) (lines : Lines) : Bool := !lines.rdy && cpu.nextCycleRead

@[simp] theorem sampleNmi_nextCycleRead (cpu : Cpu6502) (lines : Lines) :
    (cpu.sampleNmi lines).nextCycleRead = cpu.nextCycleRead := rfl

/-- The cycle that the CMOS cores insert after a decimal ADC or SBC is still to come. -/
def extraCycleDue (cpu : Cpu6502) (F : Flavor) (i : Instruction) : Bool :=
  i.memoryAction = .read && cpu.adcSbcExtraCycle F i

def extraAddr (cpu : Cpu6502) (F : Flavor) (i : Instruction) : U32 :=
  get (cpu.extraCycleAddr F i) 0

theorem not_due (F : Flavor) (cpu : Cpu6502) {i : Instruction}
    (other : (i.mnemonic = .adc ∨ i.mnemonic = .sbc) → flagSet cpu.p Psr.D = false) :
    cpu.extraCycleDue F i = false := by
  by_cases arith : i.mnemonic = .adc ∨ i.mnemonic = .sbc
  · simp [extraCycleDue, adcSbcExtraCycle, other arith]
  · obtain ⟨notAdc, notSbc⟩ := not_or.1 arith
    simp [extraCycleDue, adcSbcExtraCycle, notAdc, notSbc]

theorem never_due (F : Flavor) {i : Instruction} (other : i.mnemonic ≠ .adc ∧ i.mnemonic ≠ .sbc)
    (cpu : Cpu6502) : cpu.extraCycleDue F i = false :=
  not_due F cpu fun arith => absurd arith (not_or.2 other)

/-- The I flag that decides on an IRQ at a boundary. -/
def irqDisable (cpu : Cpu6502) : Bool := cpu.oldI.getD (flagSet cpu.p Psr.I)

def exec {β : Type} (cpu : Cpu6502) (i : Instruction) (bus : β) : Exec β :=
  ⟨cpu.scratch, cpu.toCtx i, bus⟩

def settled (cpu : Cpu6502) : Cpu6502 := { cpu with extraAdcSbcCycle := false, oldI := none }

/-- The core after the fetch of `op`, with the micro-ops of its instruction in `q`. -/
def fetched (cpu : Cpu6502) (v : Variant) (op : U8) (q : UcycQueue) : Cpu6502 :=
  { cpu with
    pc := cpu.pc + 1
    currentOpcode := op
    currentInst := some (v.decode op)
    scratch := { MicroExecutor.new with memoryAction := (v.decode op).memoryAction }
    ucycs := q }

/-- The core after the first cycle of an interrupt, which read `data`, with the other ones in `q`. -/
def interrupted (cpu : Cpu6502) (v : Variant) (data : U8) (q : UcycQueue) : Cpu6502 :=
  { cpu with
    pendingNmi := false
    currentOpcode := 0
    currentInst := some (v.decode 0)
    scratch := { MicroExecutor.new with dataLatch := data }
    ucycs := q }

/-- The micro-op that overflows in a debug build: JMP (ind) of the CMOS cores with pointer $FFFF. -/
def ptrOverflows (cpu : Cpu6502) : Bool :=
  cpu.ucycs.front.any (·.alu = .fixPtr) && cpu.scratch.ptr = 0xFF00

/-- Holds of every reachable core. -/
structure Inv (v : Variant) (cpu : Cpu6502) : Prop where
  wf : cpu.ucycs.Wf
  idle : cpu.currentInst = none → cpu.ucycs.Drained
  inst : ∀ {i}, cpu.currentInst = some i →
    i = v.decode cpu.currentOpcode ∧ lawful i cpu.ucycs.live

/-- The next unstalled cycle starts an instruction or an interrupt. -/
structure AtBoundary (v : Variant) (cpu : Cpu6502) : Prop where
  drained : cpu.ucycs.Drained
  ended : ∀ {i}, cpu.currentInst = some i → cpu.extraCycleDue v.flavor i = false

section
variable {v : Variant} {cpu : Cpu6502}

theorem Inv.of_fresh (drained : cpu.ucycs.Drained) (fresh : cpu.currentInst = none) : cpu.Inv v where
  wf := drained.wf
  idle _ := drained
  inst inst := by cases fresh.symm.trans inst

theorem AtBoundary.of_fresh (drained : cpu.ucycs.Drained) (fresh : cpu.currentInst = none) :
    cpu.AtBoundary v where
  drained := drained
  ended inst := by cases fresh.symm.trans inst

theorem AtBoundary.of_inst {i : Instruction} (drained : cpu.ucycs.Drained)
    (inst : cpu.currentInst = some i) (ended : cpu.extraCycleDue v.flavor i = false) :
    cpu.AtBoundary v where
  drained := drained
  ended inst' := by
    cases inst.symm.trans inst'
    exact ended

end

theorem new_inv (v : Variant) : new.Inv v := .of_fresh UcycQueue.default_drained rfl

end Cpu6502

def interruptTail (vector : U16) : List MicroOp :=
  [.push .pcHi, .push .pcLo, .push .status, .read (.constant vector) .pcLo false,
    .read (.constant (vector + 1)) .pcHi false]

def InterruptType.vector : InterruptType → U16
  | .nmi => 0xFFFA
  | .irq | .reset | .brk => 0xFFFE

namespace Cpu6502
variable {β : Type} [Bus β]

/-- What a cycle can do to a core that has sampled its NMI line. -/
inductive Outcome (v : Variant) (cpu : Cpu6502) (lines : Lines) (bus : β) :
    StepExit → Cpu6502 → β → Prop
  | stalled (stalls : cpu.stalls lines) : Outcome v cpu lines bus .stalled cpu bus
  | ucyc {i : Instruction} {u : MicroOp} {rest : List MicroOp} {e : Exec β} {us : List MicroOp}
      {q : UcycQueue} (awake : cpu.stalls lines = false) (inst : cpu.currentInst = some i)
      (live : cpu.ucycs.live = u :: rest) (next : (cpu.exec i bus).next v.flavor u rest = (e, us))
      (wf : q.Wf) (live' : q.live = us) (more : us ≠ []) :
      Outcome v cpu lines bus .ucyc (cpu.restore e q) e.bus
  | last {i : Instruction} {u : MicroOp} {rest : List MicroOp} {e : Exec β} {q : UcycQueue}
      (awake : cpu.stalls lines = false) (inst : cpu.currentInst = some i)
      (live : cpu.ucycs.live = u :: rest) (next : (cpu.exec i bus).next v.flavor u rest = (e, []))
      (drained : q.Drained) :
      Outcome v cpu lines bus .ucyc ((cpu.restore e q).finished v.flavor i) e.bus
  | extraCycle {i : Instruction} (awake : cpu.stalls lines = false)
      (inst : cpu.currentInst = some i) (empty : cpu.ucycs.Drained)
      (due : cpu.extraCycleDue v.flavor i) :
      Outcome v cpu lines bus .extraCycle { cpu with extraAdcSbcCycle := true }
        (Bus.read bus (cpu.extraAddr v.flavor i) false true).2
  | interrupt {i : Instruction} {type : InterruptType} {q : UcycQueue}
      (awake : cpu.stalls lines = false)
      (inst : cpu.currentInst = some i) (empty : cpu.ucycs.Drained)
      (ended : cpu.extraCycleDue v.flavor i = false)
      (request : type = .nmi ∧ cpu.pendingNmi ∨
        type = .irq ∧ cpu.pendingNmi = false ∧ lines.irq ∧ cpu.irqDisable = false)
      (wf : q.Wf) (live' : q.live = interruptTail type.vector) :
      Outcome v cpu lines bus (.interrupt type)
        (cpu.settled.interrupted v (Bus.read bus (cpu.pc.setWidth 32) false true).1 q)
        (Bus.read bus (cpu.pc.setWidth 32) false true).2
  | fetch {i : Instruction} {q : UcycQueue} (awake : cpu.stalls lines = false)
      (inst : cpu.currentInst = some i) (empty : cpu.ucycs.Drained)
      (ended : cpu.extraCycleDue v.flavor i = false) (quiet : cpu.pendingNmi = false)
      (masked : lines.irq = false ∨ cpu.irqDisable = true) (wf : q.Wf)
      (live' : q.live = v.emission (Bus.read bus (cpu.pc.setWidth 32) false true).1) :
      Outcome v cpu lines bus .opcodeFetch
        (cpu.settled.fetched v (Bus.read bus (cpu.pc.setWidth 32) false true).1 q)
        (Bus.read bus (cpu.pc.setWidth 32) false true).2
  | first {q : UcycQueue} (awake : cpu.stalls lines = false) (inst : cpu.currentInst = none)
      (wf : q.Wf) (live' : q.live = v.emission (Bus.read bus (cpu.pc.setWidth 32) false true).1) :
      Outcome v cpu lines bus .opcodeFetch
        (cpu.fetched v (Bus.read bus (cpu.pc.setWidth 32) false true).1 q)
        (Bus.read bus (cpu.pc.setWidth 32) false true).2

/-! ## The pieces of `step` -/

theorem prepareInstruction_spec (v : Variant) (op : U8) (q₀ : UcycQueue) (drained : q₀.Drained) :
    ∃ q : UcycQueue, q.Wf ∧ q.live = v.emission op ∧ ∀ prof (cpu : Cpu6502), cpu.ucycs = q₀ →
      { cpu with pc := cpu.pc + 1 }.prepareInstruction v.flavor prof op =
        .ok (cpu.fetched v op q) := by
  obtain ⟨few, -, -, emits⟩ := v.emission_spec op
  obtain ⟨q, pushes, wf, live⟩ := drained.pushAll few
  refine ⟨q, wf, live, fun prof cpu eq => ?_⟩
  simp only [prepareInstruction]
  change (AddressMode.emitUcycs prof v.flavor.micro (v.decode op).addressMode
    (decodeContext v.flavor (v.decode op).memoryAction op) >>= _) = _
  rw [emits, ok_bind, eq, pushes]
  rfl

theorem fetchInstruction_spec (v : Variant) (cpu : Cpu6502) (drained : cpu.ucycs.Drained)
    (bus : β) : ∃ q : UcycQueue, q.Wf ∧
      q.live = v.emission (Bus.read bus (cpu.pc.setWidth 32) false true).1 ∧
      ∀ prof, cpu.fetchInstruction v.flavor prof bus =
        .ok (cpu.fetched v (Bus.read bus (cpu.pc.setWidth 32) false true).1 q,
          (Bus.read bus (cpu.pc.setWidth 32) false true).2) := by
  obtain ⟨q, wf, live, prepares⟩ := prepareInstruction_spec v
    (Bus.read bus (cpu.pc.setWidth 32) false true).1 cpu.ucycs drained
  refine ⟨q, wf, live, fun prof => ?_⟩
  simp only [fetchInstruction, fetchOpcode, prepares prof cpu rfl]
  rfl

set_option maxRecDepth 20000 in
theorem decode_brk (v : Variant) : v.decode 0 = ⟨.brk, .interrupt .brk, .read⟩ := by
  cases v <;> decide

theorem never_due_brk (v : Variant) (cpu : Cpu6502) :
    cpu.extraCycleDue v.flavor (v.decode 0) = false :=
  never_due _ (by rw [decode_brk]; decide) cpu

theorem emitInt_eq (v : Variant) (ctx : DecodeContext) {type : InterruptType}
    (hardware : type = .nmi ∨ type = .irq) :
    v.flavor.micro.emitInt ctx type =
      .ok (.read .pc .none false :: interruptTail type.vector) := by
  obtain rfl | rfl := hardware <;> cases v <;> rfl

theorem startInterrupt_spec (v : Variant) (cpu : Cpu6502) (drained : cpu.ucycs.Drained) (bus : β)
    {type : InterruptType} (hardware : type = .nmi ∨ type = .irq) :
    ∃ q : UcycQueue, q.Wf ∧ q.live = interruptTail type.vector ∧
      ∀ prof, { cpu with pendingNmi := false }.startInterrupt v.flavor prof bus type =
        .ok (cpu.interrupted v (Bus.read bus (cpu.pc.setWidth 32) false true).1 q,
          (Bus.read bus (cpu.pc.setWidth 32) false true).2) := by
  have emits := emitInt_eq v (decodeContext v.flavor (v.decode 0).memoryAction 0) hardware
  have few : (MicroOp.read .pc .none false :: interruptTail type.vector).length ≤ maxUcyc := by
    simp [interruptTail, maxUcyc]
  obtain ⟨q₀, pushes, wf₀, live₀⟩ := drained.pushAll few
  obtain ⟨q, pop, wf, live, -⟩ := wf₀.pop_cons live₀
  refine ⟨q, wf, live, fun prof => ?_⟩
  simp only [startInterrupt]
  change (v.flavor.micro.emitInt (decodeContext v.flavor (v.decode 0).memoryAction 0) type >>= _) = _
  rw [emits, ok_bind, pushes, ok_bind, Exec.executeNext, pop]
  have action : (v.decode 0).memoryAction = .read := by rw [decode_brk]
  simp only [interrupted]
  rw [show Instruction.fromByte 0 v.flavor.opcodeTable = v.decode 0 from rfl, action]
  rfl

theorem extraCycleAddr_eq {cpu : Cpu6502} {F : Flavor} {i : Instruction}
    (due : cpu.extraCycleDue F i) : cpu.extraCycleAddr F i = .ok (cpu.extraAddr F i) := by
  simp only [extraCycleDue, adcSbcExtraCycle, Bool.and_eq_true, Bool.or_eq_true,
    decide_eq_true_eq] at due
  obtain ⟨-, ⟨⟨adc | sbc, -⟩, -⟩, -⟩ := due
  · simp only [extraAddr, extraCycleAddr, adc]
    split <;> rfl
  · simp only [extraAddr, extraCycleAddr, sbc]
    split <;> rfl

theorem boundary_spec {v : Variant} {cpu : Cpu6502} {i : Instruction} {lines : Lines}
    (prof : Profile) (bus : β) (awake : cpu.stalls lines = false)
    (inst : cpu.currentInst = some i) (empty : cpu.ucycs.Drained) :
    ∃ exit cpu' bus', cpu.boundary v.flavor prof i lines bus = .ok (exit, cpu', bus') ∧
      Outcome v cpu lines bus exit cpu' bus' := by
  cases due : cpu.extraCycleDue v.flavor i with
  | true =>
      refine ⟨_, _, _, ?_, .extraCycle awake inst empty due⟩
      refine (if_pos due).trans ?_
      rw [extraCycleAddr_eq due]
      rfl
  | false =>
      have ended : ¬ cpu.extraCycleDue v.flavor i := by simp [due]
      have start : cpu.boundary v.flavor prof i lines bus =
          if cpu.pendingNmi then
            { cpu.settled with pendingNmi := false }.startInterrupt v.flavor prof bus .nmi >>=
              fun r => .ok (.interrupt .nmi, r)
          else if lines.irq && !cpu.irqDisable then
            cpu.settled.startInterrupt v.flavor prof bus .irq >>= fun r => .ok (.interrupt .irq, r)
          else cpu.settled.fetchInstruction v.flavor prof bus >>= fun r => .ok (.opcodeFetch, r) := if_neg ended
      rw [start]
      cases nmi : cpu.pendingNmi with
      | true =>
          obtain ⟨q, wf, live, run⟩ := startInterrupt_spec v cpu.settled empty bus (.inl rfl)
          refine ⟨_, _, _, ?_, .interrupt awake inst empty due (.inl ⟨rfl, nmi⟩) wf live⟩
          rw [if_pos rfl, run prof]
          rfl
      | false =>
          rw [if_neg (by simp)]
          cases irq : lines.irq && !cpu.irqDisable with
          | true =>
              simp only [Bool.and_eq_true, Bool.not_eq_true'] at irq
              obtain ⟨q, wf, live, run⟩ :=
                startInterrupt_spec v cpu.settled empty bus (.inr rfl)
              refine ⟨_, _, _, ?_, .interrupt awake inst empty due (.inr ⟨rfl, nmi, irq⟩) wf live⟩
              have same : { cpu.settled with pendingNmi := false } = cpu.settled := by
                simp only [settled, nmi]
              rw [if_pos rfl, ← same, run prof]
              rfl
          | false =>
              simp only [Bool.and_eq_false_iff, Bool.not_eq_false'] at irq
              obtain ⟨q, wf, live, run⟩ := fetchInstruction_spec v cpu.settled empty bus
              refine ⟨_, _, _, ?_, .fetch awake inst empty due nmi irq wf live⟩
              rw [if_neg (by simp), run prof]
              rfl

theorem Inv.sample {v : Variant} {cpu : Cpu6502} (inv : cpu.Inv v) (lines : Lines) :
    (cpu.sampleNmi lines).Inv v := ⟨inv.wf, inv.idle, inv.inst⟩

theorem lawful_fits {i : Instruction} {u : MicroOp} {rest : List MicroOp}
    (laws : lawful i (u :: rest)) : u.fits rest := by
  simp only [lawful, MicroOp.lawful, Bool.and_eq_true] at laws
  exact laws.1.1.1.1

theorem step_drained {v : Variant} {cpu : Cpu6502} (empty : cpu.ucycs.Drained) (prof : Profile)
    (lines : Lines) (bus : β) :
    ∃ exit cpu' bus', cpu.step v.flavor prof lines bus = .ok (exit, cpu', bus') ∧
      Outcome v (cpu.sampleNmi lines) lines bus exit cpu' bus' := by
  replace empty : (cpu.sampleNmi lines).ucycs.Drained := empty
  simp only [step]
  generalize cpu.sampleNmi lines = cpu at empty
  cases stalls : cpu.stalls lines with
  | true => exact ⟨_, _, _, if_pos stalls, .stalled stalls⟩
  | false =>
      have awake : ¬ (!lines.rdy && cpu.nextCycleRead) = true := by
        simpa only [Cpu6502.stalls, Bool.not_eq_true] using stalls
      rw [if_neg awake]
      cases inst : cpu.currentInst with
      | none =>
          obtain ⟨q, wf, live, run⟩ := fetchInstruction_spec v cpu empty bus
          refine ⟨_, _, _, ?_, .first stalls inst wf live⟩
          simp only [run prof]
          rfl
      | some i =>
          obtain ⟨exit, cpu', bus', run, outcome⟩ :=
            boundary_spec (v := v) prof bus stalls inst empty
          refine ⟨exit, cpu', bus', ?_, outcome⟩
          simp only [Exec.executeNext, UcycQueue.pop_nil empty.live_eq]
          exact run

theorem AtBoundary.step {v : Variant} {cpu : Cpu6502} (boundary : cpu.AtBoundary v) {prof : Profile}
    {lines : Lines} {bus : β} {exit : StepExit} {t : Cpu6502 × β}
    (run : cpu.step v.flavor prof lines bus = .ok (exit, t)) :
    exit = .stalled ∧ t = (cpu.sampleNmi lines, bus) ∨ exit.starts = true := by
  obtain ⟨exit', cpu', bus', run', outcome⟩ :=
    step_drained (v := v) boundary.drained prof lines bus
  cases run.symm.trans run'
  cases outcome with
  | stalled => exact .inl ⟨rfl, rfl⟩
  | ucyc _ _ live | last _ _ live => cases live.symm.trans boundary.drained.live_eq
  | extraCycle _ inst _ due => cases due.symm.trans (boundary.ended inst)
  | interrupt | fetch | first => exact .inr rfl

theorem step_due {v : Variant} {cpu : Cpu6502} (drained : cpu.ucycs.Drained) {i : Instruction}
    (inst : cpu.currentInst = some i) (due : cpu.extraCycleDue v.flavor i = true) {lines : Lines}
    (awake : (cpu.sampleNmi lines).stalls lines = false) (prof : Profile) (bus : β) :
    cpu.step v.flavor prof lines bus =
      .ok (.extraCycle, { cpu.sampleNmi lines with extraAdcSbcCycle := true },
        (Bus.read bus (cpu.extraAddr v.flavor i) false true).2) := by
  obtain ⟨exit, cpu', bus', run, outcome⟩ := step_drained (v := v) drained prof lines bus
  rw [run]
  cases outcome with
  | stalled stalls => simp [awake] at stalls
  | ucyc _ _ live | last _ _ live => cases live.symm.trans drained.live_eq
  | extraCycle _ inst' =>
      cases inst.symm.trans inst'
      rfl
  | interrupt _ inst' _ ended | fetch _ inst' _ ended =>
      cases inst.symm.trans inst'
      exact absurd (due.symm.trans ended) (by simp)
  | first _ none => cases inst.symm.trans none

theorem AtBoundary.fetches {v : Variant} {cpu : Cpu6502} (boundary : cpu.AtBoundary v)
    (calm : cpu.pendingNmi = false) (prof : Profile) (bus : β) :
    ∃ t, cpu.step v.flavor prof Lines.none bus = .ok (.opcodeFetch, t) ∧ t.1.pendingNmi = false := by
  obtain ⟨exit, cpu', bus', run, outcome⟩ :=
    step_drained (v := v) boundary.drained prof Lines.none bus
  have sampled : (cpu.sampleNmi Lines.none).pendingNmi = false := by simp [sampleNmi, Lines.none, calm]
  cases outcome with
  | stalled stalls => simp [Cpu6502.stalls, Lines.none] at stalls
  | fetch | first => exact ⟨_, run, sampled⟩
  | ucyc _ _ live | last _ _ live => cases live.symm.trans boundary.drained.live_eq
  | extraCycle _ inst _ due => cases due.symm.trans (boundary.ended inst)
  | interrupt _ _ _ _ request =>
      obtain ⟨-, pending⟩ | ⟨-, -, irq, -⟩ := request
      · cases pending.symm.trans sampled
      · cases irq

theorem fetches_first {v : Variant} {cpu : Cpu6502} (drained : cpu.ucycs.Drained)
    (fresh : cpu.currentInst = none) (calm : cpu.pendingNmi = false) (prof : Profile) (bus : β) :
    (cpu.step v.flavor prof Lines.none bus).map (·.1) = .ok .opcodeFetch := by
  have boundary : cpu.AtBoundary v := ⟨drained, fun inst => by cases fresh.symm.trans inst⟩
  obtain ⟨t, run, -⟩ := boundary.fetches calm prof bus
  rw [run]
  rfl

theorem step_pops {F : Flavor} {prof : Profile} {cpu : Cpu6502} {i : Instruction}
    (inst : cpu.currentInst = some i) {lines : Lines}
    (awake : (cpu.sampleNmi lines).stalls lines = false) {bus : β} {u : MicroOp} {q : UcycQueue}
    (pop : cpu.ucycs.pop = (some u, q)) :
    cpu.step F prof lines bus = (cpu.exec i bus).execUcyc F prof u q >>= fun r =>
      let c := (cpu.sampleNmi lines).restore r.1 r.2
      if r.2.isEmpty then c.finishInstruction F prof i >>= fun c => .ok (.ucyc, c, r.1.bus)
      else .ok (.ucyc, c, r.1.bus) := by
  have run : ¬ (!lines.rdy && (cpu.sampleNmi lines).nextCycleRead) = true := by
    simpa only [stalls, Bool.not_eq_true] using awake
  have inst' : (cpu.sampleNmi lines).currentInst = some i := inst
  have executes : Exec.executeNext F prof ⟨(cpu.sampleNmi lines).scratch,
      (cpu.sampleNmi lines).toCtx i, bus⟩ (cpu.sampleNmi lines).ucycs =
      (cpu.exec i bus).execUcyc F prof u q >>= fun r => .ok (.pending, r.1, r.2) := by
    have pop' : (cpu.sampleNmi lines).ucycs.pop = (some u, q) := pop
    simp only [Exec.executeNext, pop']
    rfl
  simp only [step, if_neg run, inst', executes]
  rcases (cpu.exec i bus).execUcyc F prof u q with fault | ⟨e, q⟩
  · rfl
  · rfl

theorem step_executes {v : Variant} {prof : Profile} {cpu : Cpu6502} (inv : cpu.Inv v)
    {i : Instruction} (inst : cpu.currentInst = some i) {lines : Lines}
    (awake : (cpu.sampleNmi lines).stalls lines = false) {bus : β} {u : MicroOp} {q : UcycQueue}
    (pop : cpu.ucycs.pop = (some u, q)) :
    cpu.step v.flavor prof lines bus = (cpu.exec i bus).execUcyc v.flavor prof u q >>= fun r =>
      let c := (cpu.sampleNmi lines).restore r.1 r.2
      .ok (.ucyc, if r.2.isEmpty then c.finished v.flavor i else c, r.1.bus) := by
  rw [step_pops inst awake pop]
  rcases (cpu.exec i bus).execUcyc v.flavor prof u q with fault | ⟨e, q⟩
  · rfl
  · have some : ((cpu.sampleNmi lines).restore e q).currentInst.isSome :=
      Option.isSome_iff_exists.2 ⟨i, inst⟩
    have finish := (finished_spec v cpu.currentOpcode some).1 prof
    rw [← (inv.inst inst).1] at finish
    simp only [ok_bind, finish]
    cases q.isEmpty with
    | true => rfl
    | false => rfl

theorem step_stalls {F : Flavor} {prof : Profile} {cpu : Cpu6502} {lines : Lines}
    (stalls : (cpu.sampleNmi lines).stalls lines = true) (bus : β) :
    cpu.step F prof lines bus = .ok (.stalled, cpu.sampleNmi lines, bus) :=
  if_pos stalls

theorem step_spec {v : Variant} {cpu : Cpu6502} (inv : cpu.Inv v) {prof : Profile} (lines : Lines)
    (bus : β) (small : prof = .release ∨ cpu.ptrOverflows = false) :
    ∃ exit cpu' bus', cpu.step v.flavor prof lines bus = .ok (exit, cpu', bus') ∧
      Outcome v (cpu.sampleNmi lines) lines bus exit cpu' bus' := by
  by_cases empty : cpu.ucycs.Drained
  · exact step_drained empty prof lines bus
  obtain ⟨u, rest, live⟩ := List.exists_cons_of_ne_nil (mt inv.wf.live_eq_nil.1 empty)
  cases stalls : (cpu.sampleNmi lines).stalls lines with
  | true => exact ⟨_, _, _, step_stalls stalls bus, .stalled stalls⟩
  | false =>
      cases inst : cpu.currentInst with
      | none => cases live.symm.trans (inv.idle inst).live_eq
      | some i =>
          have laws := (inv.inst inst).2
          rw [live] at laws
          have fits : Exec.PtrFits prof (cpu.exec i bus) u := by
            refine small.imp_right fun small ⟨alu, ptr⟩ => ?_
            have front : cpu.ucycs.front = some u := by rw [UcycQueue.front_eq, live]; rfl
            have ptr : cpu.scratch.ptr = 0xFF00 := ptr
            simp [ptrOverflows, front, alu, ptr] at small
          obtain ⟨q₁, q, pop, run, wf, live'⟩ :=
            Exec.execUcyc_next v.flavor inv.wf live (lawful_fits laws) fits
          generalize next : (cpu.exec i bus).next v.flavor u rest = r at run live'
          obtain ⟨e, us⟩ := r
          rw [step_executes inv inst stalls pop, run]
          cases us with
          | cons u' us =>
              have more : ¬ q.isEmpty = true := by simp [wf.isEmpty_iff, live']
              simp only [ok_bind, if_neg more]
              exact ⟨_, _, _, rfl, .ucyc stalls inst live next wf live' (by simp)⟩
          | nil =>
              simp only [ok_bind, if_pos (wf.isEmpty_iff.2 live')]
              exact ⟨_, _, _, rfl, .last stalls inst live next (wf.live_eq_nil.1 live')⟩

theorem Inv.overflowing {v : Variant} {cpu : Cpu6502} (inv : cpu.Inv v) (large : cpu.ptrOverflows) :
    ∃ i u rest, cpu.currentInst = some i ∧ cpu.ucycs.live = u :: rest ∧ u.alu = .fixPtr ∧
      cpu.scratch.ptr = 0xFF00 := by
  simp only [ptrOverflows, Bool.and_eq_true, decide_eq_true_eq, UcycQueue.front_eq] at large
  cases live : cpu.ucycs.live with
  | nil => simp [live] at large
  | cons u rest =>
      simp only [live, List.head?_cons, Option.any_some, decide_eq_true_eq] at large
      cases inst : cpu.currentInst with
      | none => simp [(inv.idle inst).live_eq] at live
      | some i => exact ⟨i, u, rest, rfl, rfl, large⟩

theorem step_overflows {v : Variant} {cpu : Cpu6502} (inv : cpu.Inv v) {lines : Lines} (bus : β)
    (awake : (cpu.sampleNmi lines).stalls lines = false) (large : cpu.ptrOverflows) :
    cpu.step v.flavor .debug lines bus = .error .overflow := by
  obtain ⟨i, u, rest, inst, live, alu, ptr⟩ := inv.overflowing large
  have fits := lawful_fits (live ▸ (inv.inst inst).2)
  simp only [MicroOp.fits, alu, Bool.and_eq_true, decide_eq_true_eq, Bool.not_eq_true'] at fits
  obtain ⟨q, pop, -⟩ := inv.wf.pop_cons live
  have ptr' : ((cpu.exec i bus).body v.flavor u).1.scratch.ptr = 0xFF00 :=
    (Exec.body_ptr v.flavor _ alu fits.2.1 fits.2.2).trans ptr
  have fault : (cpu.exec i bus).execUcyc v.flavor .debug u q = .error .overflow := by
    rw [Exec.execUcyc_eq _ _ _ fits.1, alu, Exec.finishAlu]
    simp only [ptr']
    rfl
  rw [step_pops inst awake pop, fault]
  rfl

/-- A cycle has an outcome, or panics in a debug build. -/
theorem step_cases {v : Variant} {cpu : Cpu6502} (inv : cpu.Inv v) (prof : Profile) (lines : Lines)
    (bus : β) :
    (∃ exit cpu' bus', cpu.step v.flavor prof lines bus = .ok (exit, cpu', bus') ∧
      Outcome v (cpu.sampleNmi lines) lines bus exit cpu' bus') ∨
    prof = .debug ∧ (cpu.sampleNmi lines).stalls lines = false ∧ cpu.ptrOverflows = true ∧
      cpu.step v.flavor prof lines bus = .error .overflow := by
  by_cases small : prof = .release ∨ cpu.ptrOverflows = false
  · exact .inl (step_spec inv lines bus small)
  · cases stalls : (cpu.sampleNmi lines).stalls lines with
    | true => exact .inl ⟨_, _, _, step_stalls stalls bus, .stalled stalls⟩
    | false =>
        obtain ⟨debug, large⟩ := not_or.1 small
        replace large : cpu.ptrOverflows = true := by simpa using large
        cases prof with
        | release => exact absurd rfl debug
        | debug => exact .inr ⟨rfl, rfl, large, step_overflows inv bus stalls large⟩

theorem step_outcome {v : Variant} {cpu : Cpu6502} (inv : cpu.Inv v) {prof : Profile}
    {lines : Lines} {bus : β} {exit : StepExit} {cpu' : Cpu6502} {bus' : β}
    (run : cpu.step v.flavor prof lines bus = .ok (exit, cpu', bus')) :
    Outcome v (cpu.sampleNmi lines) lines bus exit cpu' bus' := by
  rcases step_cases inv prof lines bus with ⟨_, _, _, run', outcome⟩ | ⟨-, -, -, fault⟩
  · cases run.symm.trans run'
    exact outcome
  · cases run.symm.trans fault

/-! ## The invariant -/

theorem finished_frame {v : Variant} {cpu : Cpu6502} (inv : cpu.Inv v) {i : Instruction}
    (inst : cpu.currentInst = some i) {β : Type} (e : Exec β) (q : UcycQueue) :
    (cpu.restore e q).Framed
      (if i.delaysIrq then some (flagSet e.ctx.status Psr.I) else cpu.oldI)
      ((cpu.restore e q).finished v.flavor i) := by
  have inst' : (cpu.restore e q).currentInst.isSome := by simp [restore, inst]
  rw [(inv.inst inst).1]
  exact (finished_spec v cpu.currentOpcode inst').2

theorem fetched_inv {v : Variant} (cpu : Cpu6502) {op : U8} {q : UcycQueue} (wf : q.Wf)
    (live : q.live = v.emission op) : (cpu.fetched v op q).Inv v where
  wf := wf
  idle none := by cases none
  inst inst := by
    cases inst
    exact ⟨rfl, live ▸ (v.emission_spec op).2.1⟩

theorem interrupted_inv {v : Variant} (cpu : Cpu6502) (data : U8) {q : UcycQueue} (wf : q.Wf)
    {type : InterruptType} (live : q.live = interruptTail type.vector) :
    (cpu.interrupted v data q).Inv v where
  wf := wf
  idle none := by cases none
  inst inst := by
    obtain rfl := Option.some.inj inst
    refine ⟨rfl, ?_⟩
    rw [decode_brk]
    simp only [interrupted, live]
    cases type <;> rfl

theorem Outcome.inv {v : Variant} {cpu : Cpu6502} (inv : cpu.Inv v) {lines : Lines} {bus : β}
    {exit : StepExit} {cpu' : Cpu6502} {bus' : β} (outcome : Outcome v cpu lines bus exit cpu' bus') :
    cpu'.Inv v := by
  cases outcome with
  | stalled => exact inv
  | @ucyc i u rest e us q awake inst live next wf live' more =>
      have laws := (inv.inst inst).2
      rw [live] at laws
      refine ⟨wf, fun none => by simp [restore, inst] at none, fun inst' => ?_⟩
      cases inst'.symm.trans inst
      refine ⟨(inv.inst inst).1, ?_⟩
      have laws' := Exec.next_lawful (F := v.flavor) (e := cpu.exec i bus) laws
      rw [next] at laws'
      simpa only [restore, live'] using laws'
  | @last i u rest e q awake inst live next drained =>
      obtain ⟨_, _, _, _, _, eq⟩ := finished_frame inv inst e q
      rw [eq]
      exact ⟨drained.wf, fun _ => drained, fun inst' =>
        ⟨(inv.inst inst').1, by simp only [restore, drained.live_eq, lawful]⟩⟩
  | extraCycle awake inst empty due => exact ⟨inv.wf, inv.idle, inv.inst⟩
  | interrupt _ _ _ _ _ wf live' => exact interrupted_inv _ _ wf live'
  | fetch awake inst empty ended quiet masked wf live' => exact fetched_inv _ wf live'
  | first awake inst wf live' => exact fetched_inv _ wf live'

theorem Outcome.executes {v : Variant} {cpu : Cpu6502} (inv : cpu.Inv v) {lines : Lines}
    {bus bus' : β} {cpu' : Cpu6502} (outcome : Outcome v cpu lines bus .ucyc cpu' bus') :
    ∃ i u rest e us, cpu.currentInst = some i ∧ cpu.ucycs.live = u :: rest ∧
      (cpu.exec i bus).next v.flavor u rest = (e, us) ∧ cpu'.ucycs.live = us ∧ bus' = e.bus := by
  cases outcome with
  | @ucyc i u rest e us q awake inst live next wf live' more =>
      exact ⟨i, u, rest, e, us, inst, live, next, live', rfl⟩
  | @last i u rest e q awake inst live next drained =>
      obtain ⟨_, _, _, _, _, eq⟩ := finished_frame inv inst e q
      refine ⟨i, u, rest, e, [], inst, live, next, ?_, rfl⟩
      rw [eq]
      exact drained.live_eq

end Cpu6502

end Rs65x
