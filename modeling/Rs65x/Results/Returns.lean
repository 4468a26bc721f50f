import Rs65x.Proof.Returns
import Rs65x.Proof.Reach

/-!
# Calls and interrupts undo exactly
-/

namespace Rs65x
open Alu Fallible Machine Words

namespace Cpu6502

/-- A cycle can begin it and leave no NMI pending. -/
def Begins (v : Variant) (prof : Profile) (start : StepExit) (s : Cpu6502 × Recorder SimpleBus) :
    Prop :=
  ∃ lines u, s.1.step v.flavor prof lines s.2 = .ok (start, u) ∧ u.1.pendingNmi = false

structure CallReturns (v : Variant) (prof : Profile) (s : Cpu6502 × Recorder SimpleBus) : Prop where
  arrives : Begins v prof .opcodeFetch s → ∃ t, Carries v prof .opcodeFetch s t ∧
    (code t = 0x60 → ∃ u, Carries v prof .opcodeFetch t u)
  returns : ∀ t u, Carries v prof .opcodeFetch s t → code t = 0x60 →
    Carries v prof .opcodeFetch t u → u.1.pc = s.1.pc + 3 ∧ u.1.s = s.1.s

structure EntryReturns (v : Variant) (prof : Profile) (s : Cpu6502 × Recorder SimpleBus)
    (start : StepExit) (q vector : U16) : Prop where
  arrives : Begins v prof start s → ∃ t, Carries v prof start s t ∧
    (code t = 0x40 → ∃ u, Carries v prof .opcodeFetch t u)
  handler : ∀ t, Carries v prof start s t → flagSet t.1.p Psr.I = true ∧
    flagSet t.1.p Psr.D = ((v = .nmos6502 || v = .nes) && flagSet s.1.p Psr.D) ∧
    t.1.pc = Arch.word s.2.bus.ram vector
  returns : ∀ t next u, Carries v prof start s t → code t = 0x40 → Carries v prof next t u →
    next ≠ .interrupt .nmi →
    next = .opcodeFetch ∧ u.1.pc = q ∧ u.1.s = s.1.s ∧ u.1.p = s.1.p

/-- What begins at `s` is undone by the return from it. -/
structure ReturnsExactly (v : Variant) (prof : Profile) (s : Cpu6502 × Recorder SimpleBus) :
    Prop where
  call : code s = 0x20 → CallReturns v prof s
  entry : ∀ {start q status vector}, (s.1.arch s.2.bus.ram).Enters start q status vector →
    EntryReturns v prof s start q vector

/-- A BRK is the first instruction after a reset that left an I flag behind, and RTI the next one. -/
structure Stale (s : Cpu6502 × Recorder SimpleBus) : Prop where
  fresh : s.1.currentInst = none
  old : s.1.oldI = some false
  calm : s.1.pendingNmi = false
  brk : code s = 0x00
  rti : ((s.1.arch s.2.bus.ram).entered (s.1.pc + 2) (s.1.p ||| Psr.B6502 ||| Psr.U6502)
    0xFFFE).opcode = 0x40

section
variable {v : Variant} {prof : Profile} {s t u : Cpu6502 × Recorder SimpleBus} {start : StepExit}
  {q vector : U16} {status : U8}

theorem jump_turned {op : Mnemonic} {type : JumpType} (s : Cpu6502 × Recorder SimpleBus)
    (decoded : v.decode (code s) = ⟨op, .jump type, .read⟩)
    (form : (⟨op, .jump type, .read⟩ : Instruction).isDocumented) (direct : type ≠ .jmpIndirect) :
    ∃ n e, Exec.Turns v.flavor ((s.1.arch s.2.bus.ram).opened v s.2.log)
        (v.emission (s.1.arch s.2.bus.ram).opcode) (n + 1) e [] ∧
      (s.1.arch s.2.bus.ram).Completes v e := by
  have here : v.decode (s.1.arch s.2.bus.ram).opcode = ⟨op, .jump type, .read⟩ := decoded
  exact Arch.jump_turns v (by rw [here]) (by rw [here, form]) (fun indirect => absurd indirect direct)
    s.2.log

theorem jump_carries {op : Mnemonic} {type : JumpType} (boundary : s.1.AtBoundary v)
    (decoded : v.decode (code s) = ⟨op, .jump type, .read⟩)
    (form : (⟨op, .jump type, .read⟩ : Instruction).isDocumented) (direct : type ≠ .jmpIndirect)
    (other : op ≠ .adc ∧ op ≠ .sbc) (carries : Carries v prof .opcodeFetch s t) :
    t.1.arch t.2.bus.ram = (s.1.arch s.2.bus.ram).perform ⟨op, .jump type, .read⟩ := by
  obtain ⟨n, e, turns, completes⟩ := jump_turned s decoded form direct
  have here : v.decode (s.1.arch s.2.bus.ram).opcode = ⟨op, .jump type, .read⟩ := decoded
  have performs := carries.performs boundary rfl (never_due _ (by rw [here]; exact other)) turns completes
  rwa [here] at performs

theorem jump_arrives {op : Mnemonic} {type : JumpType} (boundary : s.1.AtBoundary v)
    (decoded : v.decode (code s) = ⟨op, .jump type, .read⟩)
    (form : (⟨op, .jump type, .read⟩ : Instruction).isDocumented) (direct : type ≠ .jmpIndirect)
    (other : op ≠ .adc ∧ op ≠ .sbc) (begins : Begins v prof .opcodeFetch s) :
    ∃ t, Carries v prof .opcodeFetch s t ∧ t.1.pendingNmi = false := by
  obtain ⟨lines, u, step, calm⟩ := begins
  obtain ⟨n, e, turns, -⟩ := jump_turned s decoded form direct
  have course := fetch_course boundary.drained rfl step turns
  have here : v.decode (s.1.arch s.2.bus.ram).opcode = ⟨op, .jump type, .read⟩ := decoded
  obtain ⟨t, carries, pending⟩ := course.carries step rfl (never_due _ (by rw [here]; exact other))
  exact ⟨t, carries, pending.trans calm⟩

theorem Begins.of_calm (prof : Profile) (boundary : s.1.AtBoundary v)
    (calm : s.1.pendingNmi = false) :
    Begins v prof .opcodeFetch s := by
  obtain ⟨u, step, calm'⟩ := boundary.fetches calm prof s.2
  exact ⟨Lines.none, u, step, calm'⟩

theorem callReturns (boundary : s.1.AtBoundary v) (jsr : code s = 0x20) : CallReturns v prof s := by
  have atJsr : v.decode (code s) = ⟨.jsr, .jump .toSubroutine, .read⟩ := by rw [jsr, decode_jsr]
  have atRts {t : Cpu6502 × Recorder SimpleBus} (rts : code t = 0x60) :
      v.decode (code t) = ⟨.rts, .jump .fromSubroutine, .read⟩ := by rw [rts, decode_rts]
  constructor
  · intro begins
    obtain ⟨t, carries, calm⟩ := jump_arrives boundary atJsr rfl (by decide) (by decide) begins
    refine ⟨t, carries, fun rts => ?_⟩
    have begins' : Begins v prof .opcodeFetch t := .of_calm prof carries.boundary calm
    obtain ⟨u, carries', -⟩ :=
      jump_arrives carries.boundary (atRts rts) rfl (by decide) (by decide) begins'
    exact ⟨u, carries'⟩
  · intro t u carries rts carries'
    have called := jump_carries boundary atJsr rfl (by decide) (by decide) carries
    have returned := jump_carries carries.boundary (atRts rts) rfl (by decide) (by decide) carries'
    have following : s.1.pc + 3 = s.1.pc + 2 + 1 := by rw [BitVec.add_assoc]; rfl
    rw [called] at returned
    obtain ⟨pc, sp⟩ := (s.1.arch s.2.bus.ram).rts_called (s.1.pc + 2)
      ((s.1.arch s.2.bus.ram).perform ⟨.jsr, .jump .toSubroutine, .read⟩).pc
    rw [following]
    exact ⟨(congrArg Arch.pc returned).trans pc, (congrArg Arch.s returned).trans sp⟩

/-! ## Interrupts -/

theorem handlerStatus_flags (v : Variant) (p : U8) : flagSet (handlerStatus v.flavor p) Psr.I = true ∧
    flagSet (handlerStatus v.flavor p) Psr.D =
      ((v = .nmos6502 || v = .nes) && flagSet p Psr.D) := by
  have sets : ∀ p : U8, flagSet (Alu.setFlag p Psr.I true) Psr.I = true := by decide
  have clears : ∀ p : U8, flagSet (Alu.setFlag p Psr.D false) Psr.D = false := by decide
  refine ⟨sets _, ?_⟩
  rw [handlerStatus, flagSet_decimal_setFlag_I]
  cases v
  case nmos6502 | nes => rfl
  all_goals exact clears p

theorem enters_pulled {a : Arch} (enters : a.Enters start q status vector)
    (user : flagSet a.p Psr.U6502 = true) (brk : flagSet a.p Psr.B6502 = false) :
    pulledStatus status = a.p := by
  have plain : ∀ p : U8, flagSet p Psr.U6502 = true → flagSet p Psr.B6502 = false →
      pulledStatus p = p := by decide
  have marked : ∀ p : U8, flagSet p Psr.U6502 = true → flagSet p Psr.B6502 = false →
      pulledStatus (p ||| Psr.B6502 ||| Psr.U6502) = p := by decide
  cases enters with
  | brk => exact marked a.p user brk
  | irq | nmi => exact plain a.p user brk

theorem enters_vector {a : Arch} (enters : a.Enters start q status vector) :
    (0x0200 : U16) ≤ vector ∧ 0x0200 ≤ vector + 1 := by
  cases enters with
  | brk | irq | nmi => decide

theorem handler_begins {next : StepExit} (boundary : t.1.AtBoundary v)
    (carries : Carries v prof next t u) (other : next ≠ .interrupt .nmi) :
    next = .opcodeFetch ∨ t.1.pendingNmi = false ∧ t.1.irqDisable = false := by
  obtain ⟨prev, pending, lines, w, cycles, exits, held, step, -⟩ := carries.begins boundary
  have waited : (t.1.withNmi prev pending).ucycs.Drained := boundary.drained
  obtain ⟨exit, cpu', r', step', outcome⟩ := step_drained (v := v) waited prof lines t.2
  cases step.symm.trans step'
  cases outcome with
  | fetch | first => exact .inl rfl
  | interrupt _ _ _ _ request =>
      rcases request with ⟨rfl, -⟩ | ⟨-, none, -, clear⟩
      · exact absurd rfl other
      · refine .inr ⟨Bool.eq_false_iff.2 fun nmi => ?_, clear⟩
        simp [sampleNmi, withNmi, held nmi] at none
  | stalled | ucyc | last | extraCycle => cases carries.starts

theorem interrupt_inst {type : InterruptType} (boundary : s.1.AtBoundary v)
    (carries : Carries v prof (.interrupt type) s t) : s.1.currentInst ≠ none := by
  obtain ⟨prev, pending, lines, u, cycles, exits, -, step, -⟩ := carries.begins boundary
  have waited : (s.1.withNmi prev pending).ucycs.Drained := boundary.drained
  obtain ⟨exit, cpu', r', step', outcome⟩ := step_drained (v := v) waited prof lines s.2
  cases step.symm.trans step'
  cases outcome with
  | interrupt _ inst =>
      have inst : s.1.currentInst = some _ := inst
      simp [inst]

theorem irq_begins {i : Instruction} (prof : Profile) (boundary : t.1.AtBoundary v)
    (inst : t.1.currentInst = some i)
    (calm : t.1.pendingNmi = false) (unmasked : t.1.irqDisable = false) :
    ∃ w, t.1.step v.flavor prof { Lines.none with irq := true } t.2 = .ok (.interrupt .irq, w) := by
  obtain ⟨exit, cpu', r', step, outcome⟩ :=
    step_drained (v := v) boundary.drained prof { Lines.none with irq := true } t.2
  have sampled : (t.1.sampleNmi { Lines.none with irq := true }).pendingNmi = false := by
    simp [sampleNmi, Lines.none, calm]
  cases outcome with
  | stalled stalls => simp [Cpu6502.stalls, Lines.none] at stalls
  | ucyc _ _ live | last _ _ live => cases live.symm.trans boundary.drained.live_eq
  | extraCycle _ inst _ due => cases due.symm.trans (boundary.ended inst)
  | interrupt _ _ _ _ request =>
      rcases request with ⟨-, nmi⟩ | ⟨rfl, -⟩
      · cases nmi.symm.trans sampled
      · exact ⟨_, step⟩
  | fetch _ _ _ _ _ masked =>
      rcases masked with low | disabled
      · cases low
      · cases disabled.symm.trans unmasked
  | first _ none => cases inst.symm.trans none

theorem enters_status (enters : (s.1.arch s.2.bus.ram).Enters start q status vector)
    (boundary : s.1.AtBoundary v) (carries : Carries v prof start s t) :
    t.1.p = handlerStatus v.flavor s.1.p :=
  congrArg Arch.p (enters_carries enters boundary rfl carries)

theorem enters_code (enters : (s.1.arch s.2.bus.ram).Enters start q status vector)
    (boundary : s.1.AtBoundary v) (carries : Carries v prof start s t) :
    code t = ((s.1.arch s.2.bus.ram).entered q status vector).opcode := by
  have eq := enters_carries enters boundary rfl carries
  have pc : t.1.pc = _ := congrArg Arch.pc eq
  have ram : t.2.bus.ram = _ := congrArg Arch.ram eq
  rw [code, ram, pc, Arch.opcode]

theorem stale_of_unmasked (enters : (s.1.arch s.2.bus.ram).Enters start q status vector)
    (boundary : s.1.AtBoundary v) (carries : Carries v prof start s t) (rti : code t = 0x40)
    (calm : t.1.pendingNmi = false) (unmasked : t.1.irqDisable = false) : Stale s := by
  obtain ⟨-, oldI, pending⟩ := enters_ended enters boundary rfl carries
  have status := enters_status enters boundary carries
  have old : t.1.oldI = some false := by
    rw [irqDisable, status, (handlerStatus_flags v s.1.p).1] at unmasked
    cases held : t.1.oldI with
    | none => simp [held] at unmasked
    | some i => simpa [held] using unmasked
  have fresh : s.1.currentInst = none := by
    by_contra ran
    rw [if_neg ran] at oldI
    cases oldI.symm.trans old
  rw [if_pos fresh] at oldI
  have opcode := enters_code enters boundary carries
  cases enters with
  | brk brk =>
      have calm' : s.1.pendingNmi = false := Bool.eq_false_iff.2 fun nmi => by
        cases (pending rfl nmi).symm.trans calm
      exact ⟨fresh, oldI.symm.trans old, calm', brk, opcode.symm.trans rti⟩
  | irq | nmi => exact absurd fresh (interrupt_inst boundary carries)

theorem entryReturns (enters : (s.1.arch s.2.bus.ram).Enters start q status vector)
    (boundary : s.1.AtBoundary v) (user : flagSet s.1.p Psr.U6502 = true)
    (brk : flagSet s.1.p Psr.B6502 = false) (clean : ¬ Stale s) :
    EntryReturns v prof s start q vector := by
  have atRti {t : Cpu6502 × Recorder SimpleBus} (rti : code t = 0x40) :
      v.decode (code t) = ⟨.rti, .jump .fromInterrupt, .read⟩ := by rw [rti, decode_rti]
  constructor
  · rintro ⟨lines, u, step, calm⟩
    obtain ⟨n, e, course, -⟩ := enters_course enters boundary rfl step
    obtain ⟨t, carries, pending⟩ := course.carries step (enters_starts enters) (never_due_brk v)
    refine ⟨t, carries, fun rti => ?_⟩
    have begins' : Begins v prof .opcodeFetch t := .of_calm prof carries.boundary (pending.trans calm)
    obtain ⟨u, carries', -⟩ :=
      jump_arrives carries.boundary (atRti rti) rfl (by decide) (by decide) begins'
    exact ⟨u, carries'⟩
  · intro t carries
    obtain ⟨high, next⟩ := enters_vector enters
    have eq := enters_carries enters boundary rfl carries
    have pc : t.1.pc = ((s.1.arch s.2.bus.ram).entered q status vector).pc := congrArg Arch.pc eq
    rw [enters_status enters boundary carries, pc, Arch.entered_pc _ q status high next]
    exact ⟨(handlerStatus_flags v s.1.p).1, (handlerStatus_flags v s.1.p).2, rfl⟩
  · intro t next u carries rti carries' other
    rcases handler_begins carries.boundary carries' other with rfl | ⟨calm, unmasked⟩
    · have eq := enters_carries enters boundary rfl carries
      have returned := jump_carries carries.boundary (atRti rti) rfl (by decide) (by decide) carries'
      rw [eq] at returned
      obtain ⟨pc, sp, p⟩ := Arch.rti_entered (s.1.arch s.2.bus.ram) q status vector
        (handlerStatus v.flavor s.1.p)
      rw [enters_pulled enters user brk] at p
      exact ⟨rfl, (congrArg Arch.pc returned).trans pc, (congrArg Arch.s returned).trans sp,
        (congrArg Arch.p returned).trans p⟩
    · exact absurd (stale_of_unmasked enters boundary carries rti calm unmasked) clean

theorem Stale.not_returns (stale : Stale s) (boundary : s.1.AtBoundary v) :
    ¬ ReturnsExactly v prof s := by
  intro returns
  have enters := Arch.Enters.brk (a := s.1.arch s.2.bus.ram) stale.brk
  obtain ⟨lines, u, step, calm⟩ := Begins.of_calm prof boundary stale.calm
  obtain ⟨n, e, course, -⟩ := enters_course enters boundary rfl step
  obtain ⟨t, carries, pending⟩ := course.carries step rfl (never_due_brk v)
  obtain ⟨⟨e, ended, -⟩, old, -⟩ := enters_ended enters boundary rfl carries
  rw [if_pos stale.fresh, stale.old] at old
  have rti : code t = 0x40 := (enters_code enters boundary carries).trans stale.rti
  have unmasked : t.1.irqDisable = false := by rw [irqDisable, old, Option.getD_some]
  obtain ⟨w, asked⟩ := irq_begins prof carries.boundary ended.inst (pending.trans calm) unmasked
  obtain ⟨e', course', -⟩ := interrupt_course carries.boundary rfl asked
  obtain ⟨x, carries', -⟩ := course'.carries asked rfl (never_due_brk v)
  have fetched := ((returns.entry enters).returns t _ x carries rti carries' (by decide)).1
  cases fetched

/-- Calls and interrupts undo exactly, unless an I flag from before a reset lets an IRQ in. -/
theorem returns_exactly_iff (boundary : s.1.AtBoundary v) (user : flagSet s.1.p Psr.U6502 = true)
    (brk : flagSet s.1.p Psr.B6502 = false) : ReturnsExactly v prof s ↔ ¬ Stale s :=
  ⟨fun returns stale => stale.not_returns boundary returns, fun clean =>
    ⟨callReturns boundary, fun enters => entryReturns enters boundary user brk clean⟩⟩

end

theorem new_boundary (v : Variant) : new.AtBoundary v where
  drained := UcycQueue.default_drained
  ended none := by cases none

def returnRam (op : U8) : U16 → U8 := fun addr =>
  -- NOP and the given opcode, RTS at $0300, and RTI at the handler of BRK and IRQ.
  if addr = 0 then 0xEA else if addr = 1 then op else if addr = 3 then 0x03
  else if addr = 0x0300 then 0x60 else if addr = 0xFFFF then 0x04 else if addr = 0x0400 then 0x40 else 0

def afterNop (op : U8) : Cpu6502 × Recorder SimpleBus :=
  -- The core behind the NOP, with D set and S at the bottom of the stack.
  follow (busCycle .wdc65C02 .debug) ({ new with s := 0, p := 0x28 }, ⟨⟨returnRam op⟩, []⟩)
    (fun _ => Lines.none) 2

set_option maxRecDepth 20000 in
theorem returns_exactly_iff_nop :
    (∃ t u, Carries .wdc65C02 .debug .opcodeFetch (afterNop 0x20) t ∧
      Carries .wdc65C02 .debug .opcodeFetch t u ∧ u.1.pc = 4 ∧ u.1.s = 0) ∧
    ∀ entry ∈ [(StepExit.opcodeFetch, (3 : U16)), (.interrupt .irq, 1)],
      ∃ t u, Carries .wdc65C02 .debug entry.1 (afterNop 0) t ∧ Carries .wdc65C02 .debug .opcodeFetch t u ∧
        t.1.pc = 0x0400 ∧ t.1.p = 0x24 ∧ u.1.pc = entry.2 ∧ u.1.s = 0 ∧ u.1.p = 0x28 := by
  have ended : ∀ op ∈ [(0x20 : U8), 0], (afterNop op).1.ucycs.head = 0 ∧ (afterNop op).1.ucycs.len = 0 ∧
      (afterNop op).1.currentInst = some (Variant.decode .wdc65C02 0xEA) ∧
      flagSet (afterNop op).1.p Psr.U6502 = true ∧ flagSet (afterNop op).1.p Psr.B6502 = false := by
    simp only [List.forall_mem_cons]
    exact ⟨by decide +kernel, by decide +kernel, fun _ mem => absurd mem List.not_mem_nil⟩
  have there {op : U8} (mem : op ∈ [(0x20 : U8), 0]) : (afterNop op).1.AtBoundary .wdc65C02 :=
    .of_inst ⟨(ended op mem).1, (ended op mem).2.1⟩ (ended op mem).2.2.1 rfl
  have returns {op : U8} (mem : op ∈ [(0x20 : U8), 0]) : ReturnsExactly .wdc65C02 .debug (afterNop op) := by
    obtain ⟨-, -, inst, user, brk⟩ := ended op mem
    refine (returns_exactly_iff (there mem) user brk).2 fun stale => ?_
    cases inst.symm.trans stale.fresh
  constructor
  · have call := (returns (.head _)).call rfl
    obtain ⟨t, carries, next⟩ := call.arrives (.of_calm .debug (there (.head _)) rfl)
    have called := @jump_carries .wdc65C02 .debug (afterNop 0x20) t .jsr .toSubroutine (there (.head _))
      rfl rfl (by decide) (by decide) carries
    have pc : t.1.pc = 0x0300 := congrArg Arch.pc called
    have ram : t.2.bus.ram 0x0300 = 0x60 := congrFun (congrArg Arch.ram called) _
    have rts : code t = 0x60 := by rw [code, pc, ram]
    obtain ⟨u, carries'⟩ := next rts
    exact ⟨t, u, carries, carries', call.returns t u carries rts carries'⟩
  · rintro ⟨start, q⟩ mem
    obtain ⟨status, enters, begins, rti⟩ : ∃ status,
        ((afterNop 0).1.arch (afterNop 0).2.bus.ram).Enters start q status 0xFFFE ∧
        Begins .wdc65C02 .debug start (afterNop 0) ∧
        (((afterNop 0).1.arch (afterNop 0).2.bus.ram).entered q status 0xFFFE).opcode = 0x40 := by
      simp only [List.mem_cons, Prod.mk.injEq, List.not_mem_nil, or_false] at mem
      rcases mem with ⟨rfl, rfl⟩ | ⟨rfl, rfl⟩
      · exact ⟨_, .brk rfl, .of_calm .debug (there (.tail _ (.head _))) rfl, by decide⟩
      · exact ⟨_, .irq, ⟨{ Lines.none with irq := true }, _, rfl, rfl⟩, by decide⟩
    have entry := (returns (.tail _ (.head _))).entry enters
    obtain ⟨t, carries, next⟩ := entry.arrives begins
    have code : code t = 0x40 := (enters_code enters (there (.tail _ (.head _))) carries).trans rti
    obtain ⟨u, carries'⟩ := next code
    obtain ⟨-, pc, sp, p⟩ := entry.returns t _ u carries code carries' (by decide)
    exact ⟨t, u, carries, carries', (entry.handler t carries).2.2, enters_status enters (there (.tail _ (.head _))) carries,
      pc, sp, p⟩

def cliRam : U16 → U8 := fun addr =>
  -- CLI twice, BRK at $0000 and RTI at its handler.
  if addr = 0xFFFF then 0x03 else if addr = 0x0300 then 0x40 else 0

/-- A reset after the second CLI. -/
def cliCalls : Nat → Call SimpleBus
  | 4 => .reset ⟨cliRam⟩
  | _ => .step Lines.none ⟨fun _ => 0x58⟩

set_option maxRecDepth 20000 in
/-- After the reset the I flag from before the second CLI lets an IRQ in between BRK and RTI. -/
theorem reset_lets_irq_in : ¬ ∀ v prof (s : Cpu6502 × Recorder SimpleBus),
    s.1.Reachable SimpleBus v prof → s.1.AtBoundary v → flagSet s.1.p Psr.U6502 = true →
    flagSet s.1.p Psr.B6502 = false → ReturnsExactly v prof s := by
  intro all
  let cpu := follow (call (β := SimpleBus) .nmos6502 .release) new cliCalls 5
  have fresh : cpu.currentInst = none := rfl
  have boundary : cpu.AtBoundary .nmos6502 :=
    ⟨UcycQueue.clear_drained _, fun inst => by cases fresh.symm.trans inst⟩
  have stale : Stale (cpu, ⟨⟨cliRam⟩, []⟩) := ⟨fresh, by decide, by decide, by decide, by decide⟩
  exact stale.not_returns boundary (all .nmos6502 .release _ (follow_reaches new cliCalls 5) boundary
    (by decide) (by decide))

end Cpu6502

end Rs65x
