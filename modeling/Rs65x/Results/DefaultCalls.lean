import Rs65x.Proof.Returns

/-!
# The calls of the trait

The 65816 is to share the default JSR and RTS, which no core of the crate uses.
-/

namespace Rs65x
open Fallible Machine Words Worklist

def MicroOp.plain (u : MicroOp) : Bool :=
  u.supported && match u.alu with
    | .none | .incLatch _ | .decSp | .swapEaPc => true
    | _ => false

theorem MicroOp.fits_of_plain {u : MicroOp} (plain : u.plain) (rest : List MicroOp) : u.fits rest := by
  simp only [MicroOp.plain, Bool.and_eq_true] at plain
  obtain ⟨supported, alu⟩ := plain
  rw [fits, supported]
  cases h : u.alu <;> rw [h] at alu <;> first | rfl | cases alu

theorem MicroOp.fixes_of_plain {u : MicroOp} (plain : u.plain) : u.alu.fixesPtr = false := by
  simp only [MicroOp.plain, Bool.and_eq_true] at plain
  obtain ⟨-, alu⟩ := plain
  cases h : u.alu <;> rw [h] at alu <;> first | rfl | cases alu

theorem Exec.next_plain {β : Type} [Bus β] (F : Flavor) (e : Exec β) {u : MicroOp} (plain : u.plain)
    (rest : List MicroOp) : (e.next F u rest).2 = rest := by
  simp only [MicroOp.plain, Bool.and_eq_true] at plain
  obtain ⟨-, alu⟩ := plain
  rw [next, turn.eq_def]
  cases h : u.alu <;> rw [h] at alu <;> first | rfl | cases alu

namespace Cpu6502

/-- A core of any flavor is about to fetch an opcode. -/
structure Ready (F : Flavor) (cpu : Cpu6502) : Prop where
  drained : cpu.ucycs.Drained
  ended : ∀ {i}, cpu.currentInst = some i → cpu.extraCycleDue F i = false
  calm : cpu.pendingNmi = false

def flavorCycle (F : Flavor) (prof : Profile) (s : Cpu6502 × Recorder SimpleBus) (lines : Lines) :
    Except Fault (StepExit × (Cpu6502 × Recorder SimpleBus)) :=
  s.1.step F prof lines s.2

def CarriesOut (F : Flavor) (prof : Profile) (s t : Cpu6502 × Recorder SimpleBus) : Prop :=
  ∃ cycles exits, run (flavorCycle F prof) s cycles = .ok (.opcodeFetch :: exits, t) ∧
    (∀ exit ∈ exits, exit = .ucyc) ∧ t.1.ucycs.Drained

variable {F : Flavor} {prof : Profile} {cpu : Cpu6502} {r : Recorder SimpleBus} {a : Arch}
  {i : Instruction} {us : List MicroOp}

structure Working (cpu : Cpu6502) (i : Instruction) (e : Exec (Recorder SimpleBus)) (us : List MicroOp) :
    Prop where
  executing : cpu.Executing i e
  wf : cpu.ucycs.Wf
  live : cpu.ucycs.live = us
  calm : cpu.pendingNmi = false

theorem fetchInstruction_emits (drained : cpu.ucycs.Drained) (calm : cpu.pendingNmi = false)
    (start : cpu.arch r.bus.ram = a) (decoded : Instruction.fromByte a.opcode F.opcodeTable = i)
    (emits : i.addressMode.emitUcycs prof F.micro (decodeContext F i.memoryAction a.opcode) = .ok us)
    (few : us.length ≤ maxUcyc) :
    ∃ c, cpu.fetchInstruction F prof r = .ok (c, ⟨r.bus, r.log ++ [a.opcodeRead]⟩) ∧
      c.Working i (a.opening i a.opcode (r.log ++ [a.opcodeRead])).exec us := by
  subst start
  obtain ⟨q, pushes, wf, live⟩ := drained.pushAll few
  have read : Bus.read r (cpu.pc.setWidth 32) false true =
      ((cpu.arch r.bus.ram).opcode, ⟨r.bus, r.log ++ [(cpu.arch r.bus.ram).opcodeRead]⟩) :=
    Exec.bus_read r cpu.pc false true
  let scratch : MicroExecutor := { MicroExecutor.new with memoryAction := i.memoryAction }
  let c : Cpu6502 := { cpu with
    pc := cpu.pc + 1, currentOpcode := (cpu.arch r.bus.ram).opcode, currentInst := some i, scratch, ucycs := q }
  refine ⟨c, ?_, ⟨rfl, ?_⟩, wf, live, calm⟩
  · simp only [fetchInstruction, fetchOpcode, read, prepareInstruction, decoded]
    rw [emits, ok_bind, pushes]
    rfl
  · rfl

theorem Ready.step (ready : cpu.Ready F) (start : cpu.arch r.bus.ram = a)
    (decoded : Instruction.fromByte a.opcode F.opcodeTable = i)
    (emits : i.addressMode.emitUcycs prof F.micro (decodeContext F i.memoryAction a.opcode) = .ok us)
    (few : us.length ≤ maxUcyc) :
    ∃ c, cpu.step F prof Lines.none r = .ok (.opcodeFetch, c, ⟨r.bus, r.log ++ [a.opcodeRead]⟩) ∧
      c.Working i (a.opening i a.opcode (r.log ++ [a.opcodeRead])).exec us := by
  have calm : (cpu.sampleNmi Lines.none).pendingNmi = false := by
    simp [sampleNmi, Lines.none, ready.calm]
  replace start : (cpu.sampleNmi Lines.none).arch r.bus.ram = a := start
  replace ready : (cpu.sampleNmi Lines.none).Ready F := ⟨ready.drained, ready.ended, calm⟩
  simp only [Cpu6502.step]
  generalize cpu.sampleNmi Lines.none = cpu at start ready
  have awake : ¬ (!Lines.none.rdy && cpu.nextCycleRead) = true := by simp [Lines.none]
  rw [if_neg awake]
  cases inst : cpu.currentInst with
  | none =>
      obtain ⟨c, fetch, working⟩ :=
        fetchInstruction_emits ready.drained ready.calm start decoded emits few
      exact ⟨c, by simp only [fetch]; rfl, working⟩
  | some last =>
      have settled : cpu.settled.ucycs.Drained := ready.drained
      obtain ⟨c, fetch, working⟩ :=
        fetchInstruction_emits settled ready.calm start decoded emits few
      have ended : ¬ cpu.extraCycleDue F last = true := by simp [ready.ended inst]
      have calm : ¬ cpu.pendingNmi = true := by simp [ready.calm]
      have boundary : cpu.boundary F prof last Lines.none r =
          if cpu.pendingNmi then
            { cpu.settled with pendingNmi := false }.startInterrupt F prof r .nmi >>=
              fun r => .ok (.interrupt .nmi, r)
          else cpu.settled.fetchInstruction F prof r >>= fun r => .ok (.opcodeFetch, r) :=
        if_neg ended
      refine ⟨c, ?_, working⟩
      simp only [Exec.executeNext, UcycQueue.pop_nil ready.drained.live_eq]
      refine (boundary.trans (if_neg calm)).trans ?_
      rw [fetch]
      rfl

theorem Working.step {e e' : Exec (Recorder SimpleBus)} {u : MicroOp} (plain : u.plain)
    (idle : ∀ c : Cpu6502, c.finishInstruction F prof i = .ok c) (working : cpu.Working i e (u :: us))
    (next : e.next F u us = (e', us)) :
    ∃ c, c.Working i e' us ∧ flavorCycle F prof (cpu, e.bus) Lines.none = .ok (.ucyc, c, e'.bus) := by
  have inst := working.executing.inst
  have awake : (cpu.sampleNmi Lines.none).stalls Lines.none = false := by
    simp [stalls, Lines.none]
  have fits : u.fits us := u.fits_of_plain plain us
  have small : Exec.PtrFits prof e u := .inr (Exec.fits (u.fixes_of_plain plain))
  obtain ⟨q₁, q, pop, run, wf, live⟩ :=
    Exec.execUcyc_next F working.wf working.live fits small
  rw [next] at run live
  have step : cpu.step F prof Lines.none e.bus = _ := step_pops inst awake pop
  rw [working.executing.exec, run] at step
  refine ⟨(cpu.sampleNmi Lines.none).restore e' q, ⟨working.executing.restore next Lines.none q, wf, live, ?_⟩, ?_⟩
  · simp [restore, sampleNmi, Lines.none, working.calm]
  · refine step.trans ?_
    simp only [ok_bind]
    split
    · rw [idle]
      rfl
    · rfl

theorem Working.run {e e' : Exec (Recorder SimpleBus)} {n : Nat} (plain : ∀ u ∈ us, u.plain)
    (idle : ∀ c : Cpu6502, c.finishInstruction F prof i = .ok c) (working : cpu.Working i e us)
    (turns : Exec.Turns F e us n e' []) :
    ∃ c, c.Working i e' [] ∧ Machine.run (flavorCycle F prof) (cpu, e.bus) (List.replicate n Lines.none) =
      .ok (List.replicate n .ucyc, (c, e'.bus)) := by
  induction us generalizing cpu e n with
  | nil =>
      obtain ⟨rfl, rfl⟩ := turns.cases_nil
      exact ⟨cpu, working, rfl⟩
  | cons u us ih =>
      rw [List.forall_mem_cons] at plain
      obtain ⟨-, m, rfl, after⟩ := turns.cases_cons
      have kept := e.next_plain F plain.1 us
      obtain ⟨c, working', first⟩ := working.step plain.1 idle (Prod.ext rfl kept)
      rw [kept] at after
      obtain ⟨c', working'', rest⟩ := ih plain.2 working' after
      refine ⟨c', working'', ?_⟩
      rw [List.replicate_succ, run_cons _ first, rest]
      rfl

theorem Ready.carriesOut {s : Cpu6502 × Recorder SimpleBus} (ready : s.1.Ready F)
    (start : s.1.arch s.2.bus.ram = a) (decoded : Instruction.fromByte a.opcode F.opcodeTable = i)
    (emits : i.addressMode.emitUcycs prof F.micro (decodeContext F i.memoryAction a.opcode) = .ok us)
    (few : us.length ≤ maxUcyc) (plain : ∀ u ∈ us, u.plain)
    (idle : ∀ c : Cpu6502, c.finishInstruction F prof i = .ok c)
    (other : i.mnemonic ≠ .adc ∧ i.mnemonic ≠ .sbc) {n : Nat} {e : Exec (Recorder SimpleBus)}
    (turns : Exec.Turns F (a.opening i a.opcode (s.2.log ++ [a.opcodeRead])).exec us n e []) :
    ∃ t, CarriesOut F prof s t ∧ t.1.Ready F ∧ t.1.arch t.2.bus.ram = e.arch := by
  obtain ⟨c, fetch, working⟩ := ready.step start decoded emits few
  obtain ⟨c', working', ran⟩ := working.run plain idle turns
  have drained : c'.ucycs.Drained := working'.wf.live_eq_nil.1 working'.live
  have bus : (a.opening i a.opcode (s.2.log ++ [a.opcodeRead])).exec.bus =
      ⟨s.2.bus, s.2.log ++ [a.opcodeRead]⟩ := by
    rw [← start]
    rfl
  rw [bus] at ran
  refine ⟨(c', e.bus), ⟨Lines.none :: List.replicate n Lines.none, List.replicate n .ucyc, ?_, ?_, drained⟩,
    ⟨drained, fun inst => ?_, working'.calm⟩, working'.executing.arch _⟩
  · have first : flavorCycle F prof s Lines.none = _ := fetch
    rw [run_cons _ first, ran]
    rfl
  · exact fun exit mem => List.eq_of_mem_replicate mem
  · cases working'.executing.inst.symm.trans inst
    exact never_due F other c'

end Cpu6502

/-! ## JSR and RTS -/

/-- The calls of the trait, which the cores override. -/
structure Flavor.DefaultCalls (F : Flavor) : Prop where
  jsr : F.micro.emitJsr = ({} : MicroCode).emitJsr
  rts : F.micro.emitRts = ({} : MicroCode).emitRts

def Flavor.eightBit (F : Flavor) : Flavor :=
  { F with micro := { F.micro with emitJsr := emitJsr8bit, emitRts := emitRts8bit } }

namespace Arch

def called (a : Arch) : Arch :=
  { (a.push (hiByte (a.pc + 2))).push (loByte (a.pc + 2)) with pc := word a.ram (a.pc + 1) }

def returned (a : Arch) : Arch := { a.drop.drop.drop with pc := fromLeBytes a.top a.drop.top }

def PushesApart (a : Arch) : Prop :=
  ∀ operand ∈ [a.pc + 1, a.pc + 2], stackAddr a.s ≠ operand ∧ stackAddr (a.s - 1) ≠ operand

variable {a : Arch}

theorem called_eq (apart : a.PushesApart) :
    a.called = a.perform ⟨.jsr, .jump .toSubroutine, .read⟩ := by
  obtain ⟨first, second⟩ := apart (a.pc + 2) (by simp)
  have kept : ((a.push (hiByte (a.pc + 2))).push (loByte (a.pc + 2))).ram (a.pc + 2) = a.ram (a.pc + 2) := by
    simp only [push, Function.update_of_ne first.symm, Function.update_of_ne second.symm]
  have following : a.pc + 1 + 1 = a.pc + 2 := by rw [BitVec.add_assoc]; rfl
  simp only [perform, kept, called, word, operand, following]

theorem called_returned (a : Arch) : a.called.returned.pc = a.pc + 2 ∧ a.called.returned.s = a.s + 1 := by
  obtain ⟨first, -, -⟩ := step_back a.s
  simp only [called, returned, top, drop, push, sub_add_cancel, Function.update_apply, stackAddr_inj,
    if_neg first, if_true, fromLeBytes_halves, and_self]

end Arch

namespace Exec
variable (F : Flavor) (a : Arch) (op : U8) (log : List Access)

theorem turns_defaultJsr : ∃ e, Exec.Turns F
    (a.opening ⟨.jsr, .jump .toSubroutine, .read⟩ op log).exec
    [.read .pc .eaLo true, .read .pc .eaHi false, ⟨⟨.pc, false, false, true⟩, false, .none, .swapEaPc⟩,
      .push .eaHi, .push .eaLo] 5 e [] ∧ e.arch = a.called := by
  have swap (m : Narrow) (rest : List MicroOp) :
      m.exec.next F ⟨⟨.pc, false, false, true⟩, false, .none, .swapEaPc⟩ rest =
        ((m.after .pc .none false false false).swap.exec, rest) := by
    rw [m.next_access F rest rfl rfl rfl rfl rfl, Narrow.turn_swap _ _ _ rfl]
  refine ⟨_, .step (fits rfl) (Narrow.next_read _ _ _ rfl rfl rfl)
    (.step (fits rfl) (Narrow.next_read _ _ _ rfl rfl rfl)
    (.step (fits rfl) (swap _ _)
    (.step (fits rfl) (Narrow.next_push _ _ _ ⟨rfl, rfl⟩ (by decide))
    (.single (fits rfl) (Narrow.next_push _ _ _ ⟨rfl, rfl⟩ (by decide)))))), ?_⟩
  have lo (w : U16) : (w.setWidth 32 : U32).setWidth 8 = loByte w := by
    rw [← loByte_setWidth]
    simp
  have hi (w : U16) : ((w.setWidth 32 : U32) >>> 8).setWidth 8 = hiByte w := by
    rw [← hiByte_setWidth]
    simp
  simp [arch, Narrow.exec, Narrow.swap, Narrow.after, Narrow.bump, Narrow.load, Narrow.put,
    Narrow.reading, Narrow.addr, Narrow.pushing, Arch.opening, Arch.ctx, BitVec.add_assoc,
    MicroExecutor.readLatch, lo, hi, Arch.called, Arch.push, Arch.word]

theorem turns_defaultRts : ∃ e, Exec.Turns F
    (a.opening ⟨.rts, .jump .fromSubroutine, .read⟩ op log).exec
    [.dummyRead .pc, ⟨⟨.pc, false, false, true⟩, false, .none, .incLatch .sp⟩, .read .sp .pcLo true,
      .read .sp .pcHi true, .dummyRead .sp] 5 e [] ∧ e.arch = a.returned := by
  have inc (m : Narrow) (rest : List MicroOp) :
      m.exec.next F ⟨⟨.pc, false, false, true⟩, false, .none, .incLatch .sp⟩ rest =
        (((m.after .pc .none false false false).bump .sp).exec, rest) := by
    rw [m.next_access F rest rfl rfl rfl rfl rfl]
    rfl
  refine ⟨_, .step (fits rfl) (Narrow.next_access _ _ _ rfl rfl rfl rfl rfl)
    (.step (fits rfl) (inc _ _)
    (.step (fits rfl) (Narrow.next_read _ _ _ rfl rfl rfl)
    (.step (fits rfl) (Narrow.next_read _ _ _ rfl rfl rfl)
    (.single (fits rfl) (Narrow.next_access _ _ _ rfl rfl rfl rfl rfl))))), ?_⟩
  simp [arch, Narrow.exec, Narrow.after, Narrow.bump, Narrow.load, Narrow.put, Narrow.reading,
    Narrow.addr, Arch.opening, Arch.ctx, MicroOp.dummyRead, Arch.drop, Arch.top, Arch.returned]

end Exec

namespace Cpu6502
variable {F : Flavor} {prof : Profile} {s t : Cpu6502 × Recorder SimpleBus} {a : Arch}

/-- What a call and a return behind it are to do in a core, and as in an 8-bit core. -/
structure CallPair (F : Flavor) (prof : Profile) (s : Cpu6502 × Recorder SimpleBus) : Prop where
  calls : ∀ t, CarriesOut F prof s t →
    t.1.pc = Arch.word s.2.bus.ram (s.1.pc + 1) ∧ t.1.s = s.1.s - 2
  returns : ∀ t u, CarriesOut F prof s t → CarriesOut F prof t u →
    u.1.pc = s.1.pc + 3 ∧ u.1.s = s.1.s
  alike : ∀ t t' u u', CarriesOut F prof s t → CarriesOut F.eightBit prof s t' →
    CarriesOut F prof t u → CarriesOut F.eightBit prof t' u' →
    t'.1.arch t'.2.bus.ram = t.1.arch t.2.bus.ram ∧ u'.1.arch u'.2.bus.ram = u.1.arch u.2.bus.ram

theorem jump_idle (F : Flavor) (prof : Profile) {op : Mnemonic} (idle : op.isIdle) (type : JumpType)
    (c : Cpu6502) : c.finishInstruction F prof ⟨op, .jump type, .read⟩ = .ok c := by
  rw [finishInstruction_eq, if_pos rfl, finishRead_idle F prof c idle]
  rfl

set_option maxRecDepth 20000 in
theorem decodes_jsr (table : OpcodeTable) :
    Instruction.fromByte 0x20 table = ⟨.jsr, .jump .toSubroutine, .read⟩ :=
  (OpcodeTable.decode_documented (by decide) _ .nmos).trans (by decide)

set_option maxRecDepth 20000 in
theorem decodes_rts (table : OpcodeTable) :
    Instruction.fromByte 0x60 table = ⟨.rts, .jump .fromSubroutine, .read⟩ :=
  (OpcodeTable.decode_documented (by decide) _ .nmos).trans (by decide)

theorem Ready.calls (defaults : F.DefaultCalls) (ready : s.1.Ready F) (start : s.1.arch s.2.bus.ram = a)
    (jsr : a.opcode = 0x20) (prof : Profile) :
    ∃ t, CarriesOut F prof s t ∧ t.1.Ready F ∧ t.1.arch t.2.bus.ram = a.called := by
  obtain ⟨e, turns, arch⟩ := Exec.turns_defaultJsr F a a.opcode (s.2.log ++ [a.opcodeRead])
  have decoded : Instruction.fromByte a.opcode F.opcodeTable = ⟨.jsr, .jump .toSubroutine, .read⟩ := by
    rw [jsr, decodes_jsr]
  have emits := congrFun defaults.jsr (decodeContext F .read a.opcode)
  rw [← arch]
  exact ready.carriesOut start decoded emits (by decide) (by decide) (jump_idle F prof rfl _)
    (by decide) turns

theorem Ready.returns (defaults : F.DefaultCalls) (ready : s.1.Ready F) (start : s.1.arch s.2.bus.ram = a)
    (rts : a.opcode = 0x60) (prof : Profile) :
    ∃ t, CarriesOut F prof s t ∧ t.1.Ready F ∧ t.1.arch t.2.bus.ram = a.returned := by
  obtain ⟨e, turns, arch⟩ := Exec.turns_defaultRts F a a.opcode (s.2.log ++ [a.opcodeRead])
  have decoded : Instruction.fromByte a.opcode F.opcodeTable = ⟨.rts, .jump .fromSubroutine, .read⟩ := by
    rw [rts, decodes_rts]
  have emits := congrFun defaults.rts (decodeContext F .read a.opcode)
  rw [← arch]
  exact ready.carriesOut start decoded emits (by decide) (by decide) (jump_idle F prof rfl _)
    (by decide) turns

theorem Ready.pair (defaults : F.DefaultCalls) (ready : s.1.Ready F) (start : s.1.arch s.2.bus.ram = a)
    (jsr : a.opcode = 0x20) (rts : a.called.opcode = 0x60) (prof : Profile) :
    ∃ t u, CarriesOut F prof s t ∧ t.1.arch t.2.bus.ram = a.called ∧ CarriesOut F prof t u ∧
      u.1.pc = s.1.pc + 2 ∧ u.1.s = s.1.s + 1 := by
  obtain ⟨t, call, ready', called⟩ := ready.calls defaults start jsr prof
  obtain ⟨u, ret, -, returned⟩ := ready'.returns defaults called rts prof
  obtain ⟨pc, sp⟩ := a.called_returned
  rw [← returned] at pc sp
  subst start
  exact ⟨t, u, call, called, ret, pc, sp⟩

/-- The default RTS never returns behind the default JSR, which itself does what it should. -/
theorem default_pair_never (defaults : F.DefaultCalls) (ready : s.1.Ready F)
    (start : s.1.arch s.2.bus.ram = a) (jsr : a.opcode = 0x20) (apart : a.PushesApart)
    (rts : a.called.opcode = 0x60) (prof : Profile) :
    (∃ t u, CarriesOut F prof s t ∧
      t.1.arch t.2.bus.ram = a.perform ⟨.jsr, .jump .toSubroutine, .read⟩ ∧
      CarriesOut F prof t u ∧ u.1.pc = s.1.pc + 2 ∧ u.1.s = s.1.s + 1) ∧
    ¬ CallPair F prof s := by
  obtain ⟨t, u, call, called, ret, pc, sp⟩ := ready.pair defaults start jsr rts prof
  refine ⟨⟨t, u, call, called.trans (Arch.called_eq apart), ret, pc, sp⟩, fun pair => ?_⟩
  have same : s.1.s + 1 = s.1.s := sp.symm.trans (pair.returns t u call ret).2
  exact absurd same (by bv_omega)

def traitCalls : Flavor :=
  -- An NMOS core with the calls of the trait.
  { Variant.flavor .nmos6502 with
    micro := { micro6502 with emitJsr := MicroCode.emitJsr {}, emitRts := MicroCode.emitRts {} } }

def callStart : Cpu6502 × Recorder SimpleBus :=
  -- JSR $0300 at $0200, and RTS at $0300.
  ({ new with pc := 0x0200 }, ⟨⟨fun addr =>
    if addr = 0x0200 then 0x20 else if addr = 0x0202 then 0x03 else if addr = 0x0300 then 0x60 else 0⟩, []⟩)

theorem callStart_ready : callStart.1.Ready traitCalls :=
  ⟨UcycQueue.default_drained, (fun inst => by cases inst), rfl⟩

theorem default_pair_never_nmos : ∃ t u, CarriesOut traitCalls .debug callStart t ∧
    CarriesOut traitCalls .debug t u ∧ u.1.pc = 0x0202 ∧ u.1.s = 0xFE := by
  have apart : (callStart.1.arch callStart.2.bus.ram).PushesApart := by
    intro operand mem
    change (0x01FD : U16) ≠ operand ∧ (0x01FC : U16) ≠ operand
    have addrs : operand ∈ [(0x0201 : U16), 0x0202] := mem
    simp only [List.mem_cons, List.not_mem_nil, or_false] at addrs
    obtain rfl | rfl := addrs <;> exact ⟨by decide, by decide⟩
  obtain ⟨⟨t, u, call, -, ret, pc, sp⟩, -⟩ :=
    default_pair_never ⟨rfl, rfl⟩ callStart_ready rfl rfl apart rfl .debug
  exact ⟨t, u, call, ret, pc, sp⟩

/-- RTS returns to $0202. -/
theorem default_return_short : ¬ CallPair traitCalls .debug callStart := by
  intro pair
  obtain ⟨t, u, call, -, ret, pc, -⟩ := callStart_ready.pair ⟨rfl, rfl⟩ rfl rfl rfl .debug
  have short : (0x0202 : U16) = 0x0203 := pc.symm.trans (pair.returns t u call ret).1
  exact absurd short (by decide)

end Cpu6502

end Rs65x
