import Rs65x.Proof.Carries

/-!
# Calls, interrupts and returns in the programmer's model
-/

namespace Rs65x
open Fallible Machine Words Worklist

namespace Arch

theorem stackAddr_inj {sp sp' : U8} : stackAddr sp = stackAddr sp' ↔ sp = sp' := by
  refine ⟨fun eq => ?_, congrArg stackAddr⟩
  have lt := sp.isLt
  have lt' := sp'.isLt
  have base : (0x0100 : U16).toNat = 256 := rfl
  replace eq := congrArg BitVec.toNat eq
  simp only [stackAddr, BitVec.toNat_add, BitVec.toNat_setWidth, base] at eq
  apply BitVec.eq_of_toNat_eq
  omega

theorem stackAddr_ne_vector {sp : U8} {addr : U16} (high : 0x0200 ≤ addr) : addr ≠ stackAddr sp := by
  rintro rfl
  have lt := sp.isLt
  have base : (0x0100 : U16).toNat = 256 := rfl
  have bound : (0x0200 : U16).toNat = 512 := rfl
  simp only [stackAddr, BitVec.le_def, BitVec.toNat_add, BitVec.toNat_setWidth, base, bound] at high
  omega

variable (s : Arch)

/-- After the entry of an interrupt that returns to `q`. -/
def entered (q : U16) (status : U8) (vector : U16) : Arch :=
  let pushed := ((s.push (hiByte q)).push (loByte q)).push status
  { pushed with pc := word pushed.ram vector }

theorem entered_pc (q : U16) (status : U8) {vector : U16} (high : 0x0200 ≤ vector)
    (next : 0x0200 ≤ vector + 1) : (s.entered q status vector).pc = word s.ram vector := by
  simp only [entered, push, word, Function.update_of_ne (stackAddr_ne_vector high),
    Function.update_of_ne (stackAddr_ne_vector next)]

theorem step_back (sp : U8) : sp ≠ sp - 1 ∧ sp ≠ sp - 1 - 1 ∧ sp - 1 ≠ sp - 1 - 1 := by
  have all : ∀ sp : U8, sp ≠ sp - 1 ∧ sp ≠ sp - 1 - 1 ∧ sp - 1 ≠ sp - 1 - 1 := by decide
  exact all sp

theorem rti_entered (q : U16) (status : U8) (vector : U16) (p : U8) :
    let t := ({ s.entered q status vector with p } : Arch).perform ⟨.rti, .jump .fromInterrupt, .read⟩
    t.pc = q ∧ t.s = s.s ∧ t.p = pulledStatus status := by
  obtain ⟨first, second, third⟩ := step_back s.s
  simp only [perform, top, drop, entered, push, sub_add_cancel, Function.update_apply, stackAddr_inj,
    if_neg first, if_neg second, if_neg third, if_true, fromLeBytes_halves, and_self]

theorem rts_called (q pc : U16) :
    let called := (s.push (hiByte q)).push (loByte q)
    let t := ({ called with pc } : Arch).perform ⟨.rts, .jump .fromSubroutine, .read⟩
    t.pc = q + 1 ∧ t.s = s.s := by
  obtain ⟨first, -, -⟩ := step_back s.s
  simp only [perform, top, drop, push, sub_add_cancel, Function.update_apply, stackAddr_inj,
    if_neg first, if_true, fromLeBytes_halves, and_self]

end Arch

namespace Exec

theorem turns_entered (F : Flavor) {m : Narrow} (quiet : m.Quiet) {s : Arch} (here : m.exec.arch = s)
    {pushed : Latch} (kind : pushed = .status ∨ pushed = .brkStatus) (vector : U16) :
    ∃ e, Exec.Turns F m.exec (entryOps pushed vector) 5 e [] ∧
      e.arch = s.entered s.pc (m.exec.scratch.readLatch m.ctx pushed) vector := by
  have some : pushed ≠ .none := by
    rcases kind with rfl | rfl
    · decide
    · decide
  have kept {m : Narrow} (quiet : m.Quiet) (value : U8) : (m.pushing value).Quiet :=
    ⟨quiet.action, quiet.mnemonic⟩
  have first := kept quiet (hiByte m.ctx.pc)
  have second := kept first (loByte m.ctx.pc)
  refine ⟨_, .step (fits rfl) (m.next_push F _ quiet (by decide))
    (.step (fits rfl) (Narrow.next_push _ F _ first (by decide))
    (.step (fits rfl) (Narrow.next_push _ F _ second some)
    (.step (fits rfl) (Narrow.next_read _ F _ rfl rfl rfl)
    (.single (fits rfl) (Narrow.next_read _ F [] rfl rfl rfl))))), ?_⟩
  subst here
  rcases kind with rfl | rfl
  · simp [arch, Narrow.exec, Narrow.after, Narrow.load, Narrow.put, Narrow.reading, Narrow.addr,
      Narrow.pushing, MicroExecutor.readLatch, Arch.entered, Arch.push, Arch.word]
  · simp [arch, Narrow.exec, Narrow.after, Narrow.load, Narrow.put, Narrow.reading, Narrow.addr,
      Narrow.pushing, MicroExecutor.readLatch, Arch.entered, Arch.push, Arch.word]

end Exec

namespace Cpu6502

section
variable {β : Type} [Bus β] {v : Variant} {prof : Profile} {s t u : Cpu6502 × β} {lines : Lines}

theorem start_oldI (boundary : s.1.AtBoundary v) {start : StepExit}
    (step : s.1.step v.flavor prof lines s.2 = .ok (start, u)) (starts : start.starts = true) :
    u.1.oldI = if s.1.currentInst = none then s.1.oldI else none := by
  obtain ⟨exit, cpu', r', step', outcome⟩ :=
    step_drained (v := v) boundary.drained prof lines s.2
  cases step.symm.trans step'
  cases outcome with
  | interrupt _ inst | fetch _ inst =>
      have some : s.1.currentInst = _ := inst
      rw [some, if_neg (by simp)]
      rfl
  | first _ fresh =>
      have fresh : s.1.currentInst = none := fresh
      rw [if_pos fresh]
      rfl
  | stalled | ucyc | last | extraCycle => cases starts

theorem Outcome.oldI {cpu cpu' : Cpu6502} {bus bus' : β} {exit : StepExit} (inv : cpu.Inv v)
    (outcome : Outcome v cpu lines bus exit cpu' bus') (none : exit.starts = false)
    {i : Instruction} (inst : cpu.currentInst = some i) (quick : i.delaysIrq = false) :
    cpu'.currentInst = some i ∧ cpu'.oldI = cpu.oldI := by
  cases outcome with
  | stalled | extraCycle => exact ⟨inst, rfl⟩
  | ucyc => exact ⟨inst, rfl⟩
  | @last i' u rest e q awake inst' =>
      cases inst.symm.trans inst'
      obtain ⟨_, _, _, _, _, eq⟩ := finished_frame inv inst' e q
      rw [eq, quick]
      exact ⟨inst, rfl⟩
  | interrupt | fetch | first => cases none

theorem run_oldI {i : Instruction} (inv : s.1.Inv v) (inst : s.1.currentInst = some i)
    (quick : i.delaysIrq = false) {cycles : List Lines} {exits : List StepExit}
    (ran : run (busCycle v prof) s cycles = .ok (exits, t))
    (none : ∀ exit ∈ exits, exit.starts = false) : t.1.oldI = s.1.oldI := by
  refine (run_keeps (P := fun t : Cpu6502 × β =>
    t.1.Inv v ∧ t.1.currentInst = some i ∧ t.1.oldI = s.1.oldI) ran none ⟨inv, inst, rfl⟩ ?_).2.2
  intro u lines exit t ⟨inv, inst, same⟩ step calm
  have outcome := step_outcome inv step
  have sampled := inv.sample lines
  obtain ⟨inst', kept⟩ := outcome.oldI sampled calm inst quick
  exact ⟨outcome.inv sampled, inst', kept.trans same⟩

theorem run_pending (inv : s.1.Inv v) (pending : s.1.pendingNmi = true) {cycles : List Lines}
    {exits : List StepExit} (ran : run (busCycle v prof) s cycles = .ok (exits, t))
    (none : ∀ exit ∈ exits, exit.starts = false) : t.1.pendingNmi = true := by
  refine (run_keeps (P := fun t : Cpu6502 × β =>
    t.1.Inv v ∧ t.1.pendingNmi = true) ran none ⟨inv, pending⟩ ?_).2
  intro u lines exit t ⟨inv, pending⟩ step calm
  have outcome := step_outcome inv step
  have sampled := inv.sample lines
  refine ⟨outcome.inv sampled, ?_⟩
  have other : exit ≠ .interrupt .nmi := by
    rintro rfl
    cases calm
  rw [outcome.pendingNmi sampled]
  simp [sampleNmi, pending, other]

end

end Cpu6502

/-- The ways into an interrupt: what begins, the address to return to, the status pushed and the
vector. -/
inductive Arch.Enters (a : Arch) : StepExit → U16 → U8 → U16 → Prop
  | brk (opcode : a.opcode = 0x00) :
      Enters a .opcodeFetch (a.pc + 2) (a.p ||| Psr.B6502 ||| Psr.U6502) 0xFFFE
  | irq : Enters a (.interrupt .irq) a.pc a.p 0xFFFE
  | nmi : Enters a (.interrupt .nmi) a.pc a.p 0xFFFA

namespace Cpu6502

def handlerStatus (F : Flavor) (p : U8) : U8 :=
  Alu.setFlag (if F.decimal = .cmos65C02 then Alu.setFlag p Psr.D false else p) Psr.I true

theorem finished_entry (v : Variant) (c : Cpu6502) (ram : U16 → U8) :
    (c.finished v.flavor (v.decode 0)).arch ram =
      { c.arch ram with p := handlerStatus v.flavor c.p } := by
  rw [finished, finishInstruction_eq, decode_brk, if_pos rfl]
  cases v <;> rfl

section
variable {v : Variant} {prof : Profile} {s t u : Cpu6502 × Recorder SimpleBus} {a : Arch}
  {lines : Lines} {start : StepExit} {q vector : U16} {status : U8}

theorem interrupt_course {type : InterruptType} (boundary : s.1.AtBoundary v)
    (here : s.1.arch s.2.bus.ram = a)
    (step : s.1.step v.flavor prof lines s.2 = .ok (.interrupt type, u)) :
    ∃ e, OnCourse v (v.decode 0) e 5 u ∧ e.arch = a.entered a.pc a.p type.vector := by
  obtain ⟨exit, cpu', r', step', outcome⟩ :=
    step_drained (v := v) boundary.drained prof lines s.2
  cases step.symm.trans step'
  cases outcome with
  | @interrupt _ _ q _ _ _ _ _ wf live =>
      let m : Narrow := ⟨s.1.interrupted v 0 q |>.toCtx (v.decode 0), s.2.bus.ram s.1.pc, 0x7F, 0, 0, 0,
        .read, s.2.bus.ram, s.2.log ++ [.read (s.1.pc.setWidth 32) false true (s.2.bus.ram s.1.pc)]⟩
      have quiet : m.Quiet := ⟨rfl, congrArg (·.mnemonic.action) (decode_brk v)⟩
      subst here
      obtain ⟨e, turns, arch⟩ := Exec.turns_entered v.flavor quiet rfl (.inl rfl) type.vector
      have read : Bus.read s.2 ((s.1.sampleNmi lines).pc.setWidth 32) false true =
          (s.2.bus.ram s.1.pc, ⟨m.exec.bus.bus, m.exec.bus.log⟩) := Exec.bus_read s.2 s.1.pc false true
      rw [read]
      have more : q.live ≠ [] := by
        rw [live]
        exact List.cons_ne_nil _ _
      refine ⟨e, ⟨interrupted_inv _ _ wf live, more, m.exec, ⟨rfl, rfl⟩, rfl, ?_⟩, arch⟩
      change Exec.Turns v.flavor m.exec q.live 5 e []
      rw [live]
      exact turns

theorem enters_course (enters : a.Enters start q status vector) (boundary : s.1.AtBoundary v)
    (here : s.1.arch s.2.bus.ram = a)
    (step : s.1.step v.flavor prof lines s.2 = .ok (start, u)) :
    ∃ n e, OnCourse v (v.decode 0) e n u ∧ e.arch = a.entered q status vector := by
  cases enters with
  | brk opcode =>
      obtain ⟨e, turns, arch⟩ := Exec.turns_brk v a a.opcode (s.2.log ++ [a.opcodeRead])
        (by rw [opcode, decode_brk]) (by rw [opcode, decode_brk])
      have course := fetch_course boundary.drained here step turns
      rw [opcode] at course
      exact ⟨6, e, course, arch⟩
  | irq =>
      obtain ⟨e, course, arch⟩ := interrupt_course boundary here step
      exact ⟨5, e, course, arch⟩
  | nmi =>
      obtain ⟨e, course, arch⟩ := interrupt_course boundary here step
      exact ⟨5, e, course, arch⟩

theorem enters_starts (enters : a.Enters start q status vector) : start.starts = true := by
  cases enters <;> rfl

theorem enters_ended (enters : a.Enters start q status vector) (boundary : s.1.AtBoundary v)
    (here : s.1.arch s.2.bus.ram = a) (carries : Carries v prof start s t) :
    (∃ e, Ended v (v.decode 0) e t ∧ e.arch = a.entered q status vector) ∧
      t.1.oldI = (if s.1.currentInst = none then s.1.oldI else none) ∧
      (start = .opcodeFetch → s.1.pendingNmi = true → t.1.pendingNmi = true) := by
  obtain ⟨prev, pending, lines, u, cycles, exits, held, step, ran, none, there⟩ :=
    carries.begins boundary
  have waited : (s.1.withNmi prev pending).AtBoundary v := ⟨boundary.drained, boundary.ended⟩
  obtain ⟨n, e, course, arch⟩ :=
    enters_course (s := (s.1.withNmi prev pending, s.2)) enters waited here step
  have quick : (v.decode 0).delaysIrq = false := by
    rw [decode_brk]
    rfl
  refine ⟨⟨e, course.ends (never_due_brk v) ran none there, arch⟩, ?_, ?_⟩
  · obtain ⟨_, executing, -⟩ := course.turns
    rw [run_oldI course.inv executing.inst quick ran none]
    exact start_oldI (s := (s.1.withNmi prev pending, s.2)) waited step (enters_starts enters)
  · rintro rfl nmi
    refine run_pending course.inv ?_ ran none
    obtain ⟨exit, cpu', r', step', outcome⟩ :=
      step_drained (v := v) waited.drained prof lines s.2
    cases step.symm.trans step'
    have pending : ((s.1.withNmi prev pending).sampleNmi lines).pendingNmi = true := by
      simp [sampleNmi, withNmi, held nmi]
    cases outcome with
    | fetch _ _ _ _ quiet => cases quiet.symm.trans pending
    | first => exact pending

theorem enters_carries (enters : a.Enters start q status vector) (boundary : s.1.AtBoundary v)
    (here : s.1.arch s.2.bus.ram = a) (carries : Carries v prof start s t) :
    t.1.arch t.2.bus.ram =
      { a.entered q status vector with p := handlerStatus v.flavor a.p } := by
  obtain ⟨⟨e, ended, arch⟩, -⟩ := enters_ended enters boundary here carries
  obtain ⟨c, executing, eq⟩ := ended.arch
  have before : c.arch e.bus.bus.ram = a.entered q status vector :=
    (executing.arch e.bus.bus.ram).trans arch
  have p : c.p = a.p := congrArg Arch.p before
  rw [eq, finished_entry, before, p]

end

end Cpu6502

end Rs65x
