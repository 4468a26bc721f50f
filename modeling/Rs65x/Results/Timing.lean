import Rs65x.Proof.Reach
import Rs65x.Proof.Trail
import Rs65x.Results.Data

/-!
# Cycle counts and dummy accesses
-/

namespace Rs65x
open Fallible Machine

namespace Cpu6502

/-- The instruction at PC takes the documented number of steps, up to the next boundary. In decimal
mode the last one changes no register, no flag and no memory cell. -/
def TakesDocumented (v : Variant) (prof : Profile) (s : Cpu6502 × Recorder SimpleBus)
    (first : Lines) (lines : Nat → Lines) : Prop :=
  let a := s.1.arch s.2.bus.ram
  let i := v.decode a.opcode
  ∃ n t, Executes v prof s first lines n t ∧
    n + 1 = a.cycles v i + (if a.addsDecimalCycle v i then 1 else 0) ∧
    ∃ m exits u, run (busCycle v prof) s (first :: (List.range m).map lines) = .ok (exits, u) ∧
      m + 1 = a.cycles v i ∧ u.1.arch u.2.bus.ram = t.1.arch t.2.bus.ram

/-- A reset has left the mark of an inserted decimal cycle. -/
def MarkedByReset (cpu : Cpu6502) : Prop :=
  cpu.currentInst = none ∧ cpu.extraAdcSbcCycle = true

section
variable {v : Variant} {prof : Profile} {s : Cpu6502 × Recorder SimpleBus} {first : Lines}
  {lines : Nat → Lines}

theorem takes (drained : s.1.ucycs.Drained)
    (fetch : (s.1.step v.flavor prof first s.2).map (·.1) = .ok .opcodeFetch) {a : Arch}
    (start : s.1.arch s.2.bus.ram = a) (rdy : ∀ n, (lines n).rdy = true)
    (operand : (v.decode a.opcode).addressMode.isMemory ∨
      (v.decode a.opcode).addressMode = .noMemory .immediate) :
    ∃ n t m exits u, Executes v prof s first lines n t ∧
      n + 1 = a.cycles v (v.decode a.opcode) +
        (if a.addsDecimalCycle v (v.decode a.opcode) &&
          !(s.1.extraAdcSbcCycle && s.1.currentInst.isNone) then 1 else 0) ∧
      run (busCycle v prof) s (first :: (List.range m).map lines) = .ok (exits, u) ∧
      m + 1 = a.cycles v (v.decode a.opcode) ∧ u.1.arch u.2.bus.ram = t.1.arch t.2.bus.ram := by
  obtain ⟨e, turns, reads, -⟩ := Exec.turns_trail v a a.opcode (s.2.log ++ [a.opcodeRead]) operand
  have more := v.emission_operand a.opcode operand
  obtain ⟨t, c, ran, executes, executing, mark, -, regs, -, bus, -⟩ :=
    executes_counted drained fetch start more (turns.anywhere prof) rdy
  have count := v.cycles_eq a a.opcode operand
  have due : (c.finished v.flavor (v.decode a.opcode)).extraCycleDue v.flavor (v.decode a.opcode) =
      (a.addsDecimalCycle v (v.decode a.opcode) &&
        !(s.1.extraAdcSbcCycle && s.1.currentInst.isNone)) := by
    rw [extraCycleDue_eq executing (s := a) fun read => by rw [(reads read).1.ctx]; rfl, mark]
  refine ⟨_, t, _, _, _, executes, ?_, ran, (Nat.add_comm _ 1).trans count.symm, ?_⟩
  · rw [count, extraAccesses, ← due, Nat.add_right_comm, Nat.add_comm 1]
    cases (c.finished v.flavor (v.decode a.opcode)).extraCycleDue v.flavor (v.decode a.opcode) <;> rfl
  · rw [regs, bus]

/-- Indexed and decimal instructions take the documented number of steps if and only if no reset
has left its mark on a decimal one. -/
theorem takes_documented_iff (drained : s.1.ucycs.Drained)
    (fetch : (s.1.step v.flavor prof first s.2).map (·.1) = .ok .opcodeFetch) {a : Arch}
    (start : s.1.arch s.2.bus.ram = a) (rdy : ∀ n, (lines n).rdy = true)
    (operand : (v.decode a.opcode).addressMode.isMemory ∨
      (v.decode a.opcode).addressMode = .noMemory .immediate) :
    TakesDocumented v prof s first lines ↔
      ¬ (s.1.MarkedByReset ∧ a.addsDecimalCycle v (v.decode a.opcode)) := by
  obtain ⟨n, t, m, exits, u, run, count, before⟩ := takes drained fetch start rdy operand
  subst start
  constructor
  · rintro ⟨n', t', run', count', -⟩ ⟨⟨none, mark⟩, decimal⟩
    obtain ⟨rfl, -⟩ := run'.unique rdy run
    rw [decimal, mark, none] at count
    rw [decimal] at count'
    exact absurd (count'.symm.trans count) (by simp)
  · intro clean
    refine ⟨n, t, run, count.trans (congrArg _ ?_), m, exits, u, before⟩
    cases decimal : (s.1.arch s.2.bus.ram).addsDecimalCycle v
        (v.decode (s.1.arch s.2.bus.ram).opcode) with
    | false => rfl
    | true =>
        have unmarked : (s.1.extraAdcSbcCycle && s.1.currentInst.isNone) = false := by
          rw [Bool.and_eq_false_iff]
          by_contra both
          simp only [not_or, Bool.not_eq_false, Option.isNone_iff_eq_none] at both
          exact clean ⟨⟨both.2, both.1⟩, decimal⟩
        rw [unmarked]
        rfl

/-! ## Dummy accesses -/

theorem Executing.extraAccesses {c : Cpu6502} {i : Instruction} {e : Exec (Recorder SimpleBus)}
    (executing : c.Executing i e) (memory : i.addressMode.isMemory) {ea : U16}
    (loaded : i.memoryAction = .read → e.scratch.ea.setWidth 16 = ea) :
    ∀ access ∈ (c.finished v.flavor i).extraAccesses v.flavor i, access.2 = ea := by
  intro access mem
  rw [Cpu6502.extraAccesses] at mem
  split at mem
  · next due =>
      have read : i.memoryAction = .read := by
        simp only [extraCycleDue, Bool.and_eq_true, decide_eq_true_eq] at due
        exact due.1
      obtain ⟨-, -, scratch, -⟩ := finished_rest v.flavor executing.inst
      have same : c.scratch = e.scratch := congrArg Exec.scratch executing.exec
      rw [List.mem_singleton.1 mem, ← loaded read, ← same, ← scratch, extraAddr, extraCycleAddr]
      split
      · next none => simp [none, AddressMode.isMemory] at memory
      · rfl
  · cases mem

/-- After the bytes of an indexed instruction and of its pointer, a CMOS core reads the last byte
again where it needs a cycle for the index, an NMOS core reads the uncarried address; everything
else is at the effective address. -/
theorem indexed_accesses (drained : s.1.ucycs.Drained)
    (fetch : (s.1.step v.flavor prof first s.2).map (·.1) = .ok .opcodeFetch) {a : Arch}
    (start : s.1.arch s.2.bus.ram = a) (rdy : ∀ n, (lines n).rdy = true)
    (indexed : (v.decode a.opcode).addressMode.wordIndex ≠ .none)
    (stable : (v.decode a.opcode).mnemonic.isUnstable = false) :
    let i := v.decode a.opcode
    ∃ n t accesses dummy operand, Executes v prof s first lines n t ∧
      t.2.log = s.2.log ++ accesses ∧
      accesses.map Access.brief =
        (true, a.pc) :: (a.pointerReads i.addressMode).map (true, ·) ++ dummy ++ operand ∧
      (∀ access ∈ operand, access.2 = a.effectiveAddress i.addressMode) ∧
      if v.isCmos then
        operand ≠ [] ∧ dummy = if a.crosses i.addressMode ∨ i.memoryAction = .write ∨
          i.mnemonic = .inc ∨ i.mnemonic = .dec then [(true, a.lastByte i.addressMode)] else []
      else
        dummy = [(true, a.uncarried i.addressMode)] ∧
        (operand = [] ↔ i.memoryAction = .read ∧ a.crosses i.addressMode = false) := by
  intro i
  have memory : (v.decode a.opcode).addressMode.isMemory := by
    revert indexed
    cases (v.decode a.opcode).addressMode <;> intro indexed <;> first
      | rfl
      | exact absurd rfl indexed
  obtain ⟨e, turns, reads, logged⟩ :=
    Exec.turns_trail v a a.opcode (s.2.log ++ [a.opcodeRead]) (.inl memory)
  have more := v.emission_operand a.opcode (.inl memory)
  obtain ⟨t, c, -, executes, executing, -, -, -, -, -, extra, log, briefs⟩ :=
    executes_counted drained fetch start more (turns.anywhere prof) rdy
  obtain ⟨tail, log', trail⟩ := logged stable
  have atEa := executing.extraAccesses (v := v) memory fun read => (reads read).2 memory
  refine ⟨_, t, a.opcodeRead :: tail ++ extra, a.dummyAccesses v.flavor i,
    (if a.servedByDummy v.flavor i then [] else a.operandAccesses v.flavor i) ++
      extra.map Access.brief, executes, ?_, ?_, ?_, ?_⟩
  · rw [log, log']
    simp
  · have opcode : a.opcodeRead.brief = (true, a.pc) := by simp [Arch.opcodeRead, Access.brief, Access.isRead, Access.addr]
    simp [opcode, trail, Arch.trail, Arch.accesses, i]
  · intro access mem
    rcases List.mem_append.1 mem with mem | mem
    · exact a.operandAccesses_at v.flavor i access (by split at mem <;> first | cases mem | exact mem)
    · exact atEa access (briefs ▸ mem)
  · have some := a.operandAccesses_ne v.flavor i
    have steps : Arch.stepsByOne i = true ↔ i.mnemonic = .inc ∨ i.mnemonic = .dec := by
      simp [Arch.stepsByOne]
    split
    · next cmos =>
        have valid : v.flavor.invalidAddrRead = false := by cases v <;> first | rfl | cases cmos
        refine ⟨by simp [Arch.servedByDummy, valid, some], ?_⟩
        simp [Arch.dummyAccesses, indexed, valid, steps, or_assoc, i]
    · next nmos =>
        have invalid : v.flavor.invalidAddrRead = true := by cases v <;> first | rfl | cases nmos rfl
        have binary : v.flavor.decimal ≠ .cmos65C02 := by cases v <;> first | decide | cases nmos rfl
        have none : extra = [] := by
          rw [← List.map_eq_nil_iff, briefs, Cpu6502.extraAccesses, extraCycleDue, adcSbcExtraCycle]
          simp [binary]
        refine ⟨by simp [Arch.dummyAccesses, indexed, invalid, i], ?_⟩
        simp [none, Arch.servedByDummy, indexed, invalid, some, i]

end

set_option maxRecDepth 20000 in
theorem takes_documented_lda : TakesDocumented .rockwell65C02 .debug (ldaCpu, ⟨⟨ldaRam⟩, []⟩)
    Lines.none fun _ => Lines.none := by
  have fetch : (ldaCpu.step (Variant.flavor .rockwell65C02) .debug Lines.none
      (⟨⟨ldaRam⟩, []⟩ : Recorder SimpleBus)).map (·.1) = .ok .opcodeFetch :=
    fetches_first ⟨rfl, rfl⟩ rfl rfl _ _
  refine (@takes_documented_iff .rockwell65C02 .debug (ldaCpu, ⟨⟨ldaRam⟩, []⟩) Lines.none
    (fun _ => Lines.none) ⟨rfl, rfl⟩ fetch _ rfl (fun _ => rfl) (.inl (by decide))).2 ?_
  rintro ⟨⟨-, bad⟩, -⟩
  cases bad

set_option maxRecDepth 20000 in
theorem indexed_accesses_lda : ∃ n t accesses,
    Executes .rockwell65C02 .debug (ldaCpu, ⟨⟨ldaRam⟩, []⟩) Lines.none (fun _ => Lines.none) n t ∧
    t.2.log = accesses ∧ ∃ operand, accesses.map Access.brief =
      [(true, 0x0200), (true, 0x0201), (true, 0x0202), (true, 0x0202)] ++ operand ∧
    ∀ access ∈ operand, access.2 = 0x1100 := by
  have fetch : (ldaCpu.step (Variant.flavor .rockwell65C02) .debug Lines.none
      (⟨⟨ldaRam⟩, []⟩ : Recorder SimpleBus)).map (·.1) = .ok .opcodeFetch :=
    fetches_first ⟨rfl, rfl⟩ rfl rfl _ _
  have decoded : Variant.decode .rockwell65C02 (ldaCpu.arch ldaRam).opcode =
      ⟨.lda, .absolute .x, .read⟩ := by
    decide
  have shown := @indexed_accesses .rockwell65C02 .debug (ldaCpu, ⟨⟨ldaRam⟩, []⟩) Lines.none
    (fun _ => Lines.none) ⟨rfl, rfl⟩ fetch (ldaCpu.arch ldaRam) rfl fun _ => rfl
  rw [decoded] at shown
  obtain ⟨n, t, accesses, dummy, operand, run, log, briefs, atEa, -, eq⟩ := shown (by decide) rfl
  have crosses : (ldaCpu.arch ldaRam).crosses (.absolute .x) := by decide
  have ea : (ldaCpu.arch ldaRam).effectiveAddress (.absolute .x) = 0x1100 := by decide
  have bytes : (ldaCpu.arch ldaRam).pointerReads (.absolute .x) = [0x0201, 0x0202] ∧
      (ldaCpu.arch ldaRam).lastByte (.absolute .x) = 0x0202 := by
    decide
  rw [if_pos (.inl crosses), bytes.2] at eq
  rw [bytes.1, eq] at briefs
  exact ⟨n, t, accesses, run, log, operand, briefs, fun access mem => ea ▸ atEa access mem⟩

def markedCpu : Cpu6502 :=
  -- An ADC in decimal mode and its inserted cycle, then the reset.
  follow (call .rockwell65C02 .debug) new (fun n => match n with
    | 0 | 1 => .step Lines.none (⟨fun _ => 0xF8⟩ : SimpleBus)
    | 2 | 3 | 4 => .step Lines.none ⟨fun _ => 0x69⟩
    | _ => .reset ⟨fun _ => 0x69⟩) 6

set_option maxRecDepth 20000 in
theorem reset_shortens_adc : ¬ ∀ v prof (cpu : Cpu6502), cpu.Reachable SimpleBus v prof →
    cpu.ucycs.Drained → ∀ (ram : U16 → U8) (first : Lines) (lines : Nat → Lines),
    (cpu.step v.flavor prof first (⟨⟨ram⟩, []⟩ : Recorder SimpleBus)).map (·.1) = .ok .opcodeFetch →
    (∀ n, (lines n).rdy = true) →
    ((v.decode (ram cpu.pc)).addressMode.isMemory ∨
      (v.decode (ram cpu.pc)).addressMode = .noMemory .immediate) →
    TakesDocumented v prof (cpu, ⟨⟨ram⟩, []⟩) first lines := by
  intro documented
  have reach : markedCpu.Reachable SimpleBus .rockwell65C02 .debug := follow_reaches new _ 6
  have drained : markedCpu.ucycs.Drained := ⟨by decide, by decide⟩
  have fetch : (markedCpu.step (Variant.flavor .rockwell65C02) .debug Lines.none
      (⟨⟨fun _ => 0x69⟩, []⟩ : Recorder SimpleBus)).map (·.1) = .ok .opcodeFetch :=
    fetches_first drained (by decide) (by decide) _ _
  have rdy : ∀ n : Nat, ((fun _ => Lines.none) n).rdy = true := fun _ => rfl
  have operand : (Variant.decode .rockwell65C02
        (markedCpu.arch fun _ => 0x69).opcode).addressMode.isMemory ∨
      (Variant.decode .rockwell65C02
        (markedCpu.arch fun _ => 0x69).opcode).addressMode = .noMemory .immediate :=
    .inr (show (Variant.decode .rockwell65C02 0x69).addressMode = _ by decide)
  obtain ⟨n, t, run, three, -⟩ :=
    documented _ _ _ reach drained (fun _ => 0x69) _ _ fetch rdy operand
  obtain ⟨n', t', -, -, -, run', two, -⟩ :=
    @takes .rockwell65C02 .debug (markedCpu, ⟨⟨fun _ => 0x69⟩, []⟩) _ _ drained fetch
      (markedCpu.arch fun _ => 0x69) rfl rdy operand
  obtain ⟨rfl, -⟩ := run.unique rdy run'
  revert three
  rw [two]
  decide +kernel

end Cpu6502

end Rs65x
