import Rs65x.Lib.Progress
import Rs65x.Proof.Origin

/-!
# Every instruction ends
-/

namespace Rs65x
open Fallible Machine

/-- The cycles that a micro-op accounts for, those of a taken branch included. -/
def MicroOp.span (u : MicroOp) : Nat := if u.alu = .branch then 3 else 1

def span (us : List MicroOp) : Nat := (us.map (·.span)).sum

def Instruction.isArith (i : Instruction) : Bool := i.mnemonic = .adc || i.mnemonic = .sbc

def Instruction.short (v : Variant) (i : Instruction) (op : U8) : Bool :=
  i.mnemonic = .jam || match i.addressMode.emitUcycs .release v.flavor.micro
      (Cpu6502.decodeContext v.flavor i.memoryAction op) with
    | .ok us => us.all (·.alu ≠ .jam) && span us + (if i.isArith then 1 else 0) ≤ 7
    | .error _ => false

set_option maxRecDepth 20000 in
theorem entries_short (v : Variant) : entries.all fun e =>
    !e.filter.includes v.flavor.opcodeTable || e.instruction.short v (BitVec.ofNat 8 e.code) := by
  cases v <;> decide

theorem Variant.emission_short (v : Variant) (op : U8) (other : (v.decode op).mnemonic ≠ .jam) :
    (∀ u ∈ v.emission op, u.alu ≠ .jam) ∧
      span (v.emission op) + (if (v.decode op).isArith then 1 else 0) ≤ 7 := by
  have checked : (v.decode op).short v op :=
    OpcodeTable.decode_checked (fun i op => i.short v op) op (by cases v <;> rfl) (entries_short v)
  have emits := (v.emission_spec op).2.2.2 .release
  simpa [Instruction.short, emits, other] using checked

theorem span_sublist {us vs : List MicroOp} (sub : us.Sublist vs) : span us ≤ span vs :=
  (sub.map _).sum_le_sum fun _ _ => Nat.zero_le _

theorem Exec.branchTail_span {β : Type} (e : Exec β) : span e.branchTail ≤ 2 ∧
    ∀ u ∈ e.branchTail, u.alu ≠ .jam := by
  refine ⟨?_, branchTail_forall (by decide) (fun pc => by simp [MicroOp.readPcSetPc]) e⟩
  simp only [branchTail]
  split
  · exact Nat.zero_le 2
  split
  · split <;> exact le_rfl
  · exact Nat.le_succ 1

theorem Exec.next_span {β : Type} [Bus β] (F : Flavor) (e : Exec β) {u : MicroOp}
    {rest : List MicroOp} (runs : ∀ u' ∈ u :: rest, u'.alu ≠ .jam) :
    span (e.next F u rest).2 < span (u :: rest) ∧ ∀ u' ∈ (e.next F u rest).2, u'.alu ≠ .jam := by
  rw [List.forall_mem_cons] at runs
  have cons : span (u :: rest) = u.span + span rest := rfl
  rcases e.next_live F u rest with ⟨jam, -⟩ | suffix | ⟨branch, tail⟩
  · exact absurd jam runs.1
  · have le := span_sublist suffix.sublist
    have positive : 0 < u.span := by rw [MicroOp.span]; split <;> decide
    exact ⟨by omega, fun u' mem => runs.2 u' (suffix.subset mem)⟩
  · obtain ⟨few, none⟩ := (e.body F u).1.branchTail_span
    have three : u.span = 3 := if_pos branch
    rw [tail]
    exact ⟨by omega, none⟩

namespace Cpu6502

structure Ends (cpu : Cpu6502) (i : Instruction) : Prop where
  runs : ∀ u ∈ cpu.ucycs.live, u.alu ≠ .jam
  short : span cpu.ucycs.live + (if i.isArith then 1 else 0) ≤ 7

def Ending (cpu : Cpu6502) : Prop :=
  ∀ i, cpu.currentInst = some i → i.mnemonic ≠ .jam → cpu.Ends i

section
variable {β : Type} [Bus β] {v : Variant} {cpu cpu' : Cpu6502} {lines : Lines} {bus bus' : β}
  {exit : StepExit}

theorem Outcome.ending (ending : cpu.Ending) (outcome : Outcome v cpu lines bus exit cpu' bus') :
    cpu'.Ending := by
  cases outcome with
  | stalled => exact ending
  | @ucyc i u rest e us q awake inst live next wf live' more =>
      intro i' inst' other
      cases inst.symm.trans inst'
      obtain ⟨runs, short⟩ := ending i inst other
      rw [live] at runs short
      have less := Exec.next_span v.flavor (cpu.exec i bus) runs
      rw [next, ← live'] at less
      exact ⟨less.2, (Nat.add_le_add_right (Nat.le_of_lt less.1) _).trans short⟩
  | @last i u rest e q awake inst live next drained =>
      have same : (cpu.restore e q).currentInst = some i := inst
      obtain ⟨inst', queue, -⟩ := finished_rest v.flavor same
      intro i' inst'' other
      cases inst'.symm.trans inst''
      have empty : ((cpu.restore e q).finished v.flavor i).ucycs.live = [] := by
        rw [queue]
        exact drained.live_eq
      refine ⟨by simp [empty], ?_⟩
      rw [empty]
      split <;> decide
  | extraCycle awake inst empty due =>
      intro i inst other
      obtain ⟨runs, short⟩ := ending i inst other
      exact ⟨runs, short⟩
  | @interrupt i type q awake inst empty ended request wf live' =>
      intro i' inst' other
      obtain rfl : v.decode 0 = i' := Option.some.inj inst'
      have arith : (v.decode 0).isArith = false := by
        rw [decode_brk]
        rfl
      refine ⟨?_, ?_⟩
      · intro u mem
        replace mem : u ∈ q.live := mem
        rw [live'] at mem
        have all : (interruptTail type.vector).all (·.alu ≠ .jam) := rfl
        simpa using List.all_eq_true.1 all u mem
      · rw [arith]
        change span q.live + 0 ≤ 7
        rw [live']
        exact Nat.le_add_right 5 2
  | fetch awake inst empty ended quiet masked wf live' =>
      intro i' inst' other
      cases inst'
      obtain ⟨runs, short⟩ := v.emission_short _ other
      rw [← live'] at runs short
      exact ⟨runs, short⟩
  | first awake inst wf live' =>
      intro i' inst' other
      cases inst'
      obtain ⟨runs, short⟩ := v.emission_short _ other
      rw [← live'] at runs short
      exact ⟨runs, short⟩

def toGo (v : Variant) (cpu : Cpu6502) : Nat :=
  match cpu.currentInst with
  | none => 0
  | some i =>
      let inserts := if cpu.ucycs.live = [] then cpu.extraCycleDue v.flavor i else i.isArith
      span cpu.ucycs.live + if inserts then 1 else 0

theorem toGo_live {i : Instruction} {us : List MicroOp} (inst : cpu.currentInst = some i)
    (live : cpu.ucycs.live = us) (more : us ≠ []) :
    cpu.toGo v = span us + if i.isArith then 1 else 0 := by
  rw [toGo, inst]
  simp only [live, if_neg more]

theorem toGo_drained {i : Instruction} (inst : cpu.currentInst = some i)
    (empty : cpu.ucycs.live = []) :
    cpu.toGo v = if cpu.extraCycleDue v.flavor i then 1 else 0 := by
  rw [toGo, inst]
  simp only [empty, if_true]
  exact Nat.zero_add _

theorem due_isArith {i : Instruction} (due : cpu.extraCycleDue v.flavor i) : i.isArith := by
  simp only [extraCycleDue, adcSbcExtraCycle, Bool.and_eq_true] at due
  exact due.2.1.1.1

theorem Outcome.toGo (outcome : Outcome v cpu lines bus exit cpu' bus') (ending : cpu.Ending)
    (running : ∀ i, cpu.currentInst = some i → i.mnemonic ≠ .jam)
    (awake : cpu.stalls lines = false) (going : exit.starts = false) :
    cpu'.currentInst = cpu.currentInst ∧ cpu'.toGo v < cpu.toGo v := by
  cases outcome with
  | stalled stalls => cases stalls.symm.trans awake
  | @ucyc i u rest e us q awake inst live next wf live' more =>
      have less := Exec.next_span v.flavor (cpu.exec i bus) (live ▸ (ending i inst (running i inst)).runs)
      rw [next] at less
      have inst' : (cpu.restore e q).currentInst = some i := inst
      refine ⟨rfl, ?_⟩
      rw [toGo_live inst' live' more, toGo_live inst live (List.cons_ne_nil u rest)]
      exact Nat.add_lt_add_right less.1 _
  | @last i u rest e q awake inst live next drained =>
      have same : (cpu.restore e q).currentInst = some i := inst
      obtain ⟨inst', queue, -⟩ := finished_rest v.flavor same
      have empty : ((cpu.restore e q).finished v.flavor i).ucycs.live = [] := by
        rw [queue]
        exact drained.live_eq
      have less := Exec.next_span v.flavor (cpu.exec i bus) (live ▸ (ending i inst (running i inst)).runs)
      rw [next] at less
      refine ⟨inst'.trans inst.symm, ?_⟩
      rw [toGo_drained inst' empty, toGo_live inst live (List.cons_ne_nil u rest)]
      have positive : 0 < span (u :: rest) := Nat.lt_of_le_of_lt (Nat.zero_le _) less.1
      split
      · next due =>
          rw [if_pos (due_isArith due)]
          omega
      · omega
  | @extraCycle i awake inst empty due =>
      have marked : ({ cpu with extraAdcSbcCycle := true } : Cpu6502).extraCycleDue v.flavor i = false := by
        simp [extraCycleDue, adcSbcExtraCycle]
      have left : ({ cpu with extraAdcSbcCycle := true } : Cpu6502).toGo v = _ :=
        toGo_drained inst empty.live_eq
      refine ⟨rfl, ?_⟩
      rw [left, toGo_drained inst empty.live_eq, marked, due]
      decide
  | interrupt | fetch | first => cases going

theorem Ending.toGo_le (ending : cpu.Ending)
    (running : ∀ i, cpu.currentInst = some i → i.mnemonic ≠ .jam) : cpu.toGo v ≤ 7 := by
  cases inst : cpu.currentInst with
  | none =>
      rw [toGo, inst]
      exact Nat.zero_le 7
  | some i =>
      have short := (ending i inst (running i inst)).short
      cases live : cpu.ucycs.live with
      | nil =>
          rw [toGo_drained inst live]
          split <;> decide
      | cons u rest =>
          rw [toGo_live inst live (List.cons_ne_nil u rest), ← live]
          exact short

theorem Ending.sample (ending : cpu.Ending) (lines : Lines) : (cpu.sampleNmi lines).Ending := by
  intro i inst other
  obtain ⟨runs, short⟩ := ending i inst other
  exact ⟨runs, short⟩

theorem Reachable.ending {prof : Profile} (reach : cpu.Reachable β v prof) : cpu.Ending := by
  refine reach.invariant (P := Ending) (fun i inst => by cases inst) ?_ ?_
  · intro cpu cpu' lines exit r r' _ ending outcome
    exact Outcome.ending (ending.sample lines) outcome
  · intro cpu bus _ i inst
    cases inst

def Going (v : Variant) (cpu : Cpu6502) : Prop :=
  cpu.Inv v ∧ cpu.Ending ∧ ∀ i, cpu.currentInst = some i → i.mnemonic ≠ .jam

theorem Going.advance {prof : Profile} {input : Lines × β} (going : cpu.Going v)
    (awake : input.1.rdy = true) (small : prof = .release ∨ cpu.ptrOverflows = false) :
    ∃ exit cpu', cycle v prof cpu input = .ok (exit, cpu') ∧
      (exit.starts = false → cpu'.Going v ∧ toGo v cpu' < toGo v cpu) := by
  obtain ⟨lines, bus⟩ := input
  obtain ⟨inv, ending, running⟩ := going
  obtain ⟨exit, cpu', bus', ran, outcome⟩ := step_spec inv lines bus small
  refine ⟨exit, cpu', by rw [cycle, ran]; rfl, fun inside => ?_⟩
  have ending' := outcome.ending (ending.sample lines)
  obtain ⟨inst, less⟩ :=
    outcome.toGo (ending.sample lines) running (by simp [stalls, show lines.rdy = true from awake])
      inside
  exact ⟨⟨outcome.inv (inv.sample lines), ending',
    fun i same => running i (inst.symm.trans same)⟩, less⟩

/-- If RDY stays high and no JAM is current, the next boundary comes within eight cycles, unless a
debug build panics on the way. -/
theorem boundary_within_eight_iff {prof : Profile} (reach : cpu.Reachable β v prof)
    (running : ∀ i, cpu.currentInst = some i → i.mnemonic ≠ .jam) {input : Nat → Lines × β}
    (rdy : ∀ n, (input n).1.rdy = true) :
    MeetsWithin (cycle v prof) StepExit.starts input cpu 8 ↔
      SafeUntil (cycle v prof) StepExit.starts
        (fun cpu _ => prof = .release ∨ cpu.ptrOverflows = false) input cpu := by
  constructor
  · intro meets
    refine meets.safe (fun input => input.1.rdy = true) reach.inv rdy
      (fun inv ran => cycle_inv inv ran) fun {cpu input exit cpu'} inv awake ran => ?_
    by_contra bad
    obtain ⟨debug, large⟩ := not_or.1 bad
    have debug : prof = .debug := by cases prof <;> first | rfl | exact absurd rfl debug
    subst debug
    have moving : cpu.stalls input.1 = false := by simp [stalls, awake]
    have panics := step_overflows inv input.2 moving (by simpa using large)
    rw [cycle, panics] at ran
    cases ran
  · intro safe
    obtain ⟨n, lt, met⟩ := meets_of_rank (Going v) (toGo v) (fun input : Lines × β =>
      input.1.rdy = true) Going.advance ⟨reach.inv, reach.ending, running⟩ rdy safe
    exact ⟨n, lt.trans_le (Nat.succ_le_succ (reach.ending.toGo_le running)), met⟩

end

def rraCpu : Cpu6502 :=
  -- RRA ($63,X) after its opcode fetch.
  follow (call .nmos6502 .release) new (fun _ => .step Lines.none (⟨fun _ => 0x63⟩ : SimpleBus)) 1

set_option maxRecDepth 20000 in
theorem boundary_within_eight_rra : MeetsWithin (cycle .nmos6502 .release) StepExit.starts
    (fun _ => (Lines.none, (⟨fun _ => 0x63⟩ : SimpleBus))) rraCpu 8 := by
  have inst : rraCpu.currentInst = some ⟨.rra, .dpIndirect .x, .readModifyWrite⟩ := by decide
  have reach : rraCpu.Reachable SimpleBus .nmos6502 .release := follow_reaches new _ 1
  refine (boundary_within_eight_iff reach ?_ fun _ => rfl).2 fun _ _ _ _ _ => .inl rfl
  intro i same
  cases inst.symm.trans same
  decide

def jmpCpu : Cpu6502 :=
  -- JMP ($FFFF) after its opcode fetch.
  follow (call .rockwell65C02 .debug) new
    (fun _ => .step Lines.none (⟨fun addr => if addr = 0 then 0x6C else 0xFF⟩ : SimpleBus)) 1

set_option maxRecDepth 20000 in
theorem boundary_missed : ¬ ∀ v prof (cpu : Cpu6502), cpu.Reachable SimpleBus v prof →
    (∀ i, cpu.currentInst = some i → i.mnemonic ≠ .jam) →
    ∀ input : Nat → Lines × SimpleBus, (∀ n, (input n).1.rdy = true) →
      MeetsWithin (cycle v prof) StepExit.starts input cpu 8 := by
  intro met
  have inst : jmpCpu.currentInst = some ⟨.jmp, .jump .jmpIndirect, .read⟩ := by decide
  have running (i : Instruction) (same : jmpCpu.currentInst = some i) : i.mnemonic ≠ .jam := by
    cases inst.symm.trans same
    decide
  obtain ⟨n, lt, exits, exit, cpu', ran, starts⟩ := met .rockwell65C02 .debug jmpCpu
    (follow_reaches new _ 1) running
    (fun _ => (Lines.none, ⟨fun addr => if addr = 0 then 0x6C else 0xFF⟩)) fun _ => rfl
  have none : ∀ n < 8, ((run (cycle .rockwell65C02 .debug) jmpCpu ((List.range (n + 1)).map fun _ =>
      (Lines.none, (⟨fun addr => if addr = 0 then 0x6C else 0xFF⟩ : SimpleBus)))).map (·.1)).toOption.all
        (·.all (!·.starts)) := by
    decide +kernel
  have last := none n lt
  rw [ran] at last
  simp [Except.map, Except.toOption, starts] at last

end Cpu6502

end Rs65x
