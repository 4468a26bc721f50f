import Rs65x.Proof.Reach

/-!
# One access a cycle, and RDY
-/

namespace Rs65x
open Fallible Machine

namespace Cpu6502
variable {β : Type} [Bus β]

def Addresses (v : Variant) (cpu : Cpu6502) (bus : β) (addr : U32) : Prop :=
  addr = cpu.pc.setWidth 32 ∨
  (∃ i, cpu.currentInst = some i ∧ cpu.extraCycleDue v.flavor i ∧
    addr = cpu.extraAddr v.flavor i) ∨
  (∃ i u rest, cpu.currentInst = some i ∧ cpu.ucycs.live = u :: rest ∧
    addr = (cpu.exec i bus).accessAddr v.flavor u)

theorem nextCycleRead_eq {cpu : Cpu6502} {i : Instruction} {u : MicroOp} {rest : List MicroOp}
    (inst : cpu.currentInst = some i) (live : cpu.ucycs.live = u :: rest) :
    cpu.nextCycleRead = u.bus.read := by
  simp [nextCycleRead, UcycQueue.front_eq, live, inst]

theorem nextCycleRead_drained {cpu : Cpu6502} (empty : cpu.ucycs.Drained) :
    cpu.nextCycleRead = true := by
  simp [nextCycleRead, UcycQueue.front_eq, empty.live_eq]

theorem Outcome.log {v : Variant} {cpu cpu' : Cpu6502} (inv : cpu.Inv v) {lines : Lines}
    {r r' : Recorder β} {exit : StepExit} (outcome : Outcome v cpu lines r exit cpu' r')
    (awake : cpu.stalls lines = false) :
    ∃ a : Access, r'.log = r.log ++ [a] ∧ a.isRead = cpu.nextCycleRead ∧
      cpu.Addresses v r a.addr := by
  cases outcome with
  | stalled stalls => simp [awake] at stalls
  | @ucyc i u rest e us q _ inst live next | @last i u rest e q _ inst live next =>
      obtain ⟨a, log, isRead, addr⟩ := Exec.next_log v.flavor (cpu.exec i r) u rest
      rw [next] at log
      exact ⟨a, log, isRead.trans (nextCycleRead_eq inst live).symm,
        .inr (.inr ⟨i, u, rest, inst, live, addr⟩)⟩
  | extraCycle _ inst empty due =>
      exact ⟨_, rfl, (nextCycleRead_drained empty).symm, .inr (.inl ⟨_, inst, due, rfl⟩)⟩
  | interrupt _ _ empty | fetch _ _ empty =>
      exact ⟨_, rfl, (nextCycleRead_drained empty).symm, .inl rfl⟩
  | first _ inst => exact ⟨_, rfl, (nextCycleRead_drained (inv.idle inst)).symm, .inl rfl⟩

/-- A step makes one access, or none in a stalled read cycle, and `next_cycle_read` tells whether
it is a read. -/
theorem step_one_access {v : Variant} {prof : Profile} {cpu : Cpu6502}
    (reach : cpu.Reachable β v prof) (lines : Lines) (bus : β) (log : List Access) :
    (∃ r, cpu.step v.flavor .release lines (⟨bus, log⟩ : Recorder β) = .ok r) ∧
    ∀ exit cpu' r, cpu.step v.flavor prof lines (⟨bus, log⟩ : Recorder β) = .ok (exit, cpu', r) →
      if lines.rdy = false ∧ cpu.nextCycleRead = true then r.log = log
      else ∃ a : Access, r.log = log ++ [a] ∧ (cpu.nextCycleRead = true ↔ a.isRead = true) := by
  refine ⟨?_, fun exit cpu' r run => ?_⟩
  · obtain ⟨exit, cpu', r, run, -⟩ := step_spec reach.inv lines (⟨bus, log⟩ : Recorder β) (.inl rfl)
    exact ⟨_, run⟩
  have outcome := step_outcome reach.inv run
  by_cases stalls : lines.rdy = false ∧ cpu.nextCycleRead = true
  · rw [if_pos stalls]
    have asleep : (cpu.sampleNmi lines).stalls lines = true := by
      simpa [Cpu6502.stalls] using stalls
    cases run.symm.trans (step_stalls asleep _)
    rfl
  · rw [if_neg stalls]
    have awake : (cpu.sampleNmi lines).stalls lines = false := by
      simpa [Cpu6502.stalls] using stalls
    obtain ⟨a, logged, isRead, -⟩ := outcome.log (reach.inv.sample lines) awake
    exact ⟨a, logged, by rw [isRead]; rfl⟩

def sedAdcPha : SimpleBus :=
  -- SED, ADC #$65, PHA.
  ⟨fun addr => if addr = 0 then 0xF8 else if addr = 1 then 0x69
  else if addr = 2 then 0x65 else 0x48⟩

def inSedAdcPha (n : Nat) : Cpu6502 :=
  -- The core after so many cycles of it.
  follow (call .rockwell65C02 .release) new (fun _ => .step Lines.none sedAdcPha) n

theorem inSedAdcPha_reachable (n : Nat) : (inSedAdcPha n).Reachable SimpleBus .rockwell65C02 .release :=
  follow_reaches new _ n

def OneAccess (n : Nat) (lines : Lines) (exit : StepExit) (isRead : Bool) : Prop :=
  ∃ cpu' r a, (inSedAdcPha n).step Variant.rockwell65C02.flavor .release lines
    (⟨sedAdcPha, []⟩ : Recorder SimpleBus) = .ok (exit, cpu', r) ∧ r.log = [a] ∧ a.isRead = isRead

set_option maxRecDepth 20000 in
-- the inserted cycle of ADC, the write of PHA with RDY low, the first cycle of an NMI
theorem step_one_access_pha : OneAccess 4 Lines.none .extraCycle true ∧
    OneAccess 7 { Lines.none with rdy := false } .ucyc false ∧
    OneAccess 8 { Lines.none with nmi := true } (.interrupt .nmi) true := by
  have one (n : Nat) (lines : Lines) (exit : StepExit) (isRead : Bool)
      (ran : ((inSedAdcPha n).step Variant.rockwell65C02.flavor .release lines
        (⟨sedAdcPha, []⟩ : Recorder SimpleBus)).map (·.1) = .ok exit)
      (awake : ¬ (lines.rdy = false ∧ (inSedAdcPha n).nextCycleRead = true))
      (kind : (inSedAdcPha n).nextCycleRead = isRead) : OneAccess n lines exit isRead := by
    obtain ⟨⟨⟨exit', cpu', r⟩, step⟩, accesses⟩ :=
      @step_one_access SimpleBus _ .rockwell65C02 .release _ (inSedAdcPha_reachable n) lines sedAdcPha []
    have logged := accesses exit' cpu' r step
    rw [if_neg awake] at logged
    obtain ⟨a, log, predicted⟩ := logged
    rw [step] at ran
    cases ran
    exact ⟨cpu', r, a, step, log, kind ▸ Bool.eq_iff_iff.2 predicted.symm⟩
  refine ⟨one _ _ _ _ ?_ ?_ ?_, one _ _ _ _ ?_ ?_ ?_, one _ _ _ _ ?_ ?_ ?_⟩
  all_goals decide +kernel

/-! ## RDY -/

/-- In each marked cycle RDY is low, NMI stays at its last sample and the pending cycle reads. -/
def InsertedStalls (v : Variant) (prof : Profile) :
    Cpu6502 × Recorder β → Bool → List (Lines × Bool) → Prop
  | _, _, [] => True
  | s, lastNmi, (lines, true) :: cycles =>
      lines.rdy = false ∧ lines.nmi = lastNmi ∧ s.1.nextCycleRead = true ∧
        InsertedStalls v prof s lastNmi cycles
  | s, _, (lines, false) :: cycles =>
      ∀ exit t, busCycle v prof s lines = .ok (exit, t) →
        InsertedStalls v prof t lines.nmi cycles

def original (cycles : List (Lines × Bool)) : List Lines := (cycles.filter (!·.2)).map (·.1)

def Idles (s : Cpu6502 × Recorder β) (lines : Lines) : Prop :=
  lines.rdy = false ∧ lines.nmi = s.1.prevNmi ∧ s.1.nextCycleRead = true

theorem idle_loops (v : Variant) (prof : Profile) (s : Cpu6502 × Recorder β) (lines : Lines)
    (idles : Idles s lines) : ∃ exit, busCycle v prof s lines = .ok (exit, s) := by
  obtain ⟨low, nmi, read⟩ := idles
  obtain ⟨cpu, r⟩ := s
  have same : cpu.sampleNmi lines = cpu := by simp [sampleNmi, nmi]
  refine ⟨.stalled, ?_⟩
  simp only [busCycle, step, same]
  exact if_pos (by simpa [low] using read)

theorem insertedStalls_stretched {v : Variant} {prof : Profile} {cycles : List (Lines × Bool)}
    {s : Cpu6502 × Recorder β} {lastNmi : Bool} (inv : s.1.Inv v) (last : s.1.prevNmi = lastNmi)
    (h : InsertedStalls v prof s lastNmi cycles) :
    Stretched (busCycle v prof) Idles s (original cycles) (cycles.map (·.1)) := by
  induction cycles generalizing s lastNmi with
  | nil => exact .nil
  | cons cycle cycles ih =>
      obtain ⟨lines, inserted⟩ := cycle
      cases inserted with
      | true =>
          obtain ⟨low, nmi, read, rest⟩ := h
          exact .insert ⟨low, nmi.trans last.symm, read⟩ (ih inv last rest)
      | false =>
          refine .keep fun exit t run => ih ?_ ?_ (h exit t run)
          · exact (step_outcome inv run).inv (inv.sample lines)
          · exact (step_outcome inv run).prevNmi (inv.sample lines)

/-- RDY stalls are transparent. -/
theorem rdy_transparent {v : Variant} {prof : Profile} {cpu : Cpu6502}
    (reach : cpu.Reachable β v prof) (r : Recorder β) :
    (∀ cycles, InsertedStalls v prof (cpu, r) cpu.prevNmi cycles →
      (run (busCycle v prof) (cpu, r) (cycles.map (·.1))).map (·.2) =
        (run (busCycle v prof) (cpu, r) (original cycles)).map (·.2)) ∧
    (cpu.nextCycleRead = false → ∀ lines : Lines,
      cpu.step v.flavor prof { lines with rdy := false } r =
        cpu.step v.flavor prof { lines with rdy := true } r) := by
  refine ⟨fun cycles stalls => ?_, fun write lines => ?_⟩
  · exact (insertedStalls_stretched reach.inv rfl stalls).run_eq fun s lines =>
      idle_loops v prof s lines
  · have awake : ¬ (!false && (cpu.sampleNmi lines).nextCycleRead) = true := by simp [write]
    exact if_neg awake

set_option maxRecDepth 20000 in
theorem rdy_transparent_adc :
    (run (busCycle .rockwell65C02 .release) (inSedAdcPha 3, (⟨sedAdcPha, []⟩ : Recorder SimpleBus))
        [⟨false, false, false⟩, Lines.none, ⟨true, false, false⟩, ⟨false, false, false⟩, Lines.none]).map
          (·.2) =
      (run (busCycle .rockwell65C02 .release) (inSedAdcPha 3, (⟨sedAdcPha, []⟩ : Recorder SimpleBus))
        [Lines.none, Lines.none]).map (·.2) := by
  apply (rdy_transparent (inSedAdcPha_reachable 3) (⟨sedAdcPha, []⟩ : Recorder SimpleBus)).1
    [(⟨false, false, false⟩, true), (Lines.none, false), (⟨true, false, false⟩, true),
      (⟨false, false, false⟩, true), (Lines.none, false)]
  refine ⟨rfl, by decide, by decide, fun exit t step => ?_⟩
  have read : t.1.nextCycleRead = true := by
    cases step
    decide
  exact ⟨rfl, rfl, read, rfl, rfl, read, fun _ _ _ => trivial⟩

end Cpu6502

end Rs65x
