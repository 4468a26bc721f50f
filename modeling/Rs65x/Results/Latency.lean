import Rs65x.Results.Boundaries
import Rs65x.Results.Emulation
import Rs65x.Results.Interrupts

/-!
# How long an interrupt has to wait
-/

namespace Rs65x
open Fallible Machine

namespace Cpu6502

def Delays (cpu : Cpu6502) : Prop := cpu.oldI = some true

instance (cpu : Cpu6502) : Decidable cpu.Delays := decEq cpu.oldI (some true)

/-- The cycles at the most until an IRQ is taken that nothing but the old I flag masks. -/
def wait (v : Variant) (cpu : Cpu6502) : Nat := cpu.toGo v + if cpu.Delays then 8 else 0

section
variable {β : Type} [Bus β] {v : Variant} {cpu cpu' : Cpu6502} {lines : Lines} {bus bus' : β}
  {exit : StepExit}

theorem Outcome.delays (inv : cpu.Inv v) (outcome : Outcome v cpu lines bus exit cpu' bus')
    (clear : flagSet cpu.p Psr.I = false) (inside : exit.starts = false) (delays : cpu'.Delays) :
    cpu.Delays := by
  cases outcome with
  | stalled | ucyc | extraCycle => exact delays
  | @last i u rest e q awake inst live next drained =>
      obtain ⟨a, x, y, s, p, eq⟩ := finished_frame inv inst e q
      replace delays : (if i.delaysIrq then some (flagSet e.ctx.status Psr.I) else cpu.oldI) = some true := by
        rw [Delays, eq] at delays
        exact delays
      cases late : i.delaysIrq with
      | true =>
          have kept := quiet_status inv (delaysIrq_quiet late) inst live next
          rw [if_pos late, kept, clear] at delays
          cases delays
      | false =>
          rw [late, if_neg Bool.false_ne_true] at delays
          exact delays
  | interrupt | fetch | first => cases inside

theorem Outcome.wait (inv : cpu.Inv v) (outcome : Outcome v cpu lines bus exit cpu' bus')
    (ending : cpu.Ending) (running : ∀ i, cpu.currentInst = some i → i.mnemonic ≠ .jam)
    (inst : cpu.currentInst.isSome) (irq : lines.irq = true) (clear : flagSet cpu.p Psr.I = false)
    (unserved : ∀ type, exit ≠ .interrupt type) :
    (exit = .stalled ∧ cpu' = cpu) ∨ (cpu'.currentInst.isSome ∧ cpu'.wait v < cpu.wait v) ∨
      (cpu'.currentInst.isSome ∧ ¬ cpu'.Delays ∧ cpu.wait v = 8) := by
  cases stalls : cpu.stalls lines with
  | true =>
      cases outcome with
      | stalled => exact .inl ⟨rfl, rfl⟩
      | ucyc awake | last awake | extraCycle awake | interrupt awake | fetch awake | first awake =>
          cases stalls.symm.trans awake
  | false =>
      cases inside : exit.starts with
      | false =>
          obtain ⟨same, less⟩ := outcome.toGo ending running stalls inside
          refine .inr (.inl ⟨same ▸ inst, ?_⟩)
          have late := outcome.delays inv clear inside
          rw [Cpu6502.wait, Cpu6502.wait]
          split
          · next delays =>
              rw [if_pos (late delays)]
              exact Nat.add_lt_add_right less 8
          · exact Nat.lt_of_lt_of_le less (Nat.le_add_right _ _)
      | true =>
          cases outcome with
          | stalled | ucyc | last | extraCycle => cases inside
          | @interrupt _ type => exact absurd rfl (unserved type)
          | first awake none =>
              rw [none] at inst
              cases inst
          | @fetch i q awake inst empty ended quiet masked =>
              have delays : cpu.Delays := by
                have masks := masked.resolve_left fun low => Bool.noConfusion (irq.symm.trans low)
                rw [irqDisable, clear] at masks
                rw [Delays]
                cases old : cpu.oldI with
                | none =>
                    rw [old] at masks
                    cases masks
                | some b =>
                    rw [old] at masks
                    exact congrArg some masks
              have settled : ¬ cpu.settled.Delays := fun late => by cases late
              refine .inr (.inr ⟨rfl, settled, ?_⟩)
              rw [Cpu6502.wait, toGo_drained inst empty.live_eq, ended, if_pos delays]
              rfl

theorem Outcome.holds_off (outcome : Outcome v cpu lines bus exit cpu' bus') (ending : cpu.Ending)
    (running : ∀ i, cpu.currentInst = some i → i.mnemonic ≠ .jam) (inst : cpu.currentInst.isSome)
    (pending : cpu.pendingNmi = true) (unserved : exit ≠ .interrupt .nmi) : exit.starts = false ∧
      cpu'.currentInst = cpu.currentInst ∧ (exit = .stalled ∧ cpu' = cpu ∨ cpu'.toGo v < cpu.toGo v) := by
  have inside : exit.starts = false := by
    cases outcome with
    | stalled | ucyc | last | extraCycle => rfl
    | interrupt _ _ _ _ request =>
        rcases request with ⟨rfl, -⟩ | ⟨-, none, -⟩
        · exact absurd rfl unserved
        · cases pending.symm.trans none
    | fetch _ _ _ _ quiet => cases pending.symm.trans quiet
    | first _ none =>
        rw [none] at inst
        cases inst
  cases stalls : cpu.stalls lines with
  | false =>
      obtain ⟨same, less⟩ := outcome.toGo ending running stalls inside
      exact ⟨inside, same, .inr less⟩
  | true =>
      cases outcome with
      | stalled => exact ⟨rfl, rfl, .inl ⟨rfl, rfl⟩⟩
      | ucyc awake | last awake | extraCycle awake | interrupt awake | fetch awake | first awake =>
          cases stalls.symm.trans awake

end

section
variable {β : Type} [Bus β] {v : Variant} {prof : Profile} {s t : Cpu6502 × β} {line : Lines}
  {lines : List Lines} {exits : List StepExit}

/-- An IRQ that the core may take, as far as its I flag goes. -/
def IrqAsks (s : Cpu6502 × β) (lines : Lines) : Prop :=
  lines.irq = true ∧ flagSet s.1.p Psr.I = false ∧
    ∀ i, s.1.currentInst = some i → i.mnemonic ≠ .jam

theorem countP_works (exit : StepExit) (exits : List StepExit) : (exit :: exits).countP (·.works) ≤
    exits.countP (·.works) + 1 := by
  rw [List.countP_cons]
  split
  · exact le_rfl
  · exact Nat.le_succ _

theorem irq_wait (inv : s.1.Inv v) (ending : s.1.Ending) (inst : s.1.currentInst.isSome)
    (asks : Permitted (busCycle v prof) IrqAsks s lines)
    (ran : run (busCycle v prof) s lines = .ok (exits, t))
    (unserved : ∀ type, .interrupt type ∉ exits) : exits.countP (·.works) ≤ s.1.wait v := by
  induction lines generalizing s exits with
  | nil =>
      cases ran
      exact Nat.zero_le _
  | cons line lines ih =>
      obtain ⟨exit, u, rest, step, tail, rfl⟩ := run_cons_ok ran
      obtain ⟨⟨irq, clear, running⟩, asks⟩ := asks
      replace asks := asks exit u step
      obtain ⟨first, later⟩ : (∀ type, exit ≠ .interrupt type) ∧ ∀ type, .interrupt type ∉ rest :=
        ⟨fun type eq => unserved type (eq ▸ List.mem_cons_self),
          fun type mem => unserved type (List.mem_cons_of_mem _ mem)⟩
      have outcome := step_outcome inv step
      have inv' := outcome.inv (inv.sample line)
      have ending' := outcome.ending (ending.sample line)
      have more := countP_works exit rest
      rcases outcome.wait (inv.sample line) (ending.sample line) running inst irq clear first with
        ⟨rfl, same⟩ | ⟨inst', less⟩ | ⟨inst', settled, eight⟩
      · have bound := ih inv' ending' (same ▸ inst) asks tail later
        rw [same] at bound
        exact bound
      · exact more.trans (Nat.lt_of_le_of_lt (ih inv' ending' inst' asks tail later) less)
      · have bound := ih inv' ending' inst' asks tail later
        replace eight : s.1.wait v = 8 := eight
        rw [eight]
        refine more.trans (Nat.succ_le_succ ?_)
        cases lines with
        | nil =>
            cases tail
            exact Nat.zero_le 7
        | cons next lines =>
            rw [wait, if_neg settled] at bound
            exact bound.trans (ending'.toGo_le asks.1.2.2)

theorem nmi_wait (inv : s.1.Inv v) (ending : s.1.Ending) (inst : s.1.currentInst.isSome)
    (running : ∀ i, s.1.currentInst = some i → i.mnemonic ≠ .jam)
    (pending : ∀ line ∈ lines.head?, (s.1.sampleNmi line).pendingNmi = true)
    (ran : run (busCycle v prof) s lines = .ok (exits, t)) (unserved : .interrupt .nmi ∉ exits) :
    exits.countP (·.works) ≤ s.1.toGo v ∧ ∀ exit ∈ exits, exit.starts = false := by
  induction lines generalizing s exits with
  | nil =>
      cases ran
      exact ⟨Nat.zero_le _, fun _ mem => absurd mem List.not_mem_nil⟩
  | cons line lines ih =>
      obtain ⟨exit, u, rest, step, tail, rfl⟩ := run_cons_ok ran
      obtain ⟨first, later⟩ := List.ne_and_not_mem_of_not_mem_cons unserved
      have raised := pending line rfl
      have outcome := step_outcome inv step
      obtain ⟨inside, same, moves⟩ :=
        outcome.holds_off (ending.sample line) running inst raised (Ne.symm first)
      have still : u.1.pendingNmi = true := by
        rw [outcome.pendingNmi (inv.sample line), raised, decide_eq_true (Ne.symm first)]
        rfl
      obtain ⟨bound, none⟩ := ih (outcome.inv (inv.sample line)) (outcome.ending (ending.sample line))
        (same ▸ inst) (fun i inst' => running i (same.symm.trans inst'))
        (fun line' _ => by simp [sampleNmi, still]) tail later
      refine ⟨?_, List.forall_mem_cons.2 ⟨inside, none⟩⟩
      rcases moves with ⟨rfl, kept⟩ | less
      · rw [kept] at bound
        exact bound
      · exact (countP_works exit rest).trans (Nat.lt_of_le_of_lt bound less)

/-- In a core that is not in a JAM, an NMI is the next thing to begin and it begins within eight
cycles that do not stall. An IRQ that no I flag masks begins within sixteen, if it lasts. -/
theorem interrupt_latency (reach : s.1.Reachable β v prof) {i : Instruction}
    (inst : s.1.currentInst = some i) (running : i.mnemonic ≠ .jam)
    (ran : run (busCycle v prof) s (line :: lines) = .ok (exits, t)) :
    ((s.1.sampleNmi line).pendingNmi = true → .interrupt .nmi ∉ exits →
      exits.countP (·.works) ≤ 7 ∧ ∀ exit ∈ exits, exit.starts = false) ∧
    (Permitted (busCycle v prof) IrqAsks s (line :: lines) → (∀ type, .interrupt type ∉ exits) →
      exits.countP (·.works) ≤ 15) := by
  have begun : s.1.currentInst.isSome := by rw [inst]; rfl
  have runs : ∀ i, s.1.currentInst = some i → i.mnemonic ≠ .jam := by
    intro i' inst'
    cases inst.symm.trans inst'
    exact running
  have few := reach.ending.toGo_le (v := v) runs
  constructor
  · intro pending unserved
    obtain ⟨bound, none⟩ :=
      nmi_wait reach.inv reach.ending begun runs (fun _ mem => by cases mem; exact pending) ran unserved
    exact ⟨bound.trans few, none⟩
  · intro asks unserved
    refine (irq_wait reach.inv reach.ending begun asks ran unserved).trans ?_
    rw [wait]
    split
    · exact Nat.add_le_add_right few 8
    · exact few.trans (by decide)

end

set_option maxRecDepth 20000 in
theorem interrupt_latency_rra : ∃ exits t, run (busCycle .nmos6502 .release)
      (rraCpu, (⟨fun _ => 0x63⟩ : SimpleBus)) (List.replicate 7 { Lines.none with nmi := true }) =
        .ok (exits, t) ∧
    exits.countP (·.works) ≤ 7 ∧ exits = List.replicate 7 .ucyc := by
  have inst : rraCpu.currentInst = some ⟨.rra, .dpIndirect .x, .readModifyWrite⟩ := by decide
  obtain ⟨exits, t, ran, all⟩ : ∃ exits t, run (busCycle .nmos6502 .release)
      (rraCpu, (⟨fun _ => 0x63⟩ : SimpleBus)) (List.replicate 7 { Lines.none with nmi := true }) =
        .ok (exits, t) ∧ exits = List.replicate 7 .ucyc := ⟨_, _, rfl, rfl⟩
  have reach : rraCpu.Reachable SimpleBus .nmos6502 .release := follow_reaches new _ 1
  have unserved : .interrupt .nmi ∉ exits := by
    rw [all]
    decide
  have few := (@interrupt_latency _ _ .nmos6502 .release (rraCpu, (⟨fun _ => 0x63⟩ : SimpleBus)) t
    { Lines.none with nmi := true } (List.replicate 6 { Lines.none with nmi := true }) exits reach _ inst
    (by decide) ran).1 (by decide) unserved
  exact ⟨exits, t, ran, few.1, all⟩

end Cpu6502
end Rs65x
