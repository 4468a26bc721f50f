import Rs65x.Proof.Reach
import Rs65x.Lib.Latched

/-!
# Interrupt requests over whole runs
-/

namespace Rs65x
open Fallible Machine

namespace Cpu6502
variable {β : Type} [Bus β]

/-- The instruction is over, and so is the decimal cycle if one was to be inserted. -/
def InstructionOver (F : Flavor) (cpu : Cpu6502) : Prop :=
  ∃ i, cpu.currentInst = some i ∧ cpu.ucycs.isEmpty ∧ cpu.extraCycleDue F i = false

namespace Outcome
variable {v : Variant} {cpu cpu' : Cpu6502} {lines : Lines} {bus bus' : β} {exit : StepExit}

theorem not_instructionOver (inv : cpu.Inv v) {u : MicroOp} {rest : List MicroOp}
    (live : cpu.ucycs.live = u :: rest) : ¬ cpu.InstructionOver v.flavor := by
  rintro ⟨_, -, empty, -⟩
  simp [inv.wf.isEmpty_iff.1 empty] at live

theorem interrupt_iff (inv : cpu.Inv v) (outcome : Outcome v cpu lines bus exit cpu' bus')
    (type : InterruptType) :
    exit = .interrupt type ↔ cpu.stalls lines = false ∧ cpu.InstructionOver v.flavor ∧
      (type = .nmi ∧ cpu.pendingNmi = true ∨ type = .irq ∧ cpu.pendingNmi = false ∧
        lines.irq = true ∧ cpu.irqDisable = false) := by
  cases outcome with
  | stalled stalls => simp [stalls]
  | ucyc awake inst live | last awake inst live => simp [not_instructionOver inv live]
  | extraCycle awake inst empty due =>
      refine iff_of_false nofun ?_
      rintro ⟨-, ⟨i, inst', -, ended⟩, -⟩
      cases inst'.symm.trans inst
      simp [due] at ended
  | @interrupt i started q awake inst empty ended request =>
      have boundary : cpu.InstructionOver v.flavor :=
        ⟨i, inst, inv.wf.isEmpty_iff.2 empty.live_eq, ended⟩
      constructor
      · intro same
        cases same
        exact ⟨awake, boundary, request⟩
      · rintro ⟨-, -, asked⟩
        obtain ⟨rfl, nmi⟩ | ⟨rfl, none, -⟩ := request <;>
          obtain ⟨rfl, nmi'⟩ | ⟨rfl, none', -⟩ := asked <;> simp_all
  | fetch awake inst empty ended quiet masked =>
      refine iff_of_false nofun ?_
      rintro ⟨-, -, ⟨-, nmi⟩ | ⟨-, -, irq, clear⟩⟩
      · simp [quiet] at nmi
      · simp [irq, clear] at masked
  | first awake inst =>
      refine iff_of_false nofun ?_
      rintro ⟨-, ⟨i, inst', -⟩, -⟩
      cases inst'.symm.trans inst

end Outcome

/-! ## NMI -/

section Nmi
variable {v : Variant} {prof : Profile} {length : Nat}
  (t : Trace (cycle (β := β) v prof) new length)

def nmiBefore : Nat → Bool
  | 0 => false
  | n + 1 => (t.input n).1.nmi

def NmiEdge (n : Nat) : Prop := (t.input n).1.nmi = true ∧ nmiBefore t n = false

theorem trace_inv {n : Nat} (le : n ≤ length) : (t.state n).Inv v :=
  t.invariant (new_inv v) (fun inv run => cycle_inv inv run) le

theorem trace_prevNmi {n : Nat} (le : n ≤ length) : (t.state n).prevNmi = nmiBefore t n := by
  cases n with
  | zero => rw [t.state_zero]; rfl
  | succ n =>
      have inv := trace_inv t (n := n) (by omega)
      obtain ⟨_, outcome⟩ := cycle_outcome inv (t.next n (by omega))
      exact outcome.prevNmi (inv.sample _)

theorem trace_sampled {n : Nat} (le : n ≤ length) :
    ((t.state n).sampleNmi (t.input n).1).pendingNmi = true ↔
      NmiEdge t n ∨ (t.state n).pendingNmi = true := by
  simp only [sampleNmi, NmiEdge, trace_prevNmi t le]
  cases (t.input n).1.nmi <;> cases nmiBefore t n <;> simp

theorem trace_pendingNmi {n : Nat} (lt : n < length) : (t.state (n + 1)).pendingNmi = true ↔
    (NmiEdge t n ∨ (t.state n).pendingNmi = true) ∧ ¬ t.label n = .interrupt .nmi := by
  have inv := (trace_inv t (Nat.le_of_lt lt)).sample (t.input n).1
  obtain ⟨_, outcome⟩ := cycle_outcome (trace_inv t (Nat.le_of_lt lt)) (t.next n lt)
  rw [outcome.pendingNmi inv, Bool.and_eq_true, trace_sampled t (Nat.le_of_lt lt),
    decide_eq_true_eq]

/-- NMI edges are neither lost nor invented, and go before an IRQ. -/
theorem nmi_edges (n : Fin length) :
    ((t.state (n + 1)).pendingNmi = true ↔
      ∃ k ≤ n.val, NmiEdge t k ∧ ∀ j, k ≤ j → j ≤ n → t.label j ≠ .interrupt .nmi) ∧
    (t.label n = .interrupt .nmi ↔ (t.state n).stalls (t.input n).1 = false ∧
      (t.state n).InstructionOver v.flavor ∧
      ∃ k ≤ n.val, NmiEdge t k ∧ ∀ j, k ≤ j → j < n → t.label j ≠ .interrupt .nmi) ∧
    (t.label n = .interrupt .irq →
      ¬ ∃ k ≤ n.val, NmiEdge t k ∧ ∀ j, k ≤ j → j < n → t.label j ≠ .interrupt .nmi) := by
  have low : ¬ (t.state 0).pendingNmi = true := by rw [t.state_zero]; simp [new]
  have flag := Latched.flag_iff (fun k => (t.state k).pendingNmi = true) low
    (fun k lt => trace_pendingNmi t lt) n.isLt
  have inv := trace_inv t (Nat.le_of_lt n.isLt)
  obtain ⟨_, outcome⟩ := cycle_outcome inv (t.next n n.isLt)
  have starts := outcome.interrupt_iff (inv.sample (t.input n).1)
  have pending := trace_sampled t (Nat.le_of_lt n.isLt)
  refine ⟨Latched.flag_succ_iff (fun k => (t.state k).pendingNmi = true) low
    (fun k lt => trace_pendingNmi t lt) n.isLt, ?_, fun irq outstanding => ?_⟩
  · rw [starts]
    refine and_congr_right fun _ => and_congr_right fun _ => ?_
    refine Iff.trans ?_ flag
    simp [pending]
  · obtain ⟨-, -, ⟨nmi, -⟩ | ⟨-, none, -⟩⟩ := (starts .irq).1 irq
    · cases nmi
    · simp [pending.2 (flag.2 outstanding)] at none

end Nmi

end Cpu6502

/-! ## IRQ -/

def StepExit.enters : StepExit → Bool
  | .interrupt _ => true
  | _ => false

namespace Cpu6502
variable {β : Type} [Bus β]

/-- The instruction that has begun with status `p₀`, or as an interrupt entry, is under way. -/
structure Underway (v : Variant) (cpu : Cpu6502) (i : Instruction) (p₀ : U8) (entered : Bool) :
    Prop where
  inst : cpu.currentInst = some i
  running : cpu.ucycs.live ≠ [] → cpu.oldI = none ∧ (i.quiet → cpu.p = p₀)
  ended : cpu.ucycs.live = [] → cpu.oldI = if i.delaysIrq then some (flagSet p₀ Psr.I) else none
  entry : entered → i = v.decode 0 ∧ (cpu.ucycs.live = [] → flagSet cpu.p Psr.I)

theorem flagSet_setFlag_I (p : U8) : flagSet (Alu.setFlag p Psr.I true) Psr.I = true := by
  have all : ∀ p : U8, flagSet (Alu.setFlag p Psr.I true) Psr.I = true := by decide
  exact all p

theorem finished_brk (v : Variant) (cpu : Cpu6502) :
    flagSet (cpu.finished v.flavor (v.decode 0)).p Psr.I := by
  rw [decode_brk]
  exact flagSet_setFlag_I _

theorem delaysIrq_quiet {i : Instruction} (h : i.delaysIrq) : i.quiet := by
  simp [Instruction.quiet, h]

theorem quiet_status {v : Variant} {cpu : Cpu6502} (inv : cpu.Inv v) {i : Instruction}
    (quiet : i.quiet) (inst : cpu.currentInst = some i) {u : MicroOp} {rest us : List MicroOp}
    (live : cpu.ucycs.live = u :: rest) {bus : β} {e : Exec β}
    (next : (cpu.exec i bus).next v.flavor u rest = (e, us)) : e.ctx.status = cpu.p := by
  have laws := (inv.inst inst).2
  simp only [live, lawful, MicroOp.lawful, quiet, Bool.and_eq_true, Bool.not_true,
    Bool.false_or] at laws
  have kept := Exec.next_status v.flavor (cpu.exec i bus) rest laws.1.1.1.2
  rw [next] at kept
  exact kept

theorem Outcome.underway {v : Variant} {cpu cpu' : Cpu6502} {lines : Lines} {bus bus' : β}
    {exit : StepExit} (inv : cpu.Inv v) (outcome : Outcome v cpu lines bus exit cpu' bus')
    (starts : exit.starts = false) {i : Instruction} {p₀ : U8} {entered : Bool}
    (h : cpu.Underway v i p₀ entered) : cpu'.Underway v i p₀ entered := by
  cases outcome with
  | stalled => exact h
  | @ucyc i' u rest e us q awake inst live next wf live' more =>
      cases inst.symm.trans h.inst
      obtain ⟨none, kept⟩ := h.running (by simp [live])
      have running : q.live ≠ [] := live' ▸ more
      refine ⟨inst, fun _ => ⟨none, fun quiet => ?_⟩, fun ended => absurd ended running,
        fun entered => ⟨(h.entry entered).1, fun ended => absurd ended running⟩⟩
      exact (quiet_status inv quiet inst live next).trans (kept quiet)
  | @last i' u rest e q awake inst live next drained =>
      cases inst.symm.trans h.inst
      obtain ⟨none, kept⟩ := h.running (by simp [live])
      obtain ⟨a, x, y, s, p, eq⟩ := finished_frame inv inst e q
      have ended : ((cpu.restore e q).finished v.flavor i).ucycs.live = [] := by
        rw [eq]
        exact drained.live_eq
      refine ⟨by rw [eq]; exact inst, fun running => absurd ended running, fun _ => ?_,
        fun entered => ⟨(h.entry entered).1, fun _ => ?_⟩⟩
      · rw [eq]
        cases delays : i.delaysIrq with
        | true =>
            have quiet := delaysIrq_quiet delays
            simp [quiet_status inv quiet inst live next, kept quiet]
        | false => simpa using none
      · rw [(h.entry entered).1]
        exact finished_brk v _
  | extraCycle awake inst empty due => exact ⟨h.inst, h.running, h.ended, h.entry⟩
  | interrupt | fetch | first => cases starts

theorem Outcome.begins {v : Variant} {cpu cpu' : Cpu6502} {lines : Lines} {bus bus' : β}
    {exit : StepExit} (outcome : Outcome v cpu lines bus exit cpu' bus')
    (starts : exit.starts) (fresh : cpu.currentInst = none → cpu.oldI = none) :
    ∃ i, cpu'.Underway v i cpu.p exit.enters := by
  have fetched (op : U8) {q : UcycQueue} (live : q.live = v.emission op) (cpu : Cpu6502)
      (none : cpu.oldI = none) : (cpu.fetched v op q).Underway v (v.decode op) cpu.p false := by
    refine ⟨rfl, fun _ => ⟨none, fun _ => rfl⟩, fun ended => ?_, nofun⟩
    rw [(v.emission_spec op).2.2.1 (live.symm.trans ended)]
    exact none
  cases outcome with
  | stalled | ucyc | last | extraCycle => cases starts
  | @interrupt i type q awake inst empty ended request wf live' =>
      have running : q.live ≠ [] := by simp [live', interruptTail]
      exact ⟨v.decode 0, rfl, fun _ => ⟨rfl, fun _ => rfl⟩, fun ended => absurd ended running,
        fun _ => ⟨rfl, fun ended => absurd ended running⟩⟩
  | fetch awake inst empty ended quiet masked wf live' => exact ⟨_, fetched _ live' cpu.settled rfl⟩
  | first awake inst wf live' => exact ⟨_, fetched _ live' cpu (fresh inst)⟩

theorem Outcome.idle {v : Variant} {cpu cpu' : Cpu6502} {lines : Lines} {bus bus' : β}
    {exit : StepExit} (outcome : Outcome v cpu lines bus exit cpu' bus')
    (starts : exit.starts = false) (none : cpu.currentInst = none) : cpu' = cpu := by
  cases outcome with
  | stalled => rfl
  | ucyc awake inst | last awake inst | extraCycle awake inst => simp [none] at inst
  | interrupt | fetch | first => cases starts

section Irq
variable {v : Variant} {prof : Profile} {length : Nat}
  (t : Trace (cycle (β := β) v prof) new length)

def BegunAt (m n : Nat) : Prop :=
  m < n ∧ (t.label m).starts ∧ ∀ j, m < j → j < n → (t.label j).starts = false

theorem trace_underway {n : Nat} (le : n ≤ length) :
    ((t.state n).currentInst = none ∧ (t.state n).oldI = none) ∨
    ∃ m i, BegunAt t m n ∧ (t.state n).Underway v i (t.state m).p (t.label m).enters := by
  induction n with
  | zero =>
      rw [t.state_zero]
      exact .inl ⟨rfl, rfl⟩
  | succ n ih =>
      have inv := trace_inv t (n := n) (by omega)
      obtain ⟨_, outcome⟩ := cycle_outcome inv (t.next n (by omega))
      replace inv := inv.sample (t.input n).1
      cases starts : (t.label n).starts with
      | true =>
          have fresh : (t.state n).currentInst = none → (t.state n).oldI = none := by
            intro none
            obtain ⟨-, none'⟩ | ⟨m, i, -, h⟩ := ih (by omega)
            · exact none'
            · simp [h.inst] at none
          obtain ⟨i, begun⟩ := outcome.begins starts fresh
          exact .inr ⟨n, i, ⟨by omega, starts, fun j _ _ => by omega⟩, begun⟩
      | false =>
          obtain ⟨none, oldI⟩ | ⟨m, i, ⟨lt, began, since⟩, h⟩ := ih (by omega)
          · rw [outcome.idle starts none]
            exact .inl ⟨none, oldI⟩
          · refine .inr ⟨m, i, ⟨by omega, began, fun j gt lt' => ?_⟩,
              outcome.underway inv starts ⟨h.inst, h.running, h.ended, h.entry⟩⟩
            obtain rfl | lt' := (Nat.lt_succ_iff.1 lt').eq_or_lt
            · exact starts
            · exact since j gt lt'

/-- The I flag that decides on an IRQ at step `n`, for what began at step `m`. -/
def decidingI (m n : Nat) (i : Instruction) : Bool :=
  if i.mnemonic = .cli ∨ i.mnemonic = .sei ∨ i.mnemonic = .plp then flagSet (t.state m).p Psr.I
  else flagSet (t.state n).p Psr.I

/-- IRQ masking with the one-instruction delay of CLI, SEI and PLP. -/
theorem irq_masking (n : Fin length) (awake : (t.state n).stalls (t.input n).1 = false)
    (boundary : (t.state n).InstructionOver v.flavor) :
    ∃ m i, BegunAt t m n ∧ (t.state n).currentInst = some i ∧
      (t.label n = .interrupt .irq ↔ (t.input n).1.irq = true ∧
        ((t.state n).sampleNmi (t.input n).1).pendingNmi = false ∧ decidingI t m n i = false) ∧
      ((t.label m).enters → t.label n ≠ .interrupt .irq) ∧
      (flagSet (t.state m).p Psr.I → flagSet (t.state n).p Psr.I →
        t.label n ≠ .interrupt .irq) := by
  have inv := trace_inv t (Nat.le_of_lt n.isLt)
  obtain ⟨i, inst, empty, -⟩ := id boundary
  obtain ⟨none, -⟩ | ⟨m, i', begun, h⟩ := trace_underway t (Nat.le_of_lt n.isLt)
  · simp [none] at inst
  cases h.inst.symm.trans inst
  have ended := inv.wf.isEmpty_iff.1 empty
  have deciding : (t.state n).irqDisable = decidingI t m n i := by
    rw [irqDisable, h.ended ended, decidingI]
    cases delays : i.delaysIrq <;> simp_all [Instruction.delaysIrq, or_assoc]
  obtain ⟨_, outcome⟩ := cycle_outcome inv (t.next n n.isLt)
  have irq : t.label n = .interrupt .irq ↔ (t.input n).1.irq = true ∧
      ((t.state n).sampleNmi (t.input n).1).pendingNmi = false ∧ decidingI t m n i = false := by
    rw [outcome.interrupt_iff (inv.sample (t.input n).1), ← deciding]
    constructor
    · rintro ⟨-, -, ⟨nmi, -⟩ | ⟨-, none, irq, clear⟩⟩
      · cases nmi
      · exact ⟨irq, none, clear⟩
    · rintro ⟨irq, none, clear⟩
      exact ⟨awake, boundary, .inr ⟨rfl, none, irq, clear⟩⟩
  refine ⟨m, i, begun, inst, irq, fun entered starts => ?_, fun before now starts => ?_⟩
  · obtain ⟨brk, setI⟩ := h.entry entered
    rw [decode_brk] at brk
    have clear := (irq.1 starts).2.2
    simp [decidingI, brk, setI ended] at clear
  · have clear := (irq.1 starts).2.2
    simp [decidingI, before, now] at clear

end Irq

def nopTrace : Trace (cycle (β := SimpleBus) .nmos6502 .release) new 3 :=
  -- NOPs only, under an IRQ request that the I flag masks.
  releaseTrace .nmos6502 (fun _ => (⟨true, false, true⟩, ⟨fun _ => 0xEA⟩)) 3

set_option maxRecDepth 20000 in
theorem irq_masking_nop : ∃ m i, BegunAt nopTrace m 2 ∧ (nopTrace.state 2).currentInst = some i ∧
    (nopTrace.label 2 = .interrupt .irq ↔ (nopTrace.input 2).1.irq = true ∧
      ((nopTrace.state 2).sampleNmi (nopTrace.input 2).1).pendingNmi = false ∧
      decidingI nopTrace m 2 i = false) ∧
    ((nopTrace.label m).enters → nopTrace.label 2 ≠ .interrupt .irq) ∧
    (flagSet (nopTrace.state m).p Psr.I → flagSet (nopTrace.state 2).p Psr.I →
      nopTrace.label 2 ≠ .interrupt .irq) :=
  irq_masking nopTrace 2 (by decide)
    ⟨⟨.nop, .noMemory .implied, .read⟩, by decide, by decide, by decide⟩

end Cpu6502

end Rs65x
