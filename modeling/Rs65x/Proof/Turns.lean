import Rs65x.Lib.Worklist
import Rs65x.Proof.Reach

/-!
# The cycles of one instruction

Between its opcode fetch and the next boundary a core works off the live micro-ops.
-/

namespace Rs65x
open Fallible Machine Worklist

abbrev Exec.Turns {β : Type} [Bus β] (F : Flavor) :
    Exec β → List MicroOp → Nat → Exec β → List MicroOp → Prop :=
  Works (fun e u rest => e.next F u rest) fun e u => ¬ (u.alu = .fixPtr ∧ e.scratch.ptr = 0xFF00)

/-- In a release build the additions of `FixPtr` wrap. -/
abbrev Exec.TurnsIn {β : Type} [Bus β] (prof : Profile) (F : Flavor) :
    Exec β → List MicroOp → Nat → Exec β → List MicroOp → Prop :=
  Works (fun e u rest => e.next F u rest) fun e u =>
    prof = .release ∨ ¬ (u.alu = .fixPtr ∧ e.scratch.ptr = 0xFF00)

theorem Exec.Turns.anywhere {β : Type} [Bus β] {F : Flavor} {e e' : Exec β} {us left : List MicroOp}
    {n : Nat} (turns : Exec.Turns F e us n e' left) (prof : Profile) :
    Exec.TurnsIn prof F e us n e' left :=
  Works.mono turns fun _ _ => .inr

def AluOp.fixesPtr : AluOp → Bool
  | .fixPtr => true
  | _ => false

theorem Exec.fits {β : Type} {u : MicroOp} {e : Exec β} (other : u.alu.fixesPtr = false) :
    ¬ (u.alu = .fixPtr ∧ e.scratch.ptr = 0xFF00) := by
  rintro ⟨alu, -⟩
  simp [alu, AluOp.fixesPtr] at other

namespace Cpu6502
variable {β : Type} [Bus β]

structure Executing (cpu : Cpu6502) (i : Instruction) (e : Exec β) : Prop where
  inst : cpu.currentInst = some i
  exec : cpu.exec i e.bus = e

structure Kept (cpu : Cpu6502) (cycles : List Lines) (c : Cpu6502) : Prop where
  extra : c.extraAdcSbcCycle = cpu.extraAdcSbcCycle
  oldI : c.oldI = cpu.oldI
  nmi : (∀ lines ∈ cycles, lines.nmi = cpu.prevNmi) →
    c.prevNmi = cpu.prevNmi ∧ c.pendingNmi = cpu.pendingNmi

theorem Kept.trans {cpu c c' : Cpu6502} {lines : Lines} {cycles : List Lines}
    (first : cpu.Kept [lines] c) (rest : c.Kept cycles c') : cpu.Kept (lines :: cycles) c' where
  extra := rest.extra.trans first.extra
  oldI := rest.oldI.trans first.oldI
  nmi held := by
    rw [List.forall_mem_cons] at held
    obtain ⟨prev, pending⟩ := first.nmi (by simpa using held.1)
    rw [← prev, ← pending]
    exact rest.nmi (prev ▸ held.2)

theorem Executing.restore {cpu : Cpu6502} {i : Instruction} {e : Exec β}
    (executing : cpu.Executing i e) {F : Flavor} {u : MicroOp} {rest us : List MicroOp} {e' : Exec β}
    (next : e.next F u rest = (e', us)) (lines : Lines) (q : UcycQueue) :
    ((cpu.sampleNmi lines).restore e' q).Executing i e' := by
  obtain ⟨inst, exec⟩ := executing
  obtain ⟨scratch, pc, sp, a, status, eq, -⟩ := e.next_frame F u rest
  rw [next] at eq
  have ctx : e.ctx = cpu.toCtx i := congrArg Exec.ctx exec.symm
  rw [ctx] at eq
  replace eq : e' = _ := eq
  refine ⟨inst, ?_⟩
  rw [eq]
  rfl

theorem step_turn {v : Variant} {cpu : Cpu6502} (inv : cpu.Inv v) {i : Instruction} {e e' : Exec β}
    (executing : cpu.Executing i e) {u : MicroOp} {rest us : List MicroOp}
    (live : cpu.ucycs.live = u :: rest) (next : e.next v.flavor u rest = (e', us))
    (prof : Profile) (fits : prof = .release ∨ ¬ (u.alu = .fixPtr ∧ e.scratch.ptr = 0xFF00))
    {lines : Lines} (awake : (cpu.sampleNmi lines).stalls lines = false) :
    ∃ c : Cpu6502, c.Executing i e' ∧ cpu.Kept [lines] c ∧ c.ucycs.Wf ∧ c.ucycs.live = us ∧
      cpu.step v.flavor prof lines e.bus =
        .ok (.ucyc, if us = [] then c.finished v.flavor i else c, e'.bus) := by
  have inst := executing.inst
  have scratch : cpu.scratch = e.scratch := congrArg Exec.scratch executing.exec
  have small : prof = .release ∨ cpu.ptrOverflows = false := by
    refine fits.imp_right fun fits => ?_
    simp only [ptrOverflows, UcycQueue.front_eq, live, List.head?_cons, Option.any_some, scratch,
      Bool.and_eq_false_iff, decide_eq_false_iff_not]
    exact not_and_or.1 fits
  have kept (q : UcycQueue) : cpu.Kept [lines] ((cpu.sampleNmi lines).restore e' q) :=
    ⟨rfl, rfl, fun held => by simp [restore, sampleNmi, held lines]⟩
  obtain ⟨exit, cpu', bus', run, outcome⟩ := step_spec inv lines e.bus small
  have same : (cpu.sampleNmi lines).exec i e.bus = e := executing.exec
  cases outcome with
  | stalled stalls => simp [awake] at stalls
  | @ucyc i' u' rest' e₁ us₁ q _ inst' live' next' wf liveq more =>
      cases inst.symm.trans inst'
      cases live.symm.trans live'
      rw [same, next] at next'
      cases next'
      exact ⟨_, executing.restore next lines q, kept q, wf, liveq, by rw [run, if_neg more]⟩
  | @last i' u' rest' e₁ q _ inst' live' next' drained =>
      cases inst.symm.trans inst'
      cases live.symm.trans live'
      rw [same, next] at next'
      cases next'
      exact ⟨_, executing.restore next lines q, kept q, drained.wf, drained.live_eq, by rw [run, if_pos rfl]⟩
  | extraCycle _ _ empty | interrupt _ _ empty | fetch _ _ empty =>
      cases live.symm.trans empty.live_eq
  | first _ none => cases inst.symm.trans none

theorem turns_run {v : Variant} {cpu : Cpu6502} (inv : cpu.Inv v) {i : Instruction} {e e' : Exec β}
    (executing : cpu.Executing i e) {n : Nat}
    {prof : Profile}
    (turns : Exec.TurnsIn prof v.flavor e cpu.ucycs.live (n + 1) e' []) {cycles : List Lines}
    (length : cycles.length = n + 1) (rdy : ∀ lines ∈ cycles, lines.rdy = true) :
    ∃ c : Cpu6502, c.Executing i e' ∧ cpu.Kept cycles c ∧ c.ucycs.Drained ∧
      (c.finished v.flavor i).Inv v ∧
      run (busCycle v prof) (cpu, e.bus) cycles =
        .ok (List.replicate (n + 1) .ucyc, (c.finished v.flavor i, e'.bus)) := by
  induction cycles generalizing cpu e n with
  | nil => cases length
  | cons lines cycles ih =>
      rw [List.forall_mem_cons] at rdy
      cases live : cpu.ucycs.live with
      | nil => cases (live ▸ turns).cases_nil.1
      | cons u rest =>
          rw [live] at turns
          obtain ⟨fits, m, eq, turns⟩ := turns.cases_cons
          cases eq
          rcases next : e.next v.flavor u rest with ⟨e₁, us⟩
          rw [next] at turns
          have awake : (cpu.sampleNmi lines).stalls lines = false := by simp [stalls, rdy.1]
          obtain ⟨c, executing₁, kept, wf, live₁, run₁⟩ :=
            step_turn inv executing live next prof fits awake
          have inv₁ := (step_outcome inv run₁).inv (inv.sample lines)
          cases us with
          | nil =>
              obtain ⟨rfl, rfl⟩ := turns.cases_nil
              obtain rfl := List.length_eq_zero_iff.1 (Nat.succ.inj length)
              exact ⟨c, executing₁, kept, wf.live_eq_nil.1 live₁, inv₁, run_cons [] run₁⟩
          | cons u₁ us =>
              obtain _ | n := n
              · cases turns
              · rw [if_neg (List.cons_ne_nil _ _)] at run₁ inv₁
                obtain ⟨c', executing', kept', drained, inv', run'⟩ :=
                  ih inv₁ executing₁ (live₁ ▸ turns) (Nat.succ.inj length) rdy.2
                refine ⟨c', executing', kept.trans kept', drained, inv', ?_⟩
                rw [run_cons cycles run₁, run']
                rfl

end Cpu6502

end Rs65x
