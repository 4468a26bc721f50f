import Rs65x.Proof.Programs

/-!
# The storage of the queue
-/

namespace Rs65x
open Fallible Machine

namespace UcycQueue

/-- Both indices are inside the storage, and it is recycled as soon as nothing is live. -/
structure Within (q : UcycQueue) : Prop where
  head_le : q.head ≤ q.len
  len_le : q.len ≤ 14
  recycled : q.head < q.len ∨ q.head = 0 ∧ q.len = 0

theorem Wf.within {q : UcycQueue} (wf : q.Wf) : q.Within := by
  obtain ⟨len_le, recycled⟩ := wf
  refine ⟨?_, len_le, recycled⟩
  rcases recycled with lt | ⟨head, len⟩
  · exact Nat.le_of_lt lt
  · omega

def Fills (q : UcycQueue) (us : List MicroOp) (q' : UcycQueue) : Prop :=
  q.head = 0 ∧ q.len = 0 ∧ q.pushAll us = .ok q' ∧ q'.head = 0 ∧ q'.len = us.length ∧ q'.len ≤ 14

theorem Drained.fills {q q' : UcycQueue} (drained : q.Drained) {us : List MicroOp}
    (few : us.length ≤ maxUcyc) (pushes : q.pushAll us = .ok q') : q.Fills us q' := by
  have room : q.len + us.length ≤ maxUcyc := by simpa [drained.2] using few
  obtain ⟨q₁, run, head, len, -⟩ := pushAll_append us q room
  cases pushes.symm.trans run
  refine ⟨drained.1, drained.2, pushes, head.trans drained.1, ?_, ?_⟩
  · rw [len, drained.2, Nat.zero_add]
  · rw [len]
    exact room

end UcycQueue

namespace Cpu6502
variable {β : Type} [Bus β] {v : Variant} {prof : Profile} {cpu cpu' : Cpu6502} {lines : Lines}
  {bus bus' : β}

theorem prepareInstruction_fills {op : U8} (drained : cpu.ucycs.Drained)
    (run : cpu.prepareInstruction v.flavor prof op = .ok cpu') :
    cpu'.currentOpcode = op ∧ cpu.ucycs.Fills (v.emission op) cpu'.ucycs := by
  obtain ⟨few, -, -, emits⟩ := v.emission_spec op
  simp only [prepareInstruction] at run
  change (AddressMode.emitUcycs prof v.flavor.micro (v.decode op).addressMode
    (decodeContext v.flavor (v.decode op).memoryAction op) >>= _) = _ at run
  rw [emits, ok_bind] at run
  simp only [bind_eq_ok] at run
  obtain ⟨q, pushes, eq⟩ := run
  cases eq
  exact ⟨rfl, drained.fills few pushes⟩

theorem fetchInstruction_fills (drained : cpu.ucycs.Drained)
    (run : cpu.fetchInstruction v.flavor prof bus = .ok (cpu', bus')) :
    cpu.ucycs.Fills (v.emission cpu'.currentOpcode) cpu'.ucycs := by
  simp only [fetchInstruction, bind_eq_ok] at run
  obtain ⟨c, prepares, eq⟩ := run
  cases eq
  have drained' : (cpu.fetchOpcode bus).2.1.ucycs.Drained := drained
  obtain ⟨opcode, fills⟩ := prepareInstruction_fills drained' prepares
  rw [opcode]
  exact fills

theorem startInterrupt_fills {type : InterruptType} (hardware : type = .nmi ∨ type = .irq)
    (drained : cpu.ucycs.Drained)
    (run : cpu.startInterrupt v.flavor prof bus type = .ok (cpu', bus')) :
    ∃ q, cpu.ucycs.Fills (.read .pc .none false :: interruptTail type.vector) q ∧
      cpu'.ucycs = q.pop.2 := by
  have emits := emitInt_eq v (decodeContext v.flavor (v.decode 0).memoryAction 0) hardware
  simp only [startInterrupt] at run
  change (v.flavor.micro.emitInt (decodeContext v.flavor (v.decode 0).memoryAction 0) type >>= _) = _ at run
  rw [emits, ok_bind] at run
  simp only [bind_eq_ok] at run
  obtain ⟨q, pushes, ⟨result, e, q'⟩, executed, eq⟩ := run
  cases eq
  have few : (MicroOp.read .pc .none false :: interruptTail type.vector).length ≤ maxUcyc := by
    simp [interruptTail, maxUcyc]
  refine ⟨q, UcycQueue.Drained.fills drained few pushes, ?_⟩
  obtain ⟨q₀, pushes₀, wf, live⟩ := UcycQueue.Drained.pushAll drained few
  cases pushes.symm.trans pushes₀
  obtain ⟨q₁, pop, -⟩ := wf.pop_cons live
  simp only [Exec.executeNext, pop] at executed
  rw [pop]
  simp only [bind_eq_ok, Prod.exists] at executed
  obtain ⟨e', q₂, ran, eq⟩ := executed
  cases eq
  exact (Prod.mk.inj (Except.ok.inj ran)).2.symm

theorem step_emits (drained : cpu.ucycs.Drained) {exit : StepExit}
    (run : cpu.step v.flavor prof lines bus = .ok (exit, cpu', bus')) :
    match exit with
    | .opcodeFetch => ∃ c : Cpu6502, c.ucycs = cpu.ucycs ∧
        c.fetchInstruction v.flavor prof bus = .ok (cpu', bus')
    | .interrupt type => (type = .nmi ∨ type = .irq) ∧ ∃ c : Cpu6502, c.ucycs = cpu.ucycs ∧
        c.startInterrupt v.flavor prof bus type = .ok (cpu', bus')
    | _ => True := by
  simp only [step] at run
  split at run
  · cases run
    trivial
  split at run
  · simp only [bind_eq_ok, Prod.exists] at run
    obtain ⟨c, b, ran, eq⟩ := run
    cases eq
    exact ⟨cpu.sampleNmi lines, rfl, ran⟩
  · have empty : (cpu.sampleNmi lines).ucycs.live = [] := drained.live_eq
    simp only [Exec.executeNext, UcycQueue.pop_nil empty, ok_bind, pure_eq, boundary] at run
    split at run
    · simp only [bind_eq_ok] at run
      obtain ⟨addr, -, eq⟩ := run
      cases eq
      trivial
    split at run
    · simp only [bind_eq_ok, Prod.exists] at run
      obtain ⟨c, b, ran, eq⟩ := run
      cases eq
      refine ⟨.inl rfl, _, ?_, ran⟩
      rfl
    split at run
    · simp only [bind_eq_ok, Prod.exists] at run
      obtain ⟨c, b, ran, eq⟩ := run
      cases eq
      refine ⟨.inr rfl, _, ?_, ran⟩
      rfl
    · simp only [bind_eq_ok, Prod.exists] at run
      obtain ⟨c, b, ran, eq⟩ := run
      cases eq
      refine ⟨_, ?_, ran⟩
      rfl

theorem step_leaves (inv : cpu.Inv v) {i : Instruction} (inst : cpu.currentInst = some i)
    (awake : (cpu.sampleNmi lines).stalls lines = false) {u : MicroOp} {q : UcycQueue}
    (pop : cpu.ucycs.pop = (some u, q)) {exit : StepExit}
    (run : cpu.step v.flavor prof lines bus = .ok (exit, cpu', bus')) :
    ∃ e, (cpu.exec i bus).execUcyc v.flavor prof u q = .ok (e, cpu'.ucycs) := by
  rw [step_executes inv inst awake pop, bind_eq_ok] at run
  obtain ⟨⟨e, q'⟩, ran, eq⟩ := run
  cases eq
  have restored : ((cpu.sampleNmi lines).restore e q').currentInst = some i := inst
  have kept := (finished_rest v.flavor restored).2.1
  refine ⟨e, ran.trans ?_⟩
  split
  · rw [kept]
    rfl
  · rfl

/-- What the next micro-op may do with the queue that it has been taken from. -/
structure PopSafe (cpu : Cpu6502) (u : MicroOp) (q : UcycQueue) : Prop where
  within : q.Within
  branch : u.alu = .branch → q.head = 0 ∧ q.len = 0
  drops : ∀ offset, u.alu = .offsetWithExtraCycle offset →
    cpu.scratch.memoryAction = .readModifyWrite → q.front = some (.read .ea .op0 false)
  jam : u.alu = .jam → 0 < q.head

theorem Inv.popped (inv : cpu.Inv v) {u : MicroOp} {q : UcycQueue}
    (pop : cpu.ucycs.pop = (some u, q)) : ∃ i rest, cpu.currentInst = some i ∧
      cpu.ucycs.live = u :: rest ∧ q.Wf ∧ q.live = rest ∧ u.fits rest ∧
      (rest ≠ [] → ∀ prof, q.decHead prof = .ok cpu.ucycs) := by
  cases live : cpu.ucycs.live with
  | nil => cases (UcycQueue.pop_nil live).symm.trans pop
  | cons u' rest =>
      obtain ⟨q', pop', wf, live', back⟩ := inv.wf.pop_cons live
      cases pop.symm.trans pop'
      cases inst : cpu.currentInst with
      | none => cases live.symm.trans (inv.idle inst).live_eq
      | some i =>
          have laws := (inv.inst inst).2
          rw [live] at laws
          exact ⟨i, rest, rfl, rfl, wf, live', lawful_fits laws, back⟩

theorem Reachable.popSafe (reach : cpu.Reachable β v prof) {u : MicroOp} {q : UcycQueue}
    (pop : cpu.ucycs.pop = (some u, q)) : cpu.PopSafe u q := by
  obtain ⟨i, rest, inst, live, wf, live', fits, back⟩ := reach.inv.popped pop
  obtain ⟨story, told⟩ := reach.told
  obtain ⟨-, tracks⟩ := told.tracks
  refine ⟨wf.within, fun branch => ?_, fun offset alu modify => ?_, fun jam => ?_⟩
  · simp only [MicroOp.fits, branch, Bool.and_eq_true, List.isEmpty_iff] at fits
    exact wf.live_eq_nil.1 (live'.trans fits.2)
  · rcases story with ⟨_ | begun, writes⟩
    · cases inst.symm.trans tracks
    · have drops := Runs.drops tracks live
      have action : begun.action v = .readModifyWrite := tracks.action.symm.trans modify
      simp only [MicroOp.drops, alu, action, Bool.and_eq_true, Bool.or_eq_true,
        decide_eq_true_eq] at drops
      rw [UcycQueue.front_eq, live']
      exact drops.2.resolve_left (by decide)
  · simp only [MicroOp.fits, jam, Bool.and_eq_true, Bool.not_eq_true',
      List.isEmpty_eq_false_iff] at fits
    have rewinds := back fits.2 .debug
    simp only [UcycQueue.decHead, UcycQueue.retreat] at rewinds
    split at rewinds
    · cases rewinds
    · omega

/-- The queue stays inside its storage, is empty whenever it is filled, and drops and rewinds only
what it should. -/
theorem queue_safety (reach : cpu.Reachable β v prof) :
    cpu.ucycs.Within ∧ (∀ u q, cpu.ucycs.pop = (some u, q) → cpu.PopSafe u q) ∧
    ∀ lines (bus : β),
      (∀ fault, cpu.step v.flavor prof lines bus = .error fault →
        fault = .overflow ∧ cpu.ptrOverflows) ∧
      ∀ exit cpu' bus', cpu.step v.flavor prof lines bus = .ok (exit, cpu', bus') →
        (exit = .opcodeFetch → cpu.ucycs.Fills (v.emission cpu'.currentOpcode) cpu'.ucycs) ∧
        (∀ type, exit = .interrupt type → ∃ q, cpu'.ucycs = q.pop.2 ∧
          cpu.ucycs.Fills (.read .pc .none false :: interruptTail type.vector) q) ∧
        ∀ u q, exit = .ucyc → cpu.ucycs.pop = (some u, q) → u.alu = .branch →
          ∃ us, us.length ≤ 2 ∧ q.Fills us cpu'.ucycs := by
  have inv := reach.inv
  refine ⟨inv.wf.within, fun u q pop => reach.popSafe pop, fun lines bus => ⟨?_, ?_⟩⟩
  · intro fault faults
    rcases step_cases inv prof lines bus with ⟨_, _, _, run, -⟩ | ⟨-, -, large, panics⟩
    · cases run.symm.trans faults
    · cases panics.symm.trans faults
      exact ⟨rfl, large⟩
  · intro exit cpu' bus' run
    have outcome := step_outcome inv run
    refine ⟨?_, ?_, ?_⟩
    · rintro rfl
      have drained : cpu.ucycs.Drained := by
        cases outcome with
        | fetch _ _ empty => exact empty
        | first _ idle => exact inv.idle idle
      obtain ⟨c, same, fetches⟩ := step_emits drained run
      rw [← same] at drained ⊢
      exact fetchInstruction_fills drained fetches
    · rintro type rfl
      have drained : cpu.ucycs.Drained := by
        cases outcome with
        | interrupt _ _ empty => exact empty
      obtain ⟨hardware, c, same, starts⟩ := step_emits drained run
      rw [← same] at drained ⊢
      obtain ⟨q, fills, popped⟩ := startInterrupt_fills hardware drained starts
      exact ⟨q, popped, fills⟩
    · rintro u q rfl pop branch
      have drained : q.Drained := (reach.popSafe pop).branch branch
      obtain ⟨i, rest, inst, -, -, -, fits, -⟩ := inv.popped pop
      have awake : (cpu.sampleNmi lines).stalls lines = false := by
        cases outcome with
        | ucyc awake | last awake => exact awake
      obtain ⟨e, ran⟩ := step_leaves inv inst awake pop run
      simp only [MicroOp.fits, Bool.and_eq_true] at fits
      rw [Exec.execUcyc_eq _ _ _ fits.1, branch, Exec.finishBranch_pushes _ _ _ _ drained,
        bind_eq_ok] at ran
      obtain ⟨q', pushes, eq⟩ := ran
      cases eq
      have few := Exec.branchTail_length ((cpu.exec i bus).body v.flavor u).1
      exact ⟨_, few, drained.fills (Nat.le_trans few (by decide)) pushes⟩

set_option maxRecDepth 20000 in
theorem queue_safety_bne : ∃ (cpu : Cpu6502) (u : MicroOp) (q : UcycQueue),
    cpu.ucycs.pop = (some u, q) ∧ u.alu = .branch ∧ cpu.ucycs.Within ∧ q.head = 0 ∧ q.len = 0 := by
  obtain ⟨cpu, u, q, called, pop, branch⟩ : ∃ (cpu : Cpu6502) (u : MicroOp) (q : UcycQueue),
      new.call .nmos6502 .debug (.step Lines.none (⟨fun _ => 0xD0⟩ : SimpleBus)) =
        .ok ([.read 0 false true 0xD0], cpu) ∧ cpu.ucycs.pop = (some u, q) ∧ u.alu = .branch :=
    ⟨_, _, _, rfl, rfl, rfl⟩
  have reach : cpu.Reachable SimpleBus .nmos6502 .debug := .tail .refl trivial called
  obtain ⟨within, safe, -⟩ := queue_safety reach
  exact ⟨cpu, u, q, pop, branch, within, (safe u q pop).branch branch⟩

end Cpu6502

end Rs65x
