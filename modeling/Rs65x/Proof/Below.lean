import Rs65x.Proof.Step

/-!
# What a debug build does, a release build does
-/

namespace Rs65x
open Fallible

theorem UcycQueue.decHead_below (q : UcycQueue) : Below (q.decHead .debug) (q.decHead .release) := by
  unfold decHead retreat
  exact .ite (.error _) (.same _)

namespace Exec
variable {β : Type} (F : Flavor) (e : Exec β)

theorem finishAlu_below (alu : AluOp) (fixedAddr : Option U32) (queue : UcycQueue) :
    Below (e.finishAlu F .debug alu fixedAddr queue) (e.finishAlu F .release alu fixedAddr queue) := by
  cases alu with
  | modify => exact ((e.ctx.aluModify_always F e.scratch).below _ _).bind fun _ => .same _
  | branch => exact ((e.ctx.aluBranch_always e.scratch).below _ _).bind fun _ => .same _
  | jam => exact queue.decHead_below.bind fun _ => .same _
  | fixPtr =>
      refine .ite (.bind ?_ fun _ => .same _) (.same _)
      intro ptr sum
      unfold plainAdd at sum ⊢
      split at sum
      · cases sum
      · simpa using sum
  | _ => exact .same _

variable [Bus β]

theorem execUcyc_below (u : MicroOp) (queue : UcycQueue) :
    Below (e.execUcyc F .debug u queue) (e.execUcyc F .release u queue) := by
  unfold execUcyc
  refine .bind ?_ fun addr => .ite (.bind (.same _) fun e => ?_) (.bind (.same _) fun e => ?_)
  · cases latch : u.bus.addr with
    | sp =>
        rw [MicroExecutor.addressOf_sp, MicroExecutor.addressOf_sp]
        exact .same _
    | _ => exact .same _
  · exact e.finishAlu_below F _ _ _
  · exact e.finishAlu_below F _ _ _

theorem executeNext_below (queue : UcycQueue) :
    Below (e.executeNext F .debug queue) (e.executeNext F .release queue) := by
  unfold executeNext
  split
  · exact .same _
  · exact (e.execUcyc_below F _ _).bind fun _ => .same _

end Exec

namespace Cpu6502
variable {β : Type} [Bus β] (v : Variant) (cpu : Cpu6502) (bus : β)

theorem finishInstruction_below (i : Instruction) (inst : cpu.currentInst.isSome) :
    Below (cpu.finishInstruction v.flavor .debug i) (cpu.finishInstruction v.flavor .release i) := by
  rw [finishInstruction_eq, finishInstruction_eq]
  refine .bind (.ite ?_ (.same _)) fun _ => .same _
  exact (finishRead_always v.flavor inst i.mnemonic).below _ _

theorem fetchInstruction_below : Below (cpu.fetchInstruction v.flavor .debug bus)
    (cpu.fetchInstruction v.flavor .release bus) := by
  unfold fetchInstruction
  refine .bind ?_ fun _ => .same _
  unfold prepareInstruction
  refine .bind ?_ fun _ => .same _
  obtain ⟨-, -, -, emits⟩ := v.emission_spec (cpu.fetchOpcode bus).1
  intro us emitted
  exact (emits .release).trans ((emits .debug).symm.trans emitted)

theorem startInterrupt_below (type : InterruptType) :
    Below (cpu.startInterrupt v.flavor .debug bus type)
      (cpu.startInterrupt v.flavor .release bus type) := by
  unfold startInterrupt
  refine .bind (.same _) fun us => .bind (.same _) fun ucycs => .bind ?_ fun _ => .same _
  exact Exec.executeNext_below v.flavor _ ucycs

theorem boundary_below (i : Instruction) (lines : Lines) :
    Below (cpu.boundary v.flavor .debug i lines bus)
      (cpu.boundary v.flavor .release i lines bus) := by
  unfold boundary
  refine .ite (.same _) (.ite ?_ (.ite ?_ ?_))
  · exact (startInterrupt_below v _ bus .nmi).bind fun _ => .same _
  · exact (startInterrupt_below v _ bus .irq).bind fun _ => .same _
  · exact (fetchInstruction_below v _ bus).bind fun _ => .same _

theorem step_below (lines : Lines) :
    Below (cpu.step v.flavor .debug lines bus) (cpu.step v.flavor .release lines bus) := by
  unfold step
  refine .ite (.same _) ?_
  cases inst : (cpu.sampleNmi lines).currentInst with
  | none => exact (fetchInstruction_below v _ bus).bind fun _ => .same _
  | some i =>
      refine .bind (Exec.executeNext_below v.flavor _ _) fun r => ?_
      obtain ⟨result, e, ucycs⟩ := r
      cases result with
      | pending =>
          refine .ite (.bind ?_ fun _ => .same _) (.same _)
          exact finishInstruction_below v _ i (by rw [restore, inst]; rfl)
      | doOpcodeFetch => exact boundary_below v _ e.bus i lines

end Cpu6502

end Rs65x
