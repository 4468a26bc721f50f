import Rs65x.Proof.Documented

/-!
# Documented instructions from their fetch to their completion
-/

namespace Rs65x
open Fallible Alu Words

def Mnemonic.isIdle (op : Mnemonic) : Bool :=
  op.isImplied || op.isBranch || op = .jmp || op = .jsr || op = .rts || op = .rti

namespace Cpu6502

theorem finishRead_idle (F : Flavor) (prof : Profile) (cpu : Cpu6502) {op : Mnemonic}
    (idle : op.isIdle) : cpu.finishRead F prof op = .ok cpu := by
  cases op <;> first | rfl | cases idle

theorem finished_idle (F : Flavor) (cpu : Cpu6502) {i : Instruction}
    (idle : i.mnemonic.isIdle ∨ i.memoryAction ≠ .read) : cpu.finished F i = cpu.completed i := by
  rw [finished, finishInstruction_eq]
  split
  · next read => rw [finishRead_idle F .release cpu (idle.resolve_right (not_not.2 read)), ok_bind, get_ok]
  · rfl

end Cpu6502

namespace Arch
variable (s : Arch)

/-- At `e` the micro-ops of the instruction at PC are done, and its completion leaves what the
programmer's model says, at a boundary. -/
def Completes (v : Variant) (e : Exec (Recorder SimpleBus)) : Prop :=
  ∀ c : Cpu6502, c.Executing (v.decode s.opcode) e →
    (c.finished v.flavor (v.decode s.opcode)).arch e.bus.bus.ram = s.perform (v.decode s.opcode) ∧
    (c.finished v.flavor (v.decode s.opcode)).extraCycleDue v.flavor (v.decode s.opcode) = false

theorem implied_pc (op : Mnemonic) (pc : U16) :
    ({ s with pc } : Arch).implied op = { s.implied op with pc } := by
  cases op <;> rfl

theorem read_pc (op : Mnemonic) (value : U8) (pc : U16) :
    ({ s with pc } : Arch).read op value = { s.read op value with pc } := by
  cases op <;> rfl

variable {s} {v : Variant} {e : Exec (Recorder SimpleBus)}

theorem completes_of_arch (idle : (v.decode s.opcode).mnemonic.isIdle ∨
      (v.decode s.opcode).memoryAction ≠ .read)
    (nothing : ∀ c : Cpu6502, c.completed (v.decode s.opcode) = c)
    (other : (v.decode s.opcode).mnemonic ≠ .adc ∧ (v.decode s.opcode).mnemonic ≠ .sbc)
    (eq : e.arch = s.perform (v.decode s.opcode)) : s.Completes v e := by
  intro c executing
  rw [c.finished_idle _ idle, nothing, executing.arch, ← eq]
  exact ⟨rfl, Cpu6502.never_due _ other c⟩

theorem completes_implied (mode : (v.decode s.opcode).addressMode = .noMemory .implied)
    (implied : (v.decode s.opcode).mnemonic.isImplied)
    (eq : e.arch = { s with pc := s.pc + 1 }) : s.Completes v e := by
  intro c executing
  have idle : (v.decode s.opcode).mnemonic.isIdle := by simp [Mnemonic.isIdle, implied]
  have completed : c.completed (v.decode s.opcode) = c.finishImplied (v.decode s.opcode).mnemonic := by
    rw [Cpu6502.completed, mode]
  rw [c.finished_idle _ (.inl idle), completed]
  refine ⟨?_, Cpu6502.not_due _ _ fun arith => ?_⟩
  · rw [c.finishImplied_documented implied, executing.arch,
      show ({ e.arch with ram := e.bus.bus.ram } : Arch) = e.arch from rfl, eq, implied_pc, perform,
      mode]
    rfl
  · obtain h | h := arith <;> simp [h, Mnemonic.isImplied] at implied

theorem completes_read {t : Arch} {value : U8} (clear : flagSet s.p Psr.D = false)
    (reads : (v.decode s.opcode).mnemonic.usesRead)
    (read : (v.decode s.opcode).memoryAction = .read)
    (nothing : ∀ c : Cpu6502, c.completed (v.decode s.opcode) = c)
    (bit : (v.decode s.opcode).mnemonic = .bit →
      (v.decode s.opcode).addressMode ≠ .noMemory .immediate)
    (eq : e.arch = t) (status : t.p = s.p) (op0 : e.scratch.op0 = value)
    (result : t.read (v.decode s.opcode).mnemonic value = s.perform (v.decode s.opcode)) :
    s.Completes v e := by
  intro c executing
  have arch := executing.arch e.bus.bus.ram
  have p : c.p = s.p := by
    rw [← status, ← eq]
    exact congrArg Arch.p arch
  have latch : c.scratch.op0 = value := op0 ▸ congrArg (fun e => e.scratch.op0) executing.exec
  obtain ⟨done, finish, effect⟩ := c.finishRead_documented v.flavor .release reads
    (fun _ => p ▸ clear) fun eq => ⟨_, executing.inst, bit eq⟩
  have finished : c.finished v.flavor (v.decode s.opcode) = done := by
    rw [Cpu6502.finished, Cpu6502.finishInstruction_eq, if_pos read, finish, ok_bind, get_ok, nothing]
  have decimal (arith : (v.decode s.opcode).mnemonic = .adc ∨ (v.decode s.opcode).mnemonic = .sbc) :
      flagSet (c.finished v.flavor (v.decode s.opcode)).p Psr.D = false := by
    rw [Cpu6502.finished_decimal _ _ arith, p]
    exact clear
  refine ⟨?_, Cpu6502.not_due _ _ decimal⟩
  rw [finished, effect, arch, show ({ e.arch with ram := e.bus.bus.ram } : Arch) = e.arch from rfl, eq,
    latch, result]

theorem completes_brk {pushed : Arch} (clear : flagSet s.p Psr.D = false)
    (decoded : v.decode s.opcode = ⟨.brk, .interrupt .brk, .read⟩)
    (eq : e.arch = pushed) (status : pushed.p = s.p)
    (result : { pushed with p := setFlag s.p Psr.I true } = s.perform (v.decode s.opcode)) :
    s.Completes v e := by
  intro c executing
  have arch := executing.arch e.bus.bus.ram
  have p : c.p = s.p := by
    rw [← status, ← eq]
    exact congrArg Arch.p arch
  have keeps : c.setFlag Psr.D false = c := by
    have all : ∀ p : U8, flagSet p Psr.D = false → setFlag p Psr.D false = p := by decide
    rw [Cpu6502.setFlag, all c.p (p ▸ clear)]
  have finish : c.finishRead v.flavor .release .brk = .ok c := by
    simp only [Cpu6502.finishRead, keeps, ite_self]
    rfl
  have finished : c.finished v.flavor (v.decode s.opcode) = c.setFlag Psr.I true := by
    rw [Cpu6502.finished, Cpu6502.finishInstruction_eq, decoded, if_pos rfl, finish]
    rfl
  refine ⟨?_, Cpu6502.not_due _ _ ?_⟩
  · have set : (c.setFlag Psr.I true).arch e.bus.bus.ram =
        { c.arch e.bus.bus.ram with p := setFlag c.p Psr.I true } := rfl
    rw [finished, set, arch, show ({ e.arch with ram := e.bus.bus.ram } : Arch) = e.arch from rfl, eq,
      p, result]
  · rw [decoded]
    rintro (h | h) <;> cases h

theorem perform_operand {i : Instruction}
    (operand : i.addressMode.isMemory ∨ i.addressMode = .noMemory .immediate) :
    s.perform i = { s.operate i with pc := s.pc + i.addressMode.length } := by
  rw [perform]
  split <;> first
    | rfl
    | next mode => simp [mode, AddressMode.isMemory] at operand

theorem modify_isShift {op : Mnemonic} (shift : op.isShift) (decimal : DecimalSemantics)
    (a p old : U8) : op.modify decimal a p old = op.modify .none a p old := by
  cases op <;> first | rfl | cases shift

theorem not_arith (v : Variant) {op : U8} (action : (v.decode op).memoryAction ≠ .read) :
    (v.decode op).mnemonic ≠ .adc ∧ (v.decode op).mnemonic ≠ .sbc := by
  rw [v.decode_action] at action
  constructor <;> intro eq <;> rw [eq] at action <;> exact action rfl

theorem operand_turns (v : Variant) {s : Arch} (clear : flagSet s.p Psr.D = false)
    (operand : (v.decode s.opcode).addressMode.isMemory ∨
      (v.decode s.opcode).addressMode = .noMemory .immediate)
    (form : (v.decode s.opcode).isDocumented) (log : List Access) :
    ∃ n e, Exec.Turns v.flavor (s.opened v log) (v.emission s.opcode) (n + 1) e [] ∧
      s.Completes v e := by
  suffices turns : ∃ n e, Exec.Turns v.flavor (s.opened v log) (v.emission s.opcode) n e [] ∧
      s.Completes v e by
    obtain ⟨n, e, turns, completes⟩ := turns
    obtain ⟨m, rfl⟩ := turns.count_pos (v.emission_operand s.opcode operand)
    exact ⟨m, e, turns, completes⟩
  have nothing (c : Cpu6502) := c.completed_operand operand
  have result := s.perform_operand operand
  have allowed := Instruction.usesOperand_of_mode form operand
  cases action : (v.decode s.opcode).memoryAction with
  | read =>
      simp only [Instruction.usesOperand, action, Bool.and_eq_true, Bool.not_eq_true',
        Bool.and_eq_false_iff, decide_eq_false_iff_not, ← imp_iff_not_or] at allowed
      obtain ⟨n, e, turns, loaded, -⟩ :=
        Exec.turns_operand v s s.opcode (log ++ [s.opcodeRead]) action operand
      have arch : e.arch = { s with pc := s.pc + (v.decode s.opcode).addressMode.length } := by
        simp only [Exec.arch, loaded.ctx, loaded.bus, ctx]
      refine ⟨n, e, turns, completes_read clear allowed.1 action nothing allowed.2 arch rfl loaded.op0 ?_⟩
      rw [result, operate, action, read_pc]
  | write =>
      simp only [Instruction.usesOperand, action, Bool.and_eq_true, Bool.or_eq_true,
        decide_eq_true_eq] at allowed
      obtain ⟨value, stored⟩ : ∃ value,
          (v.decode s.opcode).mnemonic.stored s.a s.x s.y s.p = some value := by
        obtain ⟨(h | h) | h, -⟩ := allowed <;> exact ⟨_, by rw [h]; rfl⟩
      obtain ⟨n, e, turns, atCtx, bus, -⟩ :=
        Exec.turns_write v s s.opcode (log ++ [s.opcodeRead]) allowed.2 stored
      have write : (v.decode s.opcode).memoryAction ≠ .read := by rw [action]; decide
      refine ⟨n, e, turns, completes_of_arch (.inr write) nothing (not_arith v write) ?_⟩
      rw [result, operate, action, stored]
      simp only [Exec.arch, atCtx, bus, ctx, Option.getD_some]
  | readModifyWrite =>
      simp only [Instruction.usesOperand, action, Bool.and_eq_true] at allowed
      obtain ⟨n, e, turns, atCtx, bus, -⟩ :=
        Exec.turns_modify v s s.opcode (log ++ [s.opcodeRead]) allowed.2 action
      have write : (v.decode s.opcode).memoryAction ≠ .read := by rw [action]; decide
      refine ⟨n, e, turns, completes_of_arch (.inr write) nothing (not_arith v write) ?_⟩
      rw [result, operate, action]
      simp only [Exec.arch, atCtx, bus, ctx, modify_isShift allowed.1 v.flavor.decimal]

theorem stack_turns (v : Variant) {s : Arch} (clear : flagSet s.p Psr.D = false)
    (mode : (v.decode s.opcode).addressMode = .stack) (form : (v.decode s.opcode).isDocumented)
    (log : List Access) :
    ∃ n e, Exec.Turns v.flavor (s.opened v log) (v.emission s.opcode) (n + 1) e [] ∧
      s.Completes v e := by
  have nothing (c : Cpu6502) : c.completed (v.decode s.opcode) = c := by
    rw [Cpu6502.completed, mode]
  have result : s.perform (v.decode s.opcode) =
      { s.stack (v.decode s.opcode).mnemonic with pc := s.pc + 1 } := by
    rw [perform, mode]
    rfl
  have action := v.decode_action s.opcode
  simp only [Instruction.isDocumented, mode, Bool.or_eq_true, decide_eq_true_eq] at form
  cases stored : (v.decode s.opcode).mnemonic.stored s.a s.x s.y s.p with
  | some value =>
      obtain ⟨e, turns, arch, -⟩ :=
        Exec.turns_stack_write v s s.opcode (log ++ [s.opcodeRead]) mode stored
      have write : (v.decode s.opcode).memoryAction ≠ .read := by
        rw [action, Exec.stored_action stored]
        decide
      refine ⟨1, e, turns, completes_of_arch (.inr write) nothing (not_arith v write) ?_⟩
      rw [result, stack, stored, arch]
  | none =>
      have pulls : (v.decode s.opcode).mnemonic = .pla ∨ (v.decode s.opcode).mnemonic = .plp := by
        obtain ((h | h) | h) | h := form
        · simp [h, Mnemonic.stored] at stored
        · simp [h, Mnemonic.stored] at stored
        · exact .inl h
        · exact .inr h
      have read : (v.decode s.opcode).memoryAction = .read := by
        rw [action]
        obtain h | h := pulls <;> rw [h] <;> rfl
      obtain ⟨e, turns, arch, op0⟩ :=
        Exec.turns_stack_read v s s.opcode (log ++ [s.opcodeRead]) mode read
      refine ⟨2, e, turns, completes_read clear ?_ read nothing ?_ arch rfl op0 ?_⟩
      · obtain h | h := pulls <;> rw [h] <;> rfl
      · intro bit
        rw [bit] at pulls
        simp at pulls
      · rw [read_pc, result, stack, stored]

theorem aluBranch_taken (ctx : MicroCtx6502) (scratch : MicroExecutor)
    (branch : ctx.instruction.mnemonic.isBranch) :
    ctx.aluBranch .release scratch = .ok (ctx.instruction.mnemonic.taken ctx.status) := by
  rw [MicroCtx6502.aluBranch]
  cases h : ctx.instruction.mnemonic <;> rw [h] at branch <;> first
    | rfl
    | cases branch

theorem isIdle_not_arith {op : Mnemonic} (idle : op.isIdle) : op ≠ .adc ∧ op ≠ .sbc := by
  constructor <;> rintro rfl <;> cases idle

theorem jump_turns (v : Variant) {s : Arch} {type : JumpType}
    (mode : (v.decode s.opcode).addressMode = .jump type) (form : (v.decode s.opcode).isDocumented)
    (pointer : type = .jmpIndirect → s.opcode ≠ 0x7C ∧ loByte (word s.ram (s.pc + 1)) ≠ 0xFF)
    (log : List Access) :
    ∃ n e, Exec.Turns v.flavor (s.opened v log) (v.emission s.opcode) (n + 1) e [] ∧
      s.Completes v e := by
  have nothing (c : Cpu6502) : c.completed (v.decode s.opcode) = c := by
    rw [Cpu6502.completed, mode]
  have isIdle : (v.decode s.opcode).mnemonic.isIdle := by
    cases type <;> simp only [Instruction.isDocumented, mode, decide_eq_true_eq] at form <;>
      first | cases form | simp [Mnemonic.isIdle, form]
  have completes (e : Exec (Recorder SimpleBus)) (eq : e.arch = s.perform (v.decode s.opcode)) :
      s.Completes v e :=
    completes_of_arch (.inl isIdle) nothing (isIdle_not_arith isIdle) eq
  rw [perform, mode] at completes
  cases type with
  | jmpAbsolute =>
      obtain ⟨e, turns, arch⟩ := Exec.turns_jmpAbsolute v s s.opcode (log ++ [s.opcodeRead]) mode
      exact ⟨1, e, turns, completes e arch⟩
  | jmpIndirect =>
      obtain ⟨other, inPage⟩ := pointer rfl
      obtain ⟨n, e, turns, arch⟩ :=
        Exec.turns_jmpIndirect v s s.opcode (log ++ [s.opcodeRead]) mode other inPage
      exact ⟨n, e, turns, completes e arch⟩
  | toSubroutine =>
      simp only [Instruction.isDocumented, mode, decide_eq_true_eq] at form
      have read : (v.decode s.opcode).memoryAction = .read := by
        rw [v.decode_action, form]
        rfl
      obtain ⟨e, turns, arch⟩ := Exec.turns_jsr v s s.opcode (log ++ [s.opcodeRead]) mode read
      exact ⟨4, e, turns, completes e arch⟩
  | fromSubroutine =>
      obtain ⟨e, turns, arch⟩ := Exec.turns_rts v s s.opcode (log ++ [s.opcodeRead]) mode
      exact ⟨4, e, turns, completes e arch⟩
  | fromInterrupt =>
      obtain ⟨e, turns, arch⟩ := Exec.turns_rti v s s.opcode (log ++ [s.opcodeRead]) mode
      exact ⟨4, e, turns, completes e arch⟩
  | _ => simp [Instruction.isDocumented, mode] at form

/-- Every core carries a documented instruction out as the programmer's model says. -/
theorem perform_turns (v : Variant) {s : Arch} (doc : s.Documented) (log : List Access) :
    ∃ n e, Exec.Turns v.flavor (s.opened v log) (v.emission s.opcode) (n + 1) e [] ∧
      s.Completes v e := by
  obtain ⟨form, pointer⟩ := v.documented_form doc.opcode
  replace form : (v.decode s.opcode).isDocumented := form
  cases mode : (v.decode s.opcode).addressMode with
  | directPage | absolute | dpIndirect =>
      exact operand_turns v doc.binary (.inl (by rw [mode]; rfl)) form log
  | stack => exact stack_turns v doc.binary mode form log
  | noMemory type =>
      cases type with
      | immediate => exact operand_turns v doc.binary (.inr mode) form log
      | implied =>
          simp only [Instruction.isDocumented, mode] at form
          obtain ⟨e, turns, arch⟩ := Exec.turns_implied v s s.opcode (log ++ [s.opcodeRead]) mode
          exact ⟨0, e, turns, completes_implied mode form arch⟩
  | branch type =>
      cases type with
      | relative =>
          simp only [Instruction.isDocumented, mode] at form
          have nothing (c : Cpu6502) : c.completed (v.decode s.opcode) = c := by
            rw [Cpu6502.completed, mode]
          have isIdle : (v.decode s.opcode).mnemonic.isIdle := by simp [Mnemonic.isIdle, form]
          obtain ⟨e, turns, arch, -⟩ := Exec.turns_branch v s s.opcode (log ++ [s.opcodeRead]) mode
            fun scratch => aluBranch_taken _ scratch form
          refine ⟨_, e, turns, completes_of_arch (.inl isIdle) nothing (isIdle_not_arith isIdle) ?_⟩
          have split (taken : Bool) (offset : U16) : (if taken then s.pc + 2 + offset else s.pc + 2) =
              s.pc + 2 + if taken then offset else 0 := by
            cases taken <;> simp
          rw [arch, perform, mode]
          exact congrArg (fun pc => ({ s with pc } : Arch)) (split _ _)
      | _ => simp [Instruction.isDocumented, mode] at form
  | jump type =>
      refine jump_turns v mode form (fun indirect => ?_) log
      have opcode : s.opcode = 0x6C := pointer (indirect ▸ mode)
      exact ⟨by rw [opcode]; decide, doc.pointer opcode⟩
  | interrupt type =>
      cases type with
      | brk =>
          simp only [Instruction.isDocumented, mode, decide_eq_true_eq] at form
          have read : (v.decode s.opcode).memoryAction = .read := by
            rw [v.decode_action, form]
            rfl
          have decoded : v.decode s.opcode = ⟨.brk, .interrupt .brk, .read⟩ := by
            rw [← form, ← mode, ← read]
          obtain ⟨e, turns, arch⟩ := Exec.turns_brk v s s.opcode (log ++ [s.opcodeRead]) mode read
          refine ⟨5, e, turns, completes_brk doc.binary decoded arch rfl ?_⟩
          rw [perform, mode]
      | _ => simp [Instruction.isDocumented, mode] at form
  | _ => simp [Instruction.isDocumented, mode] at form

end Arch

end Rs65x
