import Rs65x.Proof.Combined
import Rs65x.Proof.Traffic
import Rs65x.Results.Branches
import Rs65x.Results.Jumps

/-!
# Every opcode from its fetch to its completion
-/

namespace Rs65x
open Fallible Alu Words Worklist

theorem setFlag_setFlag (p mask : U8) (first second : Bool) :
    setFlag (setFlag p mask first) mask second = setFlag p mask second := by
  cases first <;> cases second <;> simp only [setFlag] <;> ext j <;> simp <;> grind

theorem setFlag_comm (p : U8) {mask other : U8} (apart : mask &&& other = 0#8) (b b' : Bool) :
    setFlag (setFlag p mask b) other b' = setFlag (setFlag p other b') mask b := by
  have disjoint (j : Nat) : (mask.getLsbD j && other.getLsbD j) = false := by
    rw [← BitVec.getLsbD_and, apart]
    exact BitVec.getLsbD_zero
  cases b <;> cases b' <;> simp only [setFlag] <;> apply BitVec.eq_of_getLsbD_eq <;> intro j lt <;>
    specialize disjoint j <;> simp <;> grind

theorem arr_flags (p value : U8) (out c v : Bool) :
    setFlag (setFlag (shifted p value out) Psr.C c) Psr.V v =
      setFlag (setFlag (signZero p value) Psr.C c) Psr.V v ∧
    setFlag (setFlag (setFlag (shifted p value out) Psr.N value.msb) Psr.V v) Psr.C c =
      setFlag (setFlag (signZero p value) Psr.C c) Psr.V v := by
  constructor
  · rw [shifted, setFlag_setFlag]
  · have sign : setFlag (signZero p value) Psr.N value.msb = signZero p value := by
      rw [signZero, setFlag_comm _ (by decide), setFlag_setFlag]
    rw [shifted, setFlag_comm (signZero p value) (by decide), sign, setFlag_comm _ (by decide),
      setFlag_setFlag]

theorem bit_xor (first second : U8) :
    ((first ^^^ second) &&& 0x40 != 0) = (first.getLsbD 6 != second.getLsbD 6) := by
  have bit := flagSet_bit 6 (by decide) (first ^^^ second)
  rw [BitVec.getLsbD_xor] at bit
  exact bit

namespace Cpu6502
variable (F : Flavor) (prof : Profile) (cpu : Cpu6502)

theorem applyFlags_zn (value : U8) :
    cpu.applyFlags (zn value) = (value, { cpu with p := signZero cpu.p value }) := by
  rw [applyFlags, apply_zn]

theorem arr_arch (read : U8) (ram : U16 → U8) :
    (cpu.arr F read).arch ram = (cpu.arch ram).rotateMasked F.decimal read := by
  have neighbours : ∀ value : U8,
      (((value >>> 6) ^^^ (value >>> 5)) &&& 1 != 0) = (value.getLsbD 6 != value.getLsbD 5) := by
    decide
  have sixth (value : U8) : (value &&& 0x40 != 0) = value.getLsbD 6 :=
    flagSet_bit 6 (by decide) value
  have sign : ∀ carry, ∀ value : U8,
      (value >>> 1 ||| (if carry then 0x80 else 0)).msb = carry := by
    decide
  generalize result : (cpu.a &&& read) >>> 1 ||| (if flagSet cpu.p Psr.C then 0x80 else 0) = rored
  have applied : cpu.applyFlags (ror (cpu.a &&& read) (flagSet cpu.p Psr.C)) =
      (rored, { cpu with p := shifted cpu.p rored ((cpu.a &&& read).getLsbD 0) }) := by
    rw [ror_eq, applyFlags, apply_withShiftFlags, result]
  have carried : flagSet cpu.p Psr.C = rored.msb := by rw [← result, sign]
  have here : (cpu.arch ram).p = cpu.p ∧ (cpu.arch ram).a = cpu.a := ⟨rfl, rfl⟩
  cases mode : flagSet cpu.p Psr.D && decide (F.decimal = .nmos6502) with
  | false =>
      simp only [arr, applied, mode, Bool.not_false, if_true, setFlag, neighbours, sixth,
        (arr_flags _ _ _ _ _).1, Arch.rotateMasked, here, result, Bool.false_eq_true, if_false]
      rfl
  | true =>
      rw [carried] at applied result
      simp only [arr, applied, mode, Bool.not_true, setFlag, bit_xor, Bool.false_eq_true, if_false,
        Arch.rotateMasked, here, result, if_true, carried, (arr_flags _ _ _ _ _).2,
        decide_eq_true_eq]
      rfl

theorem finishRead_digest {i : Instruction} (inst : cpu.currentInst = some i)
    (other : i.mnemonic ≠ .brk) : ∃ done, cpu.finishRead F prof i.mnemonic = .ok done ∧
      ∀ ram, done.arch ram = (cpu.arch ram).digest F.decimal i cpu.scratch.op0 := by
  obtain ⟨op, mode, action⟩ := i
  cases op
  case lda | and | ora | eor | cmp | adc | sbc | alr | lax =>
    exact finishRead_consumes F prof cpu rfl
  case pla | cpx | cpy | ldx | ldy | plp =>
    exact finishRead_documented F prof cpu rfl (by simp) (by simp)
  case plx => exact ⟨_, rfl, fun ram => by rw [loadX_zn]; rfl⟩
  case ply => exact ⟨_, rfl, fun ram => by rw [loadY_zn]; rfl⟩
  case usbc => exact @finishRead_consumes F prof cpu .sbc rfl
  case bit =>
    by_cases immediate : mode = .noMemory .immediate
    · subst immediate
      simp only [finishRead, inst]
      exact ⟨_, rfl, fun ram => rfl⟩
    · obtain ⟨done, finish, effect⟩ :=
        @finishRead_documented F prof cpu .bit rfl (by simp) fun _ => ⟨_, inst, immediate⟩
      refine ⟨done, finish, fun ram => ?_⟩
      rw [effect, Arch.digest, if_neg immediate]
      rfl
  case anc =>
    have negative (value : U8) : (value &&& 0x80 != 0) = value.msb := by
      rw [BitVec.msb_eq_getLsbD_last]
      exact flagSet_bit 7 (by decide) value
    refine ⟨_, rfl, fun ram => ?_⟩
    rw [loadA_zn, negative]
    rfl
  case arr => exact ⟨_, rfl, cpu.arr_arch F _⟩
  case ane => exact ⟨_, rfl, fun ram => by rw [loadA_zn]; rfl⟩
  case lxa => exact ⟨_, rfl, fun ram => by rw [loadA_zn]; rfl⟩
  case las =>
    have finish : cpu.finishRead F prof .las = .ok { cpu with
        a := cpu.scratch.op0 &&& cpu.s
        x := cpu.scratch.op0 &&& cpu.s
        s := cpu.scratch.op0 &&& cpu.s
        p := signZero cpu.p (cpu.scratch.op0 &&& cpu.s) } := by
      simp only [finishRead, applyFlags_zn]
      rfl
    exact ⟨_, finish, fun ram => rfl⟩
  case sbx =>
    refine ⟨_, rfl, fun ram => ?_⟩
    rw [loadX_zn]
    rfl
  case brk => exact absurd rfl other
  all_goals exact ⟨cpu, rfl, fun ram => rfl⟩

end Cpu6502

/-! ## The table -/

def Mnemonic.ofRegisters : Mnemonic → Bool
  | .inc | .dec | .wai | .stp | .undefined => true
  | op => op.isImplied

def Mnemonic.ofStack : Mnemonic → Bool
  | .pha | .php | .phx | .phy | .pla | .plp | .plx | .ply => true
  | _ => false

/-- The mnemonics that go with an address mode, the branches and the other jumps apart. -/
def Instruction.executable (i : Instruction) : Bool :=
  match i.addressMode with
  | .noMemory .implied => i.mnemonic.ofRegisters
  | .noMemory .immediate | .directPage _ | .absolute _ | .dpIndirect _ => i.mnemonic ≠ .brk
  | .stack => i.mnemonic.ofStack
  | .branch _ | .jam | .jump .jmpIndirect | .jump .jmpAbsoluteX => true
  | .jump .jmpAbsolute => i.mnemonic = .jmp
  | .jump .toSubroutine => i.mnemonic = .jsr
  | .jump .fromSubroutine => i.mnemonic = .rts
  | .jump .fromInterrupt => i.mnemonic = .rti
  | .interrupt .brk => i.mnemonic = .brk
  | .cmosNop _ _ => i.mnemonic = .nop
  | _ => false

theorem Instruction.executable_operand {i : Instruction} (form : i.executable)
    (operand : i.addressMode.isMemory ∨ i.addressMode = .noMemory .immediate) :
    i.mnemonic ≠ .brk := by
  obtain ⟨op, mode, action⟩ := i
  cases mode with
  | directPage | absolute | dpIndirect => exact of_decide_eq_true form
  | noMemory type =>
      cases type with
      | immediate => exact of_decide_eq_true form
      | implied => simp [AddressMode.isMemory] at operand
  | _ => simp [AddressMode.isMemory] at operand

set_option maxRecDepth 20000 in
theorem Variant.decode_executable (v : Variant) (op : U8) : (v.decode op).executable :=
  OpcodeTable.decode_form (fun i _ => i.executable) _ op rfl (by decide)

namespace Cpu6502

theorem finishImplied_onRegisters (cpu : Cpu6502) {i : Instruction} (form : i.mnemonic.ofRegisters)
    (ram : U16 → U8) : (cpu.finishImplied i.mnemonic).arch ram = (cpu.arch ram).onRegisters i := by
  obtain ⟨op, mode, action⟩ := i
  cases op
  case inc | dec => simp only [finishImplied, loadA_zn]; rfl
  case wai | stp | undefined => rfl
  all_goals first
    | exact cpu.finishImplied_documented rfl ram
    | cases form

theorem finishRead_registers (F : Flavor) (prof : Profile) (cpu : Cpu6502) {op : Mnemonic}
    (form : op.ofRegisters) : cpu.finishRead F prof op = .ok cpu := by
  cases op <;> first | rfl | cases form

end Cpu6502

namespace Arch
variable (s : Arch)

theorem digest_pc (decimal : DecimalSemantics) (i : Instruction) (value : U8) (pc : U16) :
    ({ s with pc } : Arch).digest decimal i value = { s.digest decimal i value with pc } := by
  obtain ⟨op, mode, action⟩ := i
  cases op
  case bit =>
    simp only [digest]
    split <;> rfl
  case arr =>
    simp only [digest, rotateMasked]
    split <;> rfl
  all_goals rfl

theorem onRegisters_pc (i : Instruction) (pc : U16) :
    ({ s with pc } : Arch).onRegisters i = { s.onRegisters i with pc } := by
  obtain ⟨op, mode, action⟩ := i
  cases op <;> rfl

theorem bytes_operand {mode : AddressMode}
    (operand : mode.isMemory ∨ mode = .noMemory .immediate) : mode.bytes = mode.length := by
  cases mode <;> first | rfl | simp [AddressMode.isMemory] at operand

theorem execute_operand {v : Variant} (operand : (v.decode s.opcode).addressMode.isMemory ∨
      (v.decode s.opcode).addressMode = .noMemory .immediate) :
    s.execute v = { s.onOperand v.flavor.decimal (v.decode s.opcode) with
      pc := s.pc + (v.decode s.opcode).addressMode.length } := by
  rw [← bytes_operand operand]
  simp only [execute]
  cases mode : (v.decode s.opcode).addressMode with
  | directPage | absolute | dpIndirect => rfl
  | noMemory type =>
      cases type with
      | immediate => rfl
      | implied => simp [mode, AddressMode.isMemory] at operand
  | _ => simp [mode, AddressMode.isMemory] at operand

theorem traffic_operand {v : Variant} (operand : (v.decode s.opcode).addressMode.isMemory ∨
      (v.decode s.opcode).addressMode = .noMemory .immediate) :
    s.traffic v = if (v.decode s.opcode).mnemonic.isUnstable then
      (s.trail v.flavor (v.decode s.opcode)).dropLast ++
        [(false, s.unstableAddress (v.decode s.opcode))]
      else s.trail v.flavor (v.decode s.opcode) := by
  simp only [traffic]
  cases mode : (v.decode s.opcode).addressMode with
  | directPage | absolute | dpIndirect => rfl
  | noMemory type =>
      cases type with
      | immediate => rfl
      | implied => simp [mode, AddressMode.isMemory] at operand
  | _ => simp [mode, AddressMode.isMemory] at operand

/-- Completed, the instruction at PC has had its effect. -/
def Realizes (v : Variant) (e : Exec (Recorder SimpleBus)) : Prop :=
  ∀ c : Cpu6502, c.Executing (v.decode s.opcode) e →
    (c.finished v.flavor (v.decode s.opcode)).arch e.bus.bus.ram = s.execute v

variable {s} {v : Variant} {e : Exec (Recorder SimpleBus)}

theorem realizes_idle (nothing : ∀ c : Cpu6502, c.finished v.flavor (v.decode s.opcode) = c)
    (eq : e.arch = s.execute v) : s.Realizes v e := by
  intro c executing
  rw [nothing, executing.arch, ← eq]
  rfl

theorem realizes_read {t : Arch} {value : U8} (read : (v.decode s.opcode).memoryAction = .read)
    (other : (v.decode s.opcode).mnemonic ≠ .brk)
    (nothing : ∀ c : Cpu6502, c.completed (v.decode s.opcode) = c) (eq : e.arch = t)
    (op0 : e.scratch.op0 = value)
    (result : t.digest v.flavor.decimal (v.decode s.opcode) value = s.execute v) :
    s.Realizes v e := by
  intro c executing
  obtain ⟨done, finish, effect⟩ := c.finishRead_digest v.flavor .release executing.inst other
  have finished : c.finished v.flavor (v.decode s.opcode) = done := by
    rw [Cpu6502.finished, Cpu6502.finishInstruction_eq, if_pos read, finish, ok_bind, get_ok, nothing]
  have latch : c.scratch.op0 = value := op0 ▸ congrArg (fun e => e.scratch.op0) executing.exec
  have here : c.arch e.bus.bus.ram = t := (executing.arch e.bus.bus.ram).trans eq
  rw [finished, effect, here, latch, result]

def Inserts (v : Variant) (s : Arch) (e : Exec (Recorder SimpleBus)) : Prop :=
  ∀ c : Cpu6502, c.Executing (v.decode s.opcode) e → c.extraAdcSbcCycle = false →
    (c.finished v.flavor (v.decode s.opcode)).extraAccesses v.flavor (v.decode s.opcode) = s.inserted v

theorem inserts_nothing (e : Exec (Recorder SimpleBus))
    (other : (v.decode s.opcode).mnemonic ≠ .adc ∧ (v.decode s.opcode).mnemonic ≠ .sbc) :
    Inserts v s e := by
  intro c _ _
  have quiet := Cpu6502.never_due v.flavor other (c.finished v.flavor (v.decode s.opcode))
  simp [Cpu6502.extraAccesses, quiet, inserted, addsDecimalCycle, other.1, other.2]

theorem inserts_read (operand : (v.decode s.opcode).addressMode.isMemory ∨
      (v.decode s.opcode).addressMode = .noMemory .immediate)
    (status : e.ctx.status = s.p) (ea : (v.decode s.opcode).addressMode.isMemory →
      e.scratch.ea.setWidth 16 = s.effectiveAddress (v.decode s.opcode).addressMode) :
    Inserts v s e := by
  intro c executing unmarked
  have due := Cpu6502.extraCycleDue_eq executing (s := s) fun _ => status
  rw [unmarked, Bool.not_false, Bool.and_true] at due
  rw [Cpu6502.extraAccesses, inserted, due]
  cases decimal : s.addsDecimalCycle v (v.decode s.opcode) with
  | false => rfl
  | true =>
      obtain ⟨-, -, scratch, -⟩ := Cpu6502.finished_rest v.flavor executing.inst
      have same : c.scratch = e.scratch := congrArg Exec.scratch executing.exec
      have arith : (v.decode s.opcode).mnemonic = .adc ∨ (v.decode s.opcode).mnemonic = .sbc := by
        simp only [addsDecimalCycle, Bool.and_eq_true, Bool.or_eq_true, decide_eq_true_eq] at decimal
        exact decimal.1.1
      rw [if_pos rfl, if_pos rfl, Cpu6502.extraAddr, Cpu6502.extraCycleAddr]
      rcases operand with memory | immediate
      · have other : (v.decode s.opcode).addressMode ≠ .noMemory .immediate := by
          intro eq
          rw [eq] at memory
          cases memory
        have kind : ∀ type, (v.decode s.opcode).addressMode ≠ .noMemory type := by
          intro type eq
          rw [eq] at memory
          cases memory
        rw [if_neg other, ← ea memory, ← same, ← scratch]
        split
        · next type eq => exact absurd eq (kind type)
        · rfl
      · rw [immediate, if_pos rfl]
        rcases arith with eq | eq
        · rw [eq]
          rfl
        · rw [eq]
          rfl

/-! ## One lemma for each kind of instruction -/

/-- The micro-ops of the instruction at PC are done in `n` turns, with its effect and its accesses. -/
structure ExecutedIn (v : Variant) (s : Arch) (log : List Access) (n : Nat)
    (e : Exec (Recorder SimpleBus)) : Prop where
  turns : Exec.TurnsIn .release v.flavor (s.opened v log) (v.emission s.opcode) n e []
  realizes : s.Realizes v e
  logged : e.Logged (log ++ [s.opcodeRead]) (s.traffic v)
  inserts : Inserts v s e

def Executed (v : Variant) (s : Arch) (log : List Access) : Prop := ∃ n e, ExecutedIn v s log n e

section
variable (log : List Access)

theorem executed_operand (operand : (v.decode s.opcode).addressMode.isMemory ∨
      (v.decode s.opcode).addressMode = .noMemory .immediate) : Executed v s log := by
  have other := Instruction.executable_operand (v.decode_executable s.opcode) operand
  have result := s.execute_operand operand
  have traffic := s.traffic_operand operand
  have nothing (c : Cpu6502) := c.completed_operand operand
  have immediate := v.decode_immediate s.opcode
  have memory (action : (v.decode s.opcode).memoryAction ≠ .read) :
      (v.decode s.opcode).addressMode.isMemory :=
    operand.resolve_right fun eq => action (immediate eq)
  cases action : (v.decode s.opcode).memoryAction with
  | read =>
      obtain ⟨e, turns, loaded, logged⟩ :=
        Exec.turns_trail v s s.opcode (log ++ [s.opcodeRead]) operand
      obtain ⟨loaded, ea⟩ := loaded action
      have stable : (v.decode s.opcode).mnemonic.isUnstable = false := by
        rw [v.decode_action] at action
        revert action
        cases (v.decode s.opcode).mnemonic <;> first
          | exact fun _ => rfl
          | exact fun bad => absurd bad (by decide)
      have arch : e.arch = { s with pc := s.pc + (v.decode s.opcode).addressMode.length } := by
        simp only [Exec.arch, loaded.ctx, loaded.bus, ctx]
      refine ⟨_, e, turns.anywhere _, realizes_read action other nothing arch loaded.op0 ?_, ?_, ?_⟩
      · rw [digest_pc, result, onOperand, action]
      · rw [traffic, stable]
        exact logged stable
      · exact inserts_read operand (by rw [loaded.ctx]; rfl) ea
  | write =>
      have write : (v.decode s.opcode).memoryAction ≠ .read := by rw [action]; decide
      have finished (c : Cpu6502) := Cpu6502.finished_write v.flavor c write (memory write)
      have inserts (e : Exec (Recorder SimpleBus)) := inserts_nothing e (not_arith v write)
      cases unstable : (v.decode s.opcode).mnemonic.isUnstable with
      | false =>
          obtain ⟨value, stored⟩ := Mnemonic.stores ((v.decode_action s.opcode).symm.trans action)
            unstable s.a s.x s.y s.p
          obtain ⟨n, e, turns, atCtx, bus, -, logged⟩ :=
            Exec.turns_write v s s.opcode (log ++ [s.opcodeRead]) (memory write) stored
          refine ⟨n, e, turns.anywhere _, realizes_idle finished ?_, ?_, inserts e⟩
          · rw [result, onOperand, action]
            simp only [store, unstable, stored, Exec.arch, atCtx, bus, ctx, Option.getD_some,
              Bool.false_eq_true, if_false]
          · rw [traffic, unstable]
            exact logged
      | true =>
          obtain ⟨-, -, n, e, turns, atCtx, bus, -⟩ :=
            Exec.turns_unstable v s s.opcode (log ++ [s.opcodeRead]) unstable
          refine ⟨n, e, turns.anywhere _, realizes_idle finished ?_, ?_, inserts e⟩
          · rw [result, onOperand, action]
            simp only [store, unstable, Exec.arch, atCtx, bus, ctx, if_true]
          · rw [traffic, unstable]
            exact Exec.logged_unstable v s s.opcode (log ++ [s.opcodeRead]) unstable turns
  | readModifyWrite =>
      have write : (v.decode s.opcode).memoryAction ≠ .read := by rw [action]; decide
      have stable : (v.decode s.opcode).mnemonic.isUnstable = false := by
        rw [v.decode_action] at action
        revert action
        cases (v.decode s.opcode).mnemonic <;> first
          | exact fun _ => rfl
          | exact fun bad => absurd bad (by decide)
      have finished (c : Cpu6502) := Cpu6502.finished_write v.flavor c write (memory write)
      obtain ⟨n, e, turns, atCtx, bus, -, logged⟩ :=
        Exec.turns_modify v s s.opcode (log ++ [s.opcodeRead]) (memory write) action
      refine ⟨n, e, turns.anywhere _, realizes_idle finished ?_, ?_, inserts_nothing e (not_arith v write)⟩
      · rw [result, onOperand, action]
        simp only [modify, Exec.arch, atCtx, bus, ctx]
      · rw [traffic, stable]
        exact logged

theorem executed_implied (mode : (v.decode s.opcode).addressMode = .noMemory .implied) :
    Executed v s log := by
  have form := v.decode_executable s.opcode
  rw [Instruction.executable, mode] at form
  obtain ⟨e, turns, arch⟩ := Exec.turns_implied v s s.opcode (log ++ [s.opcodeRead]) mode
  obtain ⟨e', turns', logged⟩ := Exec.logged_implied v s s.opcode (log ++ [s.opcodeRead]) mode
  obtain ⟨-, rfl⟩ := turns.unique turns'
  refine ⟨1, e, turns.anywhere _, fun c executing => ?_, ?_, inserts_nothing e ?_⟩
  · have completed : c.finished v.flavor (v.decode s.opcode) =
        c.finishImplied (v.decode s.opcode).mnemonic := by
      rw [Cpu6502.finished, Cpu6502.finishInstruction_eq, c.finishRead_registers _ _ form, ite_self,
        ok_bind, get_ok, Cpu6502.completed, mode]
    have here : c.arch e.bus.bus.ram = { s with pc := s.pc + 1 } :=
      (executing.arch e.bus.bus.ram).trans arch
    rw [completed, c.finishImplied_onRegisters form, here, onRegisters_pc, execute, mode]
    rfl
  · rw [traffic, mode]
    exact logged
  · constructor <;> intro eq <;> rw [eq] at form <;> cases form

theorem executed_stack (mode : (v.decode s.opcode).addressMode = .stack) : Executed v s log := by
  have form := v.decode_executable s.opcode
  rw [Instruction.executable, mode] at form
  have nothing (c : Cpu6502) : c.completed (v.decode s.opcode) = c := by
    rw [Cpu6502.completed, mode]
  have action := v.decode_action s.opcode
  have result : s.execute v =
      { s.onStack v.flavor.decimal (v.decode s.opcode) with pc := s.pc + 1 } := by
    rw [execute, mode]
    rfl
  have traffic : s.traffic v = (true, s.pc + 1) :: if (v.decode s.opcode).memoryAction = .write then
      [(false, stackAddr s.s)] else [(true, stackAddr s.s), (true, stackAddr (s.s + 1))] := by
    rw [traffic, mode]
  have inserts (e : Exec (Recorder SimpleBus)) : Inserts v s e := by
    refine inserts_nothing e ?_
    constructor <;> intro eq <;> rw [eq] at form <;> cases form
  cases stored : (v.decode s.opcode).mnemonic.stored s.a s.x s.y s.p with
  | some value =>
      obtain ⟨e, turns, arch, -⟩ :=
        Exec.turns_stack_write v s s.opcode (log ++ [s.opcodeRead]) mode stored
      obtain ⟨e', turns', logged⟩ :=
        Exec.logged_stack_write v s s.opcode (log ++ [s.opcodeRead]) mode stored
      obtain ⟨-, rfl⟩ := turns.unique turns'
      have write : (v.decode s.opcode).memoryAction = .write :=
        action.trans (Exec.stored_action stored)
      refine ⟨2, e, turns.anywhere _, realizes_idle (fun c => ?_) ?_, ?_, inserts e⟩
      · rw [Cpu6502.finished, Cpu6502.finishInstruction_eq, if_neg (by rw [write]; decide), ok_bind,
          get_ok, nothing]
      · rw [result, onStack, stored, arch]
      · rw [traffic, if_pos write]
        exact logged
  | none =>
      obtain ⟨read, other⟩ : (v.decode s.opcode).mnemonic.action = .read ∧
          (v.decode s.opcode).mnemonic ≠ .brk := by
        revert form stored
        cases (v.decode s.opcode).mnemonic <;> first
          | exact fun _ _ => ⟨rfl, by decide⟩
          | exact fun bad => absurd bad (by decide)
          | (intro _ stored; cases stored)
      replace read := action.trans read
      obtain ⟨e, turns, arch, op0⟩ :=
        Exec.turns_stack_read v s s.opcode (log ++ [s.opcodeRead]) mode read
      obtain ⟨e', turns', logged⟩ :=
        Exec.logged_stack_read v s s.opcode (log ++ [s.opcodeRead]) mode read
      obtain ⟨-, rfl⟩ := turns.unique turns'
      refine ⟨3, e, turns.anywhere _, realizes_read read other nothing arch op0 ?_, ?_, inserts e⟩
      · rw [digest_pc, result, onStack, stored]
      · rw [traffic, if_neg (by rw [read]; decide)]
        exact logged

theorem executed_branch {type : BranchType} (mode : (v.decode s.opcode).addressMode = .branch type) :
    Executed v s log := by
  have form := v.decode_branch s.opcode
  have idle := fun c => Cpu6502.finished_branch v.flavor c mode form
  have quiet : (v.decode s.opcode).mnemonic ≠ .adc ∧ (v.decode s.opcode).mnemonic ≠ .sbc := by
    rw [Instruction.branchForm, mode] at form
    constructor <;> intro eq <;> rw [eq] at form <;> cases type <;>
      simp [Mnemonic.testedBit, Mnemonic.isBranch] at form
  have result : s.execute v = { s with
      pc := if s.branchTaken (v.decode s.opcode) then s.branchTarget (v.decode s.opcode)
        else s.branchFollowing (v.decode s.opcode) } := by
    rw [execute, mode]
  obtain ⟨n, e, turns, arch, logged⟩ : ∃ n e,
      Exec.Turns v.flavor (s.opened v log) (v.emission s.opcode) n e [] ∧
      e.arch = s.execute v ∧ e.Logged (log ++ [s.opcodeRead]) (s.traffic v) := by
    rw [result, traffic, mode, branchTarget, branchFollowing]
    cases type with
    | relative =>
        have decides (scratch : MicroExecutor) :
            (s.ctx (v.decode s.opcode) s.opcode 2).aluBranch .release scratch =
              .ok (s.branchTaken (v.decode s.opcode)) := by
          rw [aluBranch_ctx s 2 scratch mode form, branchTaken]
          exact congrArg Except.ok (Mnemonic.branches_relative mode form _ _ _)
        obtain ⟨e, turns, arch, -⟩ :=
          Exec.turns_branch v s s.opcode (log ++ [s.opcodeRead]) mode decides
        obtain ⟨_, e', turns', logged⟩ :=
          Exec.logged_branch v s s.opcode (log ++ [s.opcodeRead]) mode decides
        obtain ⟨rfl, rfl⟩ := turns.unique turns'
        have short : branchPrefix (v.decode s.opcode) = 1 := if_neg (by rw [mode]; decide)
        rw [short, show (1 : U16) + 1 = 2 from rfl]
        exact ⟨_, e, turns, arch, logged⟩
    | dpRelative =>
        have decides (scratch : MicroExecutor) (op0 : scratch.op0 = s.ram (s.operand.setWidth 16)) :
            (s.ctx (v.decode s.opcode) s.opcode 3).aluBranch .release scratch =
              .ok (s.branchTaken (v.decode s.opcode)) := by
          rw [aluBranch_ctx s 3 scratch mode form, branchTaken, op0]
        obtain ⟨e, turns, arch, -⟩ :=
          Exec.turns_bitBranch v s s.opcode (log ++ [s.opcodeRead]) mode decides
        obtain ⟨_, e', turns', logged⟩ :=
          Exec.logged_bitBranch v s s.opcode (log ++ [s.opcodeRead]) mode decides
        obtain ⟨rfl, rfl⟩ := turns.unique turns'
        have long : branchPrefix (v.decode s.opcode) = 2 := if_pos mode
        rw [long, show (2 : U16) + 1 = 3 from rfl]
        exact ⟨_, e, turns, arch, logged⟩
    | _ => simp [Instruction.branchForm, mode] at form
  exact ⟨n, e, turns.anywhere _, realizes_idle (fun c => (idle c).1) arch, logged,
    inserts_nothing e quiet⟩

theorem executed_idle {e : Exec (Recorder SimpleBus)} {n : Nat}
    (turns : Exec.TurnsIn .release v.flavor (s.opened v log) (v.emission s.opcode) n e [])
    (idle : (v.decode s.opcode).mnemonic.isIdle)
    (nothing : ∀ c : Cpu6502, c.completed (v.decode s.opcode) = c) (arch : e.arch = s.execute v)
    (logged : e.Logged (log ++ [s.opcodeRead]) (s.traffic v)) : Executed v s log := by
  refine ⟨n, e, turns, realizes_idle (fun c => ?_) arch, logged, inserts_nothing e (isIdle_not_arith idle)⟩
  rw [c.finished_idle _ (.inl idle), nothing]

theorem executed_jump {type : JumpType} (mode : (v.decode s.opcode).addressMode = .jump type) :
    Executed v s log := by
  have form := v.decode_executable s.opcode
  have indirect := v.decode_indirect s.opcode
  rw [Instruction.executable, mode] at form
  rw [Instruction.indirectForm, mode] at indirect
  have nothing (c : Cpu6502) : c.completed (v.decode s.opcode) = c := by
    rw [Cpu6502.completed, mode]
  have named {op : Mnemonic} (is : (v.decode s.opcode).mnemonic = op) (idle : op.isIdle) :
      (v.decode s.opcode).mnemonic.isIdle := by
    rw [is]
    exact idle
  cases type with
  | jmpAbsolute =>
      obtain ⟨e, turns, arch⟩ := Exec.turns_jmpAbsolute v s s.opcode (log ++ [s.opcodeRead]) mode
      obtain ⟨e', turns', logged⟩ := Exec.logged_jmpAbsolute v s s.opcode (log ++ [s.opcodeRead]) mode
      obtain ⟨-, rfl⟩ := turns.unique turns'
      refine executed_idle log (turns.anywhere _) (named (of_decide_eq_true form) rfl) nothing ?_ ?_
      · rw [execute, mode, perform, mode]
        exact arch
      · rw [traffic, mode]
        exact logged
  | jmpIndirect =>
      simp only [Bool.and_eq_true, decide_eq_true_eq] at indirect
      obtain ⟨jmp, other⟩ := indirect
      obtain ⟨n, e, turns, logged⟩ :=
        Exec.logged_jmpIndirect v s s.opcode (log ++ [s.opcodeRead]) mode rfl other
      refine executed_idle log turns (named jmp rfl) nothing ?_ (by rw [traffic, mode]; exact logged)
      rw [execute, mode]
      cases cmos : v.isCmos with
      | true =>
          have valid : v.flavor.invalidAddrRead = false := by cases v <;> first | rfl | cases cmos
          obtain ⟨e', turns', arch, -⟩ :=
            Exec.turns_jmpIndirect_cmos v s s.opcode (log ++ [s.opcodeRead]) mode rfl valid other
          obtain ⟨-, rfl⟩ := turns.unique (turns' .release (.inl rfl))
          simp only [arch, word, pointerSuccessor, cmos, if_true]
      | false =>
          have invalid : v.flavor.invalidAddrRead = true := by cases v <;> first | rfl | cases cmos
          obtain ⟨e', turns', arch, -⟩ :=
            Exec.turns_jmpIndirect_nmos v s s.opcode (log ++ [s.opcodeRead]) mode rfl invalid
          obtain ⟨-, rfl⟩ := turns.unique (turns'.anywhere .release)
          simp only [arch, pointerSuccessor, cmos, Bool.false_eq_true, if_false]
  | jmpAbsoluteX =>
      obtain ⟨e, turns, arch, -⟩ :=
        Exec.turns_jmpAbsoluteX v s s.opcode (log ++ [s.opcodeRead]) mode rfl
      obtain ⟨e', turns', logged⟩ :=
        Exec.logged_jmpAbsoluteX v s s.opcode (log ++ [s.opcodeRead]) mode rfl
      obtain ⟨-, rfl⟩ := turns.unique turns'
      refine executed_idle log (turns.anywhere _) (named (of_decide_eq_true indirect) rfl) nothing ?_ ?_
      · rw [execute, mode]
        exact arch
      · rw [traffic, mode]
        exact logged
  | toSubroutine =>
      have jsr : (v.decode s.opcode).mnemonic = .jsr := of_decide_eq_true form
      have read : (v.decode s.opcode).memoryAction = .read := by
        rw [v.decode_action, jsr]
        rfl
      obtain ⟨e, turns, arch⟩ := Exec.turns_jsr v s s.opcode (log ++ [s.opcodeRead]) mode read
      obtain ⟨e', turns', logged⟩ := Exec.logged_jsr v s s.opcode (log ++ [s.opcodeRead]) mode read
      obtain ⟨-, rfl⟩ := turns.unique turns'
      refine executed_idle log (turns.anywhere _) (named jsr rfl) nothing ?_ ?_
      · rw [execute, mode, perform, mode]
        exact arch
      · rw [traffic, mode]
        exact logged
  | fromSubroutine =>
      obtain ⟨e, turns, arch⟩ := Exec.turns_rts v s s.opcode (log ++ [s.opcodeRead]) mode
      obtain ⟨e', turns', logged⟩ := Exec.logged_rts v s s.opcode (log ++ [s.opcodeRead]) mode
      obtain ⟨-, rfl⟩ := turns.unique turns'
      refine executed_idle log (turns.anywhere _) (named (of_decide_eq_true form) rfl) nothing ?_ ?_
      · rw [execute, mode, perform, mode]
        exact arch
      · rw [traffic, mode]
        exact logged
  | fromInterrupt =>
      obtain ⟨e, turns, arch⟩ := Exec.turns_rti v s s.opcode (log ++ [s.opcodeRead]) mode
      obtain ⟨e', turns', logged⟩ := Exec.logged_rti v s s.opcode (log ++ [s.opcodeRead]) mode
      obtain ⟨-, rfl⟩ := turns.unique turns'
      refine executed_idle log (turns.anywhere _) (named (of_decide_eq_true form) rfl) nothing ?_ ?_
      · rw [execute, mode, perform, mode]
        exact arch
      · rw [traffic, mode]
        exact logged
  | _ => cases form

theorem executed_nop {bytes cycles : Nat}
    (mode : (v.decode s.opcode).addressMode = .cmosNop bytes cycles) : Executed v s log := by
  have form := v.decode_executable s.opcode
  rw [Instruction.executable, mode] at form
  have nop : (v.decode s.opcode).mnemonic = .nop := of_decide_eq_true form
  obtain ⟨n, e, turns, arch, -⟩ := s.nop_turns v nop log
  have start : (s.opened v log).Logged (log ++ [s.opcodeRead]) [] := ⟨[], (List.append_nil _).symm, rfl⟩
  obtain ⟨e', turns', logged⟩ :=
    Exec.logged_pcReads (log ++ [s.opcodeRead]) v.flavor (nopMoves bytes cycles) rfl start
  rw [← v.emission_cmosNop mode] at turns'
  obtain ⟨-, rfl⟩ := turns.unique turns'
  refine executed_idle log (turns.anywhere _) (by rw [nop]; rfl) (fun c => ?_) ?_ ?_
  · rw [Cpu6502.completed, mode]
  · rw [arch, skipped, execute, mode]
  · rw [traffic, mode]
    exact logged

theorem executed_brk {type : InterruptType}
    (mode : (v.decode s.opcode).addressMode = .interrupt type) : Executed v s log := by
  have form := v.decode_executable s.opcode
  rw [Instruction.executable, mode] at form
  cases type with
  | brk =>
      have brk : (v.decode s.opcode).mnemonic = .brk := of_decide_eq_true form
      have read : (v.decode s.opcode).memoryAction = .read := by
        rw [v.decode_action, brk]
        rfl
      have decoded : v.decode s.opcode = v.decode 0 := by
        rw [Cpu6502.decode_brk, ← brk, ← mode, ← read]
      obtain ⟨e, turns, arch⟩ := Exec.turns_brk v s s.opcode (log ++ [s.opcodeRead]) mode read
      obtain ⟨e', turns', logged⟩ := Exec.logged_brk v s s.opcode (log ++ [s.opcodeRead]) mode read
      obtain ⟨-, rfl⟩ := turns.unique turns'
      refine ⟨6, e, turns.anywhere _, fun c executing => ?_, ?_, inserts_nothing e ?_⟩
      · have here : c.arch e.bus.bus.ram = _ := (executing.arch e.bus.bus.ram).trans arch
        have p : c.p = s.p := congrArg Arch.p here
        rw [decoded, Cpu6502.finished_entry, here, p, execute, mode]
        rfl
      · rw [traffic, mode]
        exact logged
      · rw [brk]
        decide
  | _ => cases form

/-- Every core carries out every opcode but JAM as the programmer's model says. -/
theorem executed (other : (v.decode s.opcode).addressMode ≠ .jam) : Executed v s log := by
  have form := v.decode_executable s.opcode
  cases mode : (v.decode s.opcode).addressMode with
  | directPage | absolute | dpIndirect => exact executed_operand log (.inl (by rw [mode]; rfl))
  | stack => exact executed_stack log mode
  | noMemory type =>
      cases type with
      | immediate => exact executed_operand log (.inr mode)
      | implied => exact executed_implied log mode
  | branch => exact executed_branch log mode
  | jump => exact executed_jump log mode
  | interrupt => exact executed_brk log mode
  | cmosNop => exact executed_nop log mode
  | jam => exact absurd mode other
  | _ =>
      rw [Instruction.executable, mode] at form
      cases form

end

end Arch

theorem Variant.emission_nil {v : Variant} {op : U8} (empty : v.emission op = [])
    (other : (v.decode op).addressMode ≠ .jam) : (v.decode op).mnemonic = .nop := by
  have form := v.decode_executable op
  have operand := v.emission_operand op
  by_contra named
  rw [Instruction.executable] at form
  rw [Variant.emission] at empty
  cases mode : (v.decode op).addressMode with
  | directPage | absolute | dpIndirect => exact operand (.inl (by rw [mode]; rfl)) empty
  | noMemory type =>
      cases type with
      | immediate => exact operand (.inr mode) empty
      | implied =>
          rw [mode] at empty
          cases v <;> cases empty
  | stack =>
      rw [mode] at empty
      cases (v.decode op).memoryAction <;> cases v <;> cases empty
  | branch type =>
      have branch := v.decode_branch op
      rw [Instruction.branchForm, mode] at branch
      rw [mode] at empty
      cases type <;> first | cases branch | (cases v <;> cases empty)
  | jump type =>
      rw [mode] at empty form
      cases type <;> first | exact absurd form Bool.false_ne_true | (cases v <;> cases empty)
  | interrupt type =>
      rw [mode] at empty form
      cases type <;> first | exact absurd form Bool.false_ne_true | (cases v <;> cases empty)
  | cmosNop =>
      rw [mode] at form
      exact named (of_decide_eq_true form)
  | jam => exact other mode
  | _ =>
      rw [mode] at form
      cases form

end Rs65x
