import Rs65x.Proof.Addressing
import Rs65x.Proof.Modify
import Rs65x.Spec.Timing

/-!
# At the operand

The index is added to a whole word, with a cycle at a wrong address where the source wants one, and
the operand is read, written or modified.
-/

namespace Rs65x
open Fallible Words Worklist

namespace Exec
variable {β : Type}

def target (e : Exec β) (offset : OffsetType) : U32 :=
  e.scratch.ea + (e.ctx.offset offset).setWidth 32

def uncarried (e : Exec β) (offset : OffsetType) : U32 :=
  (e.scratch.ea &&& ~~~(0xFF : U32)) |||
    (e.scratch.ea.setWidth 8 + (e.ctx.offset offset).setWidth 8 : U8).setWidth 32

def fixes (e : Exec β) (offset : OffsetType) : Bool :=
  e.uncarried offset ≠ e.target offset || e.scratch.memoryAction = .write ||
    (e.scratch.memoryAction = .readModifyWrite && isIncdecAbsX e.ctx.opcode)

def fixAddr (F : Flavor) (e : Exec β) (offset : OffsetType) : U32 :=
  if F.invalidAddrRead then e.uncarried offset else e.ctx.pc.setWidth 32 - 1

def operandRead (e : Exec (Recorder SimpleBus)) (addr ea : U32) : Exec (Recorder SimpleBus) :=
  let data := e.bus.bus.ram (addr.setWidth 16)
  ⟨{ e.scratch with dataLatch := data, op0 := data, ea }, e.ctx,
    ⟨e.bus.bus, e.bus.log ++ [.read addr true false data]⟩⟩

variable (F : Flavor) (e : Exec (Recorder SimpleBus)) (rest : List MicroOp)

theorem next_read_ea : e.next F (.read .ea .op0 false) rest =
    (e.operandRead e.scratch.ea e.scratch.ea, rest) := rfl

theorem body_offsetOptFix (offset : OffsetType) : e.body F (.offsetOptFix offset) =
    (e.operandRead (e.offsetWithExtraCycle F offset).1 (e.offsetWithExtraCycle F offset).1,
      (e.offsetWithExtraCycle F offset).2) := rfl

theorem next_fix {offset : OffsetType} (fixes : e.fixes offset = true) :
    e.next F (.offsetOptFix offset) rest =
      (e.operandRead (e.fixAddr F offset) (e.target offset), rest) := by
  have prepared : e.offsetWithExtraCycle F offset =
      (e.fixAddr F offset, some (e.target offset)) := if_pos fixes
  rw [next, body_offsetOptFix, prepared]
  rfl

theorem next_nofix {offset : OffsetType} (fits : e.fixes offset = false) :
    e.next F (.offsetOptFix offset) rest =
      (e.operandRead (e.target offset) (e.target offset),
        if e.scratch.memoryAction = .read then []
        else if F.invalidAddrRead then rest else rest.tail) := by
  have prepared : e.offsetWithExtraCycle F offset = (e.uncarried offset, none) :=
    if_neg (Bool.eq_false_iff.1 fits)
  simp only [Exec.fixes, Bool.or_eq_false_iff, decide_eq_false_iff_not, not_not,
    Bool.and_eq_false_iff] at fits
  obtain ⟨⟨same, notWrite⟩, other⟩ := fits
  rw [next, body_offsetOptFix, prepared, same]
  simp only [turn, MicroOp.offsetOptFix]
  have action : (e.operandRead (e.target offset) (e.target offset)).scratch.memoryAction =
    e.scratch.memoryAction := rfl
  have opcode : (e.operandRead (e.target offset) (e.target offset)).ctx = e.ctx := rfl
  rw [action, opcode]
  cases act : e.scratch.memoryAction with
  | read => rfl
  | write => exact absurd act notWrite
  | readModifyWrite =>
      have ordinary := other.resolve_left (not_not.2 act)
      cases F.invalidAddrRead <;> simp [ordinary]

end Exec

namespace Access

def writes (log : List Access) : List (U16 × U8) :=
  log.filterMap fun
    | .write addr data _ _ => some (addr.setWidth 16, data)
    | .read .. => none

theorem writes_append (log log' : List Access) : writes (log ++ log') = writes log ++ writes log' :=
  List.filterMap_append

theorem writes_read (log : List Access) (addr : U32) (vda vpa : Bool) (data : U8) :
    writes (log ++ [.read addr vda vpa data]) = writes log := by
  simp [writes]

theorem writes_write (log : List Access) (addr : U32) (data : U8) (vda vpa : Bool) :
    writes (log ++ [.write addr data vda vpa]) = writes log ++ [(addr.setWidth 16, data)] := by
  simp [writes]

theorem writes_of_reads {reads : List Access} (h : ∀ a ∈ reads, a.isRead = true) :
    writes reads = [] := by
  refine List.filterMap_eq_nil_iff.2 fun a mem => ?_
  cases a with
  | read => rfl
  | write => cases h _ mem

end Access

theorem Narrow.Addressed.writes {m : Narrow} {s : Arch} {i : Instruction} {op : U8}
    {log : List Access} (addressed : m.Addressed s i op log) :
    Access.writes m.log = Access.writes log := by
  obtain ⟨reads, eq, brief⟩ := addressed.log
  have isRead : ∀ a ∈ reads, a.isRead = true := by
    intro a mem
    have mem := brief ▸ List.mem_map_of_mem (f := Access.brief) mem
    obtain ⟨_, -, same⟩ := List.mem_map.1 mem
    exact (congrArg Prod.fst same).symm
  rw [eq, Access.writes_append, Access.writes_of_reads isRead, List.append_nil]

namespace Narrow.Addressed
variable {m : Narrow} {s : Arch} {i : Instruction} {op : U8} {log : List Access}

theorem index (addressed : m.Addressed s i op log) : m.ctx.offset i.addressMode.wordIndex =
    (s.index i.addressMode.wordIndex).setWidth 16 := by
  rw [addressed.ctx]
  cases i.addressMode.wordIndex <;> rfl

theorem target (addressed : m.Addressed s i op log) : m.exec.target i.addressMode.wordIndex =
    (s.baseAddress i.addressMode).setWidth 32 +
      ((s.index i.addressMode.wordIndex).setWidth 16 : U16).setWidth 32 := by
  rw [← addressed.ea, ← addressed.index]
  rfl

theorem uncarried (addressed : m.Addressed s i op log) :
    m.exec.uncarried i.addressMode.wordIndex = (s.uncarried i.addressMode).setWidth 32 := by
  have low : ((m.ea.setWidth 32 : U32).setWidth 8 : U8) = loByte m.ea := by simp [loByte]
  change (m.ea.setWidth 32 &&& ~~~(0xFF#32)) ||| (((m.ea.setWidth 32 : U32).setWidth 8 : U8) +
    (m.ctx.offset i.addressMode.wordIndex).setWidth 8).setWidth 32 = _
  rw [low, replace_lo32, addressed.index, addressed.ea, Arch.uncarried]
  simp

theorem fixAddr (addressed : m.Addressed s i op log) (F : Flavor) :
    (m.exec.fixAddr F i.addressMode.wordIndex).setWidth 16 =
      if F.invalidAddrRead then s.uncarried i.addressMode else s.lastByte i.addressMode := by
  have pc : m.exec.ctx.pc = s.pc + i.addressMode.length := congrArg MicroCtx6502.pc addressed.ctx
  rw [Exec.fixAddr, addressed.uncarried, pc]
  split
  · simp
  · exact setWidth_pred _

end Narrow.Addressed

theorem Variant.emission_operand (v : Variant) (op : U8)
    (operand : (v.decode op).addressMode.isMemory ∨ (v.decode op).addressMode = .noMemory .immediate) :
    v.emission op ≠ [] := by
  obtain memory | immediate := operand
  · rw [v.emission_memory op memory]
    generalize v.decode op = i at memory
    rcases i with ⟨_, _ | _ | _ | _ | _ | _, _⟩ <;> first
      | exact List.cons_ne_nil _ _
      | cases memory
  · rw [Variant.emission, immediate]
    cases v <;> exact List.cons_ne_nil _ _

set_option maxRecDepth 20000 in
theorem Variant.decode_stepsByOne (v : Variant) (op : U8)
    (indexed : (v.decode op).addressMode.wordIndex ≠ .none) :
    ((v.decode op).memoryAction = .readModifyWrite && isIncdecAbsX op) =
      Arch.stepsByOne (v.decode op) := by
  refine OpcodeTable.decode_induction (P := fun i op => i.addressMode.wordIndex ≠ .none →
    (i.memoryAction = .readModifyWrite && isIncdecAbsX op) = Arch.stepsByOne i) _ op
    (fun none => absurd rfl none) ?_ indexed
  intro e mem _ indexed
  have all : entries.all fun e => e.instruction.addressMode.wordIndex = .none ||
      (e.instruction.memoryAction = .readModifyWrite && isIncdecAbsX (BitVec.ofNat 8 e.code)) =
        Arch.stepsByOne e.instruction := by
    decide
  have checked := List.all_eq_true.1 all e mem
  simp only [Bool.or_eq_true, decide_eq_true_eq] at checked
  exact checked.resolve_left indexed

namespace Exec

section
variable {β : Type} {e : Exec (Recorder β)} {log : List Access} {accesses : List (Bool × U16)}

def Logged (e : Exec (Recorder β)) (log : List Access) (accesses : List (Bool × U16)) : Prop :=
  ∃ tail, e.bus.log = log ++ tail ∧ tail.map Access.brief = accesses

theorem Logged.snoc {f : Exec (Recorder β)} (logged : e.Logged log accesses) {a : Access}
    (eq : f.bus.log = e.bus.log ++ [a]) : f.Logged log (accesses ++ [a.brief]) := by
  obtain ⟨tail, same, briefs⟩ := logged
  refine ⟨tail ++ [a], ?_, ?_⟩
  · rw [eq, same, List.append_assoc]
  · rw [List.map_append, briefs]
    rfl

end

theorem Logged.operandRead {e : Exec (Recorder SimpleBus)} {log : List Access}
    {accesses : List (Bool × U16)} (logged : e.Logged log accesses) (addr ea : U32) :
    (e.operandRead addr ea).Logged log (accesses ++ [(true, addr.setWidth 16)]) := by
  have last := Logged.snoc (f := e.operandRead addr ea) logged rfl
  exact last

structure Ready (e : Exec (Recorder SimpleBus)) (s : Arch) (i : Instruction) (op : U8)
    (log : List Access) : Prop where
  ctx : e.ctx = s.ctx i op i.addressMode.length
  ea : e.scratch.ea.setWidth 16 = s.effectiveAddress i.addressMode
  action : e.scratch.memoryAction = i.memoryAction
  bus : e.bus.bus = ⟨s.ram⟩
  writes : Access.writes e.bus.log = Access.writes log

theorem Ready.operandRead {e : Exec (Recorder SimpleBus)} {s : Arch} {i : Instruction} {op : U8}
    {log : List Access} (ready : e.Ready s i op log) (addr : U32) :
    (e.operandRead addr e.scratch.ea).Ready s i op log where
  ctx := ready.ctx
  ea := ready.ea
  action := ready.action
  bus := ready.bus
  writes := (Access.writes_read _ _ _ _ _).trans ready.writes

theorem Ready.op0 {e : Exec (Recorder SimpleBus)} {s : Arch} {i : Instruction} {op : U8}
    {log : List Access} (ready : e.Ready s i op log) :
    (e.operandRead e.scratch.ea e.scratch.ea).scratch.op0 =
      s.ram (s.effectiveAddress i.addressMode) := by
  rw [← ready.ea]
  exact congrArg (fun bus => bus.ram (e.scratch.ea.setWidth 16)) ready.bus

theorem target_eq {m : Narrow} {s : Arch} {i : Instruction} {op : U8} {log : List Access}
    (addressed : m.Addressed s i op log) :
    (m.exec.target i.addressMode.wordIndex).setWidth 16 = s.effectiveAddress i.addressMode := by
  rw [addressed.target, BitVec.setWidth_add _ _ (by omega), s.effectiveAddress_eq]
  simp

theorem target_ready {m : Narrow} {s : Arch} {i : Instruction} {op : U8} {log : List Access}
    (addressed : m.Addressed s i op log) (addr : U32) :
    (m.exec.operandRead addr (m.exec.target i.addressMode.wordIndex)).Ready s i op log where
  ctx := addressed.ctx
  ea := target_eq addressed
  action := addressed.action
  bus := congrArg SimpleBus.mk addressed.ram
  writes := (Access.writes_read _ _ _ _ _).trans addressed.writes

variable {F : Flavor} {s : Arch} {i : Instruction} {op : U8} {log : List Access}

theorem fixes_eq {m : Narrow} (addressed : m.Addressed s i op log)
    (steps : (i.memoryAction = .readModifyWrite && isIncdecAbsX op) = Arch.stepsByOne i) :
    m.exec.fixes i.addressMode.wordIndex =
      (s.crosses i.addressMode || i.memoryAction = .write || Arch.stepsByOne i) := by
  have crosses : decide (m.exec.uncarried i.addressMode.wordIndex ≠
      m.exec.target i.addressMode.wordIndex) = s.crosses i.addressMode := by
    rw [addressed.uncarried, addressed.target, Arch.crosses, decide_eq_decide, ← Nat.not_lt,
      not_iff_not]
    exact add_lo_iff _ _
  have action : m.exec.scratch.memoryAction = i.memoryAction := addressed.action
  have opcode : m.exec.ctx.opcode = op := congrArg MicroCtx6502.opcode addressed.ctx
  rw [Exec.fixes, crosses, action, opcode, steps]

theorem turns_fixing {m : Narrow} (addressed : m.Addressed s i op log)
    (steps : i.addressMode.wordIndex ≠ .none →
      (i.memoryAction = .readModifyWrite && isIncdecAbsX op) = Arch.stepsByOne i)
    (rest : List MicroOp) :
    ∃ n e us, Exec.Turns F m.exec (i.addressMode.fixing ++ rest) n e us ∧ e.Ready s i op log ∧
      ((us = rest ∧ ∃ dummies, s.accesses F i = dummies ++ s.operandAccesses F i ∧
          e.Logged log ((s.pointerReads i.addressMode).map (true, ·) ++ dummies)) ∨
        e.scratch.op0 = s.ram (s.effectiveAddress i.addressMode) ∧
          s.accesses F i = s.operandAccesses F i ∧ e.Logged log
            ((s.pointerReads i.addressMode).map (true, ·) ++
              [(true, s.effectiveAddress i.addressMode)]) ∧
        (i.memoryAction = .read ∧ us = [] ∨
          i.memoryAction = .readModifyWrite ∧ F.invalidAddrRead = false ∧ us = rest.tail)) := by
  by_cases plain : i.addressMode.wordIndex = .none
  · have none : i.addressMode.fixing = [] := if_pos plain
    have ea : m.exec.target i.addressMode.wordIndex = m.exec.scratch.ea := by
      simp [target, plain, MicroCtx6502.offset]
    have ready : m.exec.Ready s i op log :=
      ⟨addressed.ctx, ea ▸ target_eq addressed, addressed.action,
        congrArg SimpleBus.mk addressed.ram, addressed.writes⟩
    refine ⟨0, m.exec, rest, by rw [none]; exact .refl, ready, .inl ⟨rfl, [], ?_, ?_⟩⟩
    · exact s.accesses_plain F plain
    · rw [List.append_nil]
      exact addressed.log
  · have fixing : i.addressMode.fixing ++ rest = .offsetOptFix i.addressMode.wordIndex :: rest := by
      simp [AddressMode.fixing, plain]
    have loads : i.memoryAction = .read → Arch.stepsByOne i = false := by
      intro read
      simp [← steps plain, read]
    have eq := fixes_eq addressed (steps plain)
    rw [fixing]
    cases fixes : m.exec.fixes i.addressMode.wordIndex with
    | true =>
        have start : m.exec.Logged log _ := addressed.log
        refine ⟨1, _, _, .single (fits rfl) (next_fix F _ _ fixes), target_ready addressed _,
          .inl ⟨rfl, _, ?_, start.operandRead _ _⟩⟩
        rw [s.accesses_fixed F plain loads (eq.symm.trans fixes), addressed.fixAddr]
    | false =>
        have start : m.exec.Logged log _ := addressed.log
        have logged := start.operandRead (m.exec.target i.addressMode.wordIndex)
          (m.exec.target i.addressMode.wordIndex)
        rw [target_eq addressed] at logged
        have ready := target_ready addressed (m.exec.target i.addressMode.wordIndex)
        refine ⟨1, _, _, .single (fits rfl) (next_nofix F _ _ fixes), ready, ?_⟩
        have action : m.exec.scratch.memoryAction = i.memoryAction := addressed.action
        have op0 : _ = s.ram (s.effectiveAddress i.addressMode) := ready.op0
        have inPage := s.accesses_inPage F plain (eq.symm.trans fixes)
        rw [action]
        cases act : i.memoryAction with
        | read => exact .inr ⟨op0, by simpa [act] using inPage, logged, .inl ⟨rfl, rfl⟩⟩
        | write => simp [Exec.fixes, action, act] at fixes
        | readModifyWrite =>
            rw [act] at inPage
            cases invalid : F.invalidAddrRead with
            | true => exact .inl ⟨rfl, _, by simpa [invalid] using inPage, logged⟩
            | false => exact .inr ⟨op0, by simpa [invalid] using inPage, logged, .inr ⟨rfl, rfl, rfl⟩⟩

/-! ## Reads -/

structure Loaded (e : Exec (Recorder SimpleBus)) (s : Arch) (i : Instruction) (op : U8)
    (log : List Access) : Prop where
  ctx : e.ctx = s.ctx i op i.addressMode.length
  op0 : e.scratch.op0 = s.ram (s.effectiveAddress i.addressMode)
  bus : e.bus.bus = ⟨s.ram⟩
  writes : Access.writes e.bus.log = Access.writes log

theorem Ready.loaded {e : Exec (Recorder SimpleBus)} (ready : e.Ready s i op log) :
    (e.operandRead e.scratch.ea e.scratch.ea).Loaded s i op log :=
  ⟨ready.ctx, ready.op0, ready.bus, (ready.operandRead _).writes⟩

theorem turns_read (v : Variant) (s : Arch) (op : U8) (log : List Access)
    (memory : (v.decode op).addressMode.isMemory) (read : (v.decode op).memoryAction = .read) :
    ∃ n e, Exec.Turns v.flavor (s.opening (v.decode op) op log).exec (v.emission op) n e [] ∧
      e.Loaded s (v.decode op) op log ∧ e.Logged log (s.trail v.flavor (v.decode op)) ∧
      e.scratch.ea.setWidth 16 = s.effectiveAddress (v.decode op).addressMode := by
  rw [v.emission_memory op memory]
  simp only [read, MicroOp.finishAction]
  obtain ⟨m, first, addressed⟩ := turns_addressing v.flavor s (v.decode op) op log memory
    ((v.decode op).addressMode.fixing ++ [.read .ea .op0 false])
  have operand : s.operandAccesses v.flavor (v.decode op) =
      [(true, s.effectiveAddress (v.decode op).addressMode)] := by
    simp only [Arch.operandAccesses, read]
  obtain ⟨n, e, us, second, ready, ⟨rfl, dummies, accesses, logged⟩ |
      ⟨op0, accesses, logged, ⟨-, rfl⟩ | ⟨modify, -⟩⟩⟩ :=
    turns_fixing addressed (v.decode_stepsByOne op) [.read .ea .op0 false]
  · refine ⟨_, _, first.trans (second.trans (.single (fits rfl) (next_read_ea _ _ _))), ready.loaded,
      ?_, ready.ea⟩
    have last := logged.operandRead e.scratch.ea e.scratch.ea
    rw [ready.ea, List.append_assoc, ← operand, ← accesses] at last
    exact last
  · refine ⟨_, e, first.trans second, ⟨ready.ctx, op0, ready.bus, ready.writes⟩, ?_, ready.ea⟩
    rw [← operand, ← accesses] at logged
    exact logged
  · cases read.symm.trans modify

theorem turns_immediate (v : Variant) (s : Arch) (op : U8) (log : List Access)
    (read : (v.decode op).memoryAction = .read)
    (immediate : (v.decode op).addressMode = .noMemory .immediate) :
    ∃ n e, Exec.Turns v.flavor (s.opening (v.decode op) op log).exec (v.emission op) n e [] ∧
      e.Loaded s (v.decode op) op log ∧ e.Logged log (s.trail v.flavor (v.decode op)) := by
  have emission : v.emission op = [.read .pc .op0 true] := by
    rw [Variant.emission, immediate]
    cases v <;> rfl
  have trail : s.trail v.flavor (v.decode op) = [] ++ [(true, s.pc + 1)] := by
    rw [Arch.trail, s.accesses_plain v.flavor (by rw [immediate]; rfl), Arch.operandAccesses, read,
      immediate]
    rfl
  rw [emission]
  refine ⟨1, _, .single (fits rfl) (next_reads _ _ [] (s.pc + 1) rfl rfl rfl), ⟨?_, ?_, rfl, ?_⟩, ?_⟩
  · change ({ s.ctx (v.decode op) op 1 with pc := s.pc + 1 + 1 } : MicroCtx6502) = _
    simp [immediate, Arch.ctx, AddressMode.length, BitVec.add_assoc]
  · rw [immediate]
    rfl
  · exact Access.writes_read _ _ _ _ _
  · refine ⟨[_], rfl, ?_⟩
    rw [trail]
    simp [Access.brief, Access.isRead, Access.addr]

theorem turns_operand (v : Variant) (s : Arch) (op : U8) (log : List Access)
    (read : (v.decode op).memoryAction = .read)
    (operand : (v.decode op).addressMode.isMemory ∨ (v.decode op).addressMode = .noMemory .immediate) :
    ∃ n e, Exec.Turns v.flavor (s.opening (v.decode op) op log).exec (v.emission op) n e [] ∧
      e.Loaded s (v.decode op) op log ∧ e.Logged log (s.trail v.flavor (v.decode op)) := by
  obtain memory | immediate := operand
  · obtain ⟨n, e, turns, loaded, logged, -⟩ := turns_read v s op log memory read
    exact ⟨n, e, turns, loaded, logged⟩
  · exact turns_immediate v s op log read immediate

/-! ## Writes -/

theorem aluPrepareStore_stored {ctx : MicroCtx6502} {scratch : MicroExecutor} {value : U8}
    (action : scratch.memoryAction ≠ .readModifyWrite)
    (stored : ctx.instruction.mnemonic.stored ctx.a ctx.x ctx.y ctx.status = some value) :
    ctx.aluPrepareStore scratch = (ctx, { scratch with dataLatch := value }) := by
  rw [MicroCtx6502.aluPrepareStore, if_neg action]
  cases h : ctx.instruction.mnemonic <;> rw [h] at stored <;> cases stored <;> rfl

theorem aluPrepareStore_modify {ctx : MicroCtx6502} {scratch : MicroExecutor}
    (action : scratch.memoryAction = .readModifyWrite) :
    ctx.aluPrepareStore scratch = (ctx, { scratch with dataLatch := scratch.op0 }) := by
  rw [MicroCtx6502.aluPrepareStore, if_pos action]

def operandWrite (e : Exec (Recorder SimpleBus)) (value : U8) : Exec (Recorder SimpleBus) :=
  ⟨{ e.scratch with dataLatch := value }, e.ctx,
    ⟨⟨Function.update e.bus.bus.ram (e.scratch.ea.setWidth 16) value⟩,
      e.bus.log ++ [.write e.scratch.ea value true false]⟩⟩

theorem Logged.operandWrite {e : Exec (Recorder SimpleBus)} {log : List Access}
    {accesses : List (Bool × U16)} (logged : e.Logged log accesses) (value : U8) :
    (e.operandWrite value).Logged log (accesses ++ [(false, e.scratch.ea.setWidth 16)]) := by
  have last := Logged.snoc (f := e.operandWrite value) logged rfl
  exact last

theorem next_prepared (F : Flavor) {e : Exec (Recorder SimpleBus)} {ctx : MicroCtx6502}
    {scratch : MicroExecutor} (prepared : e.ctx.aluPrepareStore e.scratch = (ctx, scratch))
    (rest : List MicroOp) : e.next F .aluWrite rest =
      ((Exec.mk scratch ctx e.bus).operandWrite scratch.dataLatch, rest) := by
  have stored : e.prepareStore .aluWrite = ⟨scratch, ctx, e.bus⟩ := by
    simp [prepareStore, MicroOp.aluWrite, prepared]
  have body : e.body F .aluWrite = ((e.prepareStore .aluWrite).access .aluWrite
    (e.prepareStore .aluWrite).scratch.ea, none) := rfl
  rw [next, body, stored]
  rfl

theorem next_aluWrite (F : Flavor) {e : Exec (Recorder SimpleBus)} {value : U8}
    (prepared : e.ctx.aluPrepareStore e.scratch = (e.ctx, { e.scratch with dataLatch := value }))
    (rest : List MicroOp) : e.next F .aluWrite rest = (e.operandWrite value, rest) :=
  next_prepared F prepared rest

theorem stored_action {op : Mnemonic} {a x y p value : U8} (h : op.stored a x y p = some value) :
    op.action = .write := by
  cases op <;> cases h <;> rfl

theorem turns_store (v : Variant) (s : Arch) (op : U8) (log : List Access)
    (memory : (v.decode op).addressMode.isMemory) (write : (v.decode op).memoryAction = .write) :
    ∃ n e dummies, Exec.Turns v.flavor (s.opening (v.decode op) op log).exec (v.emission op) n e
        [.aluWrite] ∧ e.Ready s (v.decode op) op log ∧ e.Logged log dummies ∧
      s.trail v.flavor (v.decode op) =
        dummies ++ [(false, s.effectiveAddress (v.decode op).addressMode)] := by
  rw [v.emission_memory op memory]
  simp only [write, MicroOp.finishAction]
  obtain ⟨m, first, addressed⟩ := turns_addressing v.flavor s (v.decode op) op log memory
    ((v.decode op).addressMode.fixing ++ [.aluWrite])
  obtain ⟨n, e, us, second, ready, ⟨rfl, dummies, accesses, logged⟩ |
      ⟨-, -, -, ⟨read, -⟩ | ⟨modify, -⟩⟩⟩ := turns_fixing addressed (v.decode_stepsByOne op) [.aluWrite]
  · refine ⟨_, e, _, first.trans second, ready, logged, ?_⟩
    rw [Arch.trail, accesses, Arch.operandAccesses, write, List.append_assoc]
  · cases write.symm.trans read
  · cases write.symm.trans modify

theorem turns_write (v : Variant) (s : Arch) (op : U8) (log : List Access)
    (memory : (v.decode op).addressMode.isMemory) {value : U8}
    (stored : (v.decode op).mnemonic.stored s.a s.x s.y s.p = some value) :
    ∃ n e, Exec.Turns v.flavor (s.opening (v.decode op) op log).exec (v.emission op) n e [] ∧
      e.ctx = s.ctx (v.decode op) op (v.decode op).addressMode.length ∧
      e.bus.bus = ⟨Function.update s.ram (s.effectiveAddress (v.decode op).addressMode) value⟩ ∧
      Access.writes e.bus.log =
        Access.writes log ++ [(s.effectiveAddress (v.decode op).addressMode, value)] ∧
      e.Logged log (s.trail v.flavor (v.decode op)) := by
  have write : (v.decode op).memoryAction = .write := (v.decode_action op).trans (stored_action stored)
  obtain ⟨n, e, dummies, first, ready, logged, trail⟩ := turns_store v s op log memory write
  have prepared : e.ctx.aluPrepareStore e.scratch =
      (e.ctx, { e.scratch with dataLatch := value }) := by
    refine aluPrepareStore_stored (by simp [ready.action, write]) ?_
    rw [ready.ctx]
    exact stored
  refine ⟨_, _, first.trans (.single (fits rfl) (next_aluWrite _ prepared _)), ready.ctx, ?_, ?_, ?_⟩
  · rw [← ready.ea]
    exact congrArg (fun bus => SimpleBus.mk (Function.update bus.ram _ value)) ready.bus
  · rw [← ready.ea, ← ready.writes]
    exact Access.writes_write _ _ _ _ _
  · rw [trail, ← ready.ea]
    exact logged.operandWrite value

/-! ## Read-modify-write -/

theorem modified_eq (F : Flavor) {e : Exec (Recorder SimpleBus)}
    (modifies : e.ctx.instruction.mnemonic.action = .readModifyWrite)
    (bits : e.ctx.instruction.mnemonic.bitsAgree e.ctx.opcode) :
    let r := e.ctx.instruction.mnemonic.modify F.decimal e.ctx.a e.ctx.status e.scratch.op0
    e.modified F = ⟨{ e.scratch with op0 := r.value },
      { e.ctx with a := r.a, status := r.p }, e.bus⟩ := by
  have eq := MicroCtx6502.aluModify_eq F e.ctx e.scratch modifies bits
  simp only [modified, eq, get_ok]

def operandPeek (e : Exec (Recorder SimpleBus)) : Exec (Recorder SimpleBus) :=
  let data := e.bus.bus.ram (e.scratch.ea.setWidth 16)
  ⟨{ e.scratch with dataLatch := data }, e.ctx,
    ⟨e.bus.bus, e.bus.log ++ [.read e.scratch.ea true false data]⟩⟩

theorem Logged.operandPeek {e : Exec (Recorder SimpleBus)} {log : List Access}
    {accesses : List (Bool × U16)} (logged : e.Logged log accesses) :
    e.operandPeek.Logged log (accesses ++ [(true, e.scratch.ea.setWidth 16)]) := by
  have last := Logged.snoc (f := e.operandPeek) logged rfl
  exact last

theorem next_modify_read (F : Flavor) (e : Exec (Recorder SimpleBus)) (rest : List MicroOp) :
    e.next F (.aluModify true) rest = (e.operandPeek.modified F, rest) := rfl

theorem next_modify_write (F : Flavor) {e : Exec (Recorder SimpleBus)}
    (action : e.scratch.memoryAction = .readModifyWrite) (rest : List MicroOp) :
    e.next F (.aluModify false) rest = ((e.operandWrite e.scratch.op0).modified F, rest) := by
  have prepared : e.ctx.aluPrepareStore e.scratch = _ := aluPrepareStore_modify action
  have stored : e.prepareStore (.aluModify false) =
      { e with scratch.dataLatch := e.scratch.op0 } := by
    simp [prepareStore, MicroOp.aluModify, prepared]
  have body : e.body F (.aluModify false) = ((e.prepareStore (.aluModify false)).access
    (.aluModify false) (e.prepareStore (.aluModify false)).scratch.ea, none) := rfl
  rw [next, body, stored]
  rfl

theorem turns_modify_tail (v : Variant) {e : Exec (Recorder SimpleBus)}
    {accesses : List (Bool × U16)} (ready : e.Ready s i op log) (logged : e.Logged log accesses)
    (op0 : e.scratch.op0 = s.ram (s.effectiveAddress i.addressMode))
    (action : i.memoryAction = .readModifyWrite) (modifies : i.mnemonic.action = .readModifyWrite)
    (bits : i.mnemonic.bitsAgree op) :
    let addr := s.effectiveAddress i.addressMode
    let r := i.mnemonic.modify v.flavor.decimal s.a s.p (s.ram addr)
    ∃ e', Exec.Turns v.flavor e [.aluModify (!v.flavor.rmwDummyWrite), .aluWrite] (1 + 1) e' [] ∧
      e'.ctx = { s.ctx i op i.addressMode.length with a := r.a, status := r.p } ∧
      e'.bus.bus = ⟨Function.update s.ram addr r.value⟩ ∧
      Access.writes e'.bus.log = Access.writes log ++
        (if v.flavor.rmwDummyWrite then [(addr, s.ram addr)] else []) ++ [(addr, r.value)] ∧
      e'.Logged log (accesses ++ [(!v.flavor.rmwDummyWrite, addr), (false, addr)]) := by
  intro addr r
  have ctx := ready.ctx
  have result (c : Exec (Recorder SimpleBus)) (same : c.ctx = e.ctx)
      (same' : c.scratch.op0 = e.scratch.op0) : c.modified v.flavor =
        ⟨{ c.scratch with op0 := r.value }, { c.ctx with a := r.a, status := r.p }, c.bus⟩ := by
    rw [modified_eq v.flavor (by rw [same, ctx]; exact modifies) (by rw [same, ctx]; exact bits),
      same', op0, same, ctx]
    rfl
  have finish (c : MicroCtx6502) (same : c = e.ctx) : ({ c with a := r.a, status := r.p } : MicroCtx6502) =
      { s.ctx i op i.addressMode.length with a := r.a, status := r.p } := by
    rw [same, ctx]
  have ends {c : Exec (Recorder SimpleBus)} (read : Bool) (at_end : c.Logged log
      (accesses ++ [(read, e.scratch.ea.setWidth 16)] ++ [(false, e.scratch.ea.setWidth 16)])) :
      c.Logged log (accesses ++ [(read, addr), (false, addr)]) := by
    rw [ready.ea, List.append_assoc] at at_end
    exact at_end
  cases dummy : v.flavor.rmwDummyWrite with
  | true =>
      have first := next_modify_write v.flavor (ready.action.trans action) [.aluWrite]
      rw [result (e.operandWrite e.scratch.op0) rfl rfl] at first
      refine ⟨_, (Works.single (fits rfl) first).trans (.single (fits rfl)
        (next_aluWrite v.flavor (aluPrepareStore_modify ?_) [])), finish e.ctx rfl, ?_, ?_, ?_⟩
      · exact ready.action.trans action
      · change SimpleBus.mk (Function.update (Function.update e.bus.bus.ram (e.scratch.ea.setWidth 16)
          e.scratch.op0) (e.scratch.ea.setWidth 16) r.value) = _
        rw [Function.update_idem, ready.ea, ready.bus]
      · change Access.writes (e.bus.log ++ [.write e.scratch.ea e.scratch.op0 true false] ++
          [.write e.scratch.ea r.value true false]) = _
        rw [Access.writes_write, Access.writes_write, ready.writes, ready.ea, op0]
        rfl
      · exact ends _ ((logged.operandWrite e.scratch.op0).operandWrite r.value)
  | false =>
      have first := next_modify_read v.flavor e [.aluWrite]
      rw [result e.operandPeek rfl rfl] at first
      refine ⟨_, (Works.single (fits rfl) first).trans (.single (fits rfl)
        (next_aluWrite v.flavor (aluPrepareStore_modify ?_) [])), finish e.ctx rfl, ?_, ?_, ?_⟩
      · exact ready.action.trans action
      · change SimpleBus.mk (Function.update e.bus.bus.ram (e.scratch.ea.setWidth 16) r.value) = _
        rw [ready.ea, ready.bus]
      · change Access.writes (e.bus.log ++ [.read e.scratch.ea true false _] ++
          [.write e.scratch.ea r.value true false]) = _
        rw [Access.writes_write, Access.writes_read, ready.writes, ready.ea]
        simp only [Bool.false_eq_true, if_false, List.append_nil]
        rfl
      · exact ends _ ((logged.operandPeek).operandWrite r.value)

theorem turns_modify (v : Variant) (s : Arch) (op : U8) (log : List Access)
    (memory : (v.decode op).addressMode.isMemory)
    (modify : (v.decode op).memoryAction = .readModifyWrite) :
    let addr := s.effectiveAddress (v.decode op).addressMode
    let r := (v.decode op).mnemonic.modify v.flavor.decimal s.a s.p (s.ram addr)
    ∃ n e, Exec.Turns v.flavor (s.opening (v.decode op) op log).exec (v.emission op) n e [] ∧
      e.ctx = { s.ctx (v.decode op) op (v.decode op).addressMode.length with
        a := r.a, status := r.p } ∧
      e.bus.bus = ⟨Function.update s.ram addr r.value⟩ ∧
      Access.writes e.bus.log = Access.writes log ++
        (if v.flavor.rmwDummyWrite then [(addr, s.ram addr)] else []) ++ [(addr, r.value)] ∧
      e.Logged log (s.trail v.flavor (v.decode op)) := by
  intro addr r
  have modifies := (v.decode_action op).symm.trans modify
  have bits := v.decode_bits op
  have operand : s.operandAccesses v.flavor (v.decode op) =
      [(true, addr)] ++ [(!v.flavor.rmwDummyWrite, addr), (false, addr)] := by
    simp only [Arch.operandAccesses, modify]
    rfl
  rw [v.emission_memory op memory]
  simp only [modify, MicroOp.finishAction]
  obtain ⟨m, first, addressed⟩ := turns_addressing v.flavor s (v.decode op) op log memory
    ((v.decode op).addressMode.fixing ++
      [.read .ea .op0 false, .aluModify (!v.flavor.rmwDummyWrite), .aluWrite])
  obtain ⟨n, e, us, second, ready, ⟨rfl, dummies, accesses, logged⟩ |
      ⟨op0, accesses, logged, ⟨read, -⟩ | ⟨again, cmos, rfl⟩⟩⟩ :=
    turns_fixing addressed (v.decode_stepsByOne op)
      [.read .ea .op0 false, .aluModify (!v.flavor.rmwDummyWrite), .aluWrite]
  · have third : Exec.Turns v.flavor e [.read .ea .op0 false, .aluModify (!v.flavor.rmwDummyWrite),
        .aluWrite] 1 _ [.aluModify (!v.flavor.rmwDummyWrite), .aluWrite] :=
      .single (fits rfl) (next_read_ea _ e _)
    obtain ⟨e', tail, ctx, bus, writes, logged⟩ := turns_modify_tail v (ready.operandRead _)
      (logged.operandRead e.scratch.ea _) ready.op0 modify modifies bits
    refine ⟨_, e', first.trans (second.trans (third.trans tail)), ctx, bus, writes, ?_⟩
    rw [Arch.trail, accesses, operand]
    rw [ready.ea] at logged
    simpa using logged
  · cases modify.symm.trans read
  · obtain ⟨e', tail, ctx, bus, writes, logged⟩ :=
      turns_modify_tail v ready logged op0 modify modifies bits
    refine ⟨_, e', first.trans (second.trans tail), ctx, bus, writes, ?_⟩
    rw [Arch.trail, accesses, operand, ← List.append_assoc]
    exact logged

end Exec

end Rs65x
