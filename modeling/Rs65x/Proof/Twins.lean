import Rs65x.Proof.Status

/-!
# The decimal flag without a decimal mode

The NES core is the NMOS core without decimal mode. Where D is clear on the NMOS core, the two do
the same from states that differ in D at most, up to the cycle that pushes the status.
-/

namespace Rs65x
open Fallible

namespace Within
variable {mask p q : U8}

theorem applied {T : Type} (r : Alu.AluResult T) (within : Within mask p q) :
    Within mask (r.apply p).2 (r.apply q).2 := by
  change (q &&& ~~~r.flagMask ||| r.flags &&& r.flagMask) &&& ~~~mask =
    (p &&& ~~~r.flagMask ||| r.flags &&& r.flagMask) &&& ~~~mask
  have swap (w : U8) : w &&& ~~~r.flagMask &&& ~~~mask = w &&& ~~~mask &&& ~~~r.flagMask := by
    rw [BitVec.and_assoc, BitVec.and_comm (~~~r.flagMask), ← BitVec.and_assoc]
  have within : q &&& ~~~mask = p &&& ~~~mask := within
  rw [BitVec.and_or_distrib_right, BitVec.and_or_distrib_right, swap q, swap p, within]

theorem and_not (flag : U8) (within : Within mask p q) :
    Within mask (p &&& ~~~flag) (q &&& ~~~flag) := by
  have within : q &&& ~~~mask = p &&& ~~~mask := within
  change q &&& ~~~flag &&& ~~~mask = p &&& ~~~flag &&& ~~~mask
  rw [BitVec.and_assoc, BitVec.and_comm (~~~flag), ← BitVec.and_assoc, within, BitVec.and_assoc,
    BitVec.and_comm (~~~mask), ← BitVec.and_assoc]

theorem or_same (flags : U8) (within : Within mask p q) :
    Within mask (p ||| flags) (q ||| flags) := by
  have within : q &&& ~~~mask = p &&& ~~~mask := within
  change (q ||| flags) &&& ~~~mask = (p ||| flags) &&& ~~~mask
  rw [BitVec.and_or_distrib_right, BitVec.and_or_distrib_right, within]

theorem flag (flag : U8) (b : Bool) (within : Within mask p q) :
    Within mask (Alu.setFlag p flag b) (Alu.setFlag q flag b) := by
  cases b with
  | true => exact within.or_same flag
  | false => exact within.and_not flag

end Within

namespace Alu
variable {p q : U8}

theorem adc_inert (prof : Profile) (a value : U8) (within : Within Psr.D p q)
    (clear : flagSet q Psr.D = false) : adc prof a value q .nmos6502 = adc prof a value p .none := by
  have carry : flagSet q Psr.C = flagSet p Psr.C := within.flagSet (by decide)
  simp only [adc, carry, clear, Bool.not_false, Bool.true_or, decide_true, Bool.or_true, if_true]

theorem sbc_inert (prof : Profile) (a value : U8) (within : Within Psr.D p q)
    (clear : flagSet q Psr.D = false) : sbc prof a value q .nmos6502 = sbc prof a value p .none := by
  have carry : flagSet q Psr.C = flagSet p Psr.C := within.flagSet (by decide)
  simp only [sbc, carry, clear, Bool.not_false, Bool.true_or, decide_true, Bool.or_true, if_true]

end Alu

def Mnemonic.showsDecimal : Mnemonic → Bool
  | .adc | .sbc | .usbc | .arr | .rra | .isc | .php | .brk => true
  | _ => false

structure Inert (op : Mnemonic) (p q : U8) : Prop where
  within : Within Psr.D p q
  clear : op.showsDecimal → flagSet q Psr.D = false

namespace Inert
variable {op : Mnemonic} {p q : U8}

theorem of_within (hides : op.showsDecimal = false) (within : Within Psr.D p q) : Inert op p q :=
  ⟨within, fun shows => by cases shows.symm.trans hides⟩

theorem applied (inert : Inert op p q) (r : Alu.AluResult U8) (apart : r.flagMask &&& Psr.D = 0) :
    Inert op (r.apply p).2 (r.apply q).2 where
  within := inert.within.applied r
  clear shows := (Alu.flagSet_apply r q apart).trans (inert.clear shows)

theorem masked (inert : Inert op p q) (shows : op.showsDecimal) : q = p &&& ~~~Psr.D := by
  have clear : ∀ q : U8, flagSet q Psr.D = false → q &&& ~~~Psr.D = q := by decide
  exact (clear q (inert.clear shows)).symm.trans inert.within

end Inert

namespace MicroCtx6502
variable (ctx : MicroCtx6502) (scratch : MicroExecutor) {q : U8}

theorem aluModify_inert (inert : Inert ctx.instruction.mnemonic ctx.status q) :
    ∃ a status op0 q', Inert ctx.instruction.mnemonic status q' ∧
      ctx.aluModify (Variant.flavor .nes) .release scratch =
        .ok ({ ctx with a, status }, { scratch with op0 }) ∧
      { ctx with status := q }.aluModify (Variant.flavor .nmos6502) .release scratch =
        .ok ({ ctx with a, status := q' }, { scratch with op0 }) := by
  have carry : flagSet q Psr.C = flagSet ctx.status Psr.C := inert.within.flagSet (by decide)
  unfold aluModify
  obtain ⟨pc, sp, p, a, x, y, ⟨op, mode, action⟩, opcode⟩ := ctx
  replace inert : Inert op p q := inert
  have within := inert.within
  simp only [carry]
  cases op <;> dsimp only
  case asl | lsr | rol | ror | dec | tsb | trb =>
    exact ⟨_, _, _, _, .of_within rfl (within.applied _), rfl, rfl⟩
  case inc =>
    obtain ⟨r, -, eq⟩ := Alu.inc_always scratch.op0
    have eq : Alu.inc .release scratch.op0 = .ok r := eq .release
    simp only [eq]
    exact ⟨_, _, _, _, .of_within rfl (within.applied _), rfl, rfl⟩
  case slo | rla | sre =>
    exact ⟨_, _, _, _, .of_within rfl ((within.applied _).applied _), rfl, rfl⟩
  case dcp => exact ⟨_, _, _, _, .of_within rfl ((within.applied _).flag _ _), rfl, rfl⟩
  case rra =>
    let rotated := Alu.ror scratch.op0 (flagSet p Psr.C)
    have first : Inert .rra (rotated.apply p).2 (rotated.apply q).2 :=
      inert.applied rotated (show (Psr.Z ||| Psr.N ||| Psr.C) &&& Psr.D = 0 by decide)
    obtain ⟨r, mask, eq⟩ := Alu.adc_always a rotated.value (rotated.apply p).2 .none
    have sum : Alu.adc .release a rotated.value (rotated.apply p).2 .none = .ok r := eq .release
    have sum' : Alu.adc .release a rotated.value (rotated.apply q).2 .nmos6502 = .ok r :=
      (Alu.adc_inert .release a _ first.within (first.clear rfl)).trans sum
    exact ⟨_, _, _, _, first.applied r (by rw [mask]; decide),
      bind_eq_ok.2 ⟨r, sum, rfl⟩, bind_eq_ok.2 ⟨r, sum', rfl⟩⟩
  case isc =>
    obtain ⟨r, mask, eq⟩ := Alu.sbc_always a (scratch.op0 + 1) p .none
    have difference : Alu.sbc .release a (scratch.op0 + 1) p .none = .ok r := eq .release
    have difference' : Alu.sbc .release a (scratch.op0 + 1) q .nmos6502 = .ok r :=
      (Alu.sbc_inert .release a _ within (inert.clear rfl)).trans difference
    exact ⟨_, _, _, _, inert.applied r (by rw [mask]; decide),
      bind_eq_ok.2 ⟨r, difference, rfl⟩, bind_eq_ok.2 ⟨r, difference', rfl⟩⟩
  all_goals
    cases rmb : bitIndexRmb opcode with
    | some bit =>
        obtain ⟨mask, -, eq⟩ := plainShl_always (1 : U8) (bitIndexRmb_lt rmb)
        have eq : plainShl .release (1 : U8) bit.toNat = .ok mask := eq .release
        simp only [eq]
        exact ⟨_, _, _, _, inert, rfl, rfl⟩
    | none =>
        cases smb : bitIndexSmb opcode with
        | some bit =>
            obtain ⟨mask, -, eq⟩ := plainShl_always (1 : U8) (bitIndexSmb_lt smb)
            have eq : plainShl .release (1 : U8) bit.toNat = .ok mask := eq .release
            simp only [eq]
            exact ⟨_, _, _, _, inert, rfl, rfl⟩
        | none => exact ⟨_, _, _, _, inert, rfl, rfl⟩

theorem aluBranch_within (within : Within Psr.D ctx.status q) :
    { ctx with status := q }.aluBranch .release scratch = ctx.aluBranch .release scratch := by
  have carry : flagSet q Psr.C = flagSet ctx.status Psr.C := within.flagSet (by decide)
  have zero : flagSet q Psr.Z = flagSet ctx.status Psr.Z := within.flagSet (by decide)
  have sign : flagSet q Psr.N = flagSet ctx.status Psr.N := within.flagSet (by decide)
  have overflow : flagSet q Psr.V = flagSet ctx.status Psr.V := within.flagSet (by decide)
  simp only [aluBranch, carry, zero, sign, overflow]

end MicroCtx6502

/-! ## Micro-ops -/

def MicroOp.discreet (op : Mnemonic) (u : MicroOp) : Bool :=
  if u.localLatch = .status || u.localLatch = .brkStatus then u.bus.read && !op.showsDecimal
  else u.bus.read || op ≠ .php

theorem MicroOp.discreet_stores {op : Mnemonic} {u : MicroOp} (quiet : u.discreet op) :
    u.bus.read = true ∨ op ≠ .php := by
  rw [discreet] at quiet
  split at quiet
  · simp only [Bool.and_eq_true] at quiet
    exact .inl quiet.1
  · simpa using quiet

namespace Exec
variable {β : Type}

def withStatus (e : Exec β) (q : U8) : Exec β := { e with ctx := { e.ctx with status := q } }

def Twin (e e' : Exec β) : Prop :=
  ∃ q, Inert e.ctx.instruction.mnemonic e.ctx.status q ∧ e' = e.withStatus q

variable (e : Exec β) {q : U8}

theorem prepareStore_withStatus {u : MicroOp}
    (stores : u.bus.read = true ∨ e.ctx.instruction.mnemonic ≠ .php) :
    (e.withStatus q).prepareStore u = (e.prepareStore u).withStatus q := by
  obtain ⟨scratch, ⟨pc, sp, p, a, x, y, ⟨op, mode, action⟩, opcode⟩, bus⟩ := e
  unfold prepareStore MicroCtx6502.aluPrepareStore withStatus
  cases read : u.bus.read with
  | true => rfl
  | false =>
      by_cases modify : scratch.memoryAction = .readModifyWrite
      · simp only [Bool.false_eq_true, if_false, if_pos modify]
      · cases op
        case php => simp [read] at stores
        all_goals simp only [Bool.false_eq_true, if_false, if_neg modify]

theorem access_twin [Bus β] {u : MicroOp} (quiet : u.discreet e.ctx.instruction.mnemonic)
    (inert : Inert e.ctx.instruction.mnemonic e.ctx.status q) (addr : U32) :
    (e.access u addr).Twin ((e.withStatus q).access u addr) := by
  unfold access
  cases read : u.bus.read with
  | true =>
      cases latch : u.localLatch with
      | status | brkStatus =>
          simp [MicroOp.discreet, latch, read] at quiet
          exact ⟨_, .of_within quiet (.refl _ _), rfl⟩
      | _ => exact ⟨q, inert, rfl⟩
  | false =>
      cases latch : u.localLatch with
      | status | brkStatus => simp [MicroOp.discreet, latch, read] at quiet
      | _ => exact ⟨q, inert, rfl⟩

theorem Twin.addTo {e e' : Exec β} (twin : e.Twin e') (latch : Latch) (offset : U16) :
    (e.addTo latch offset).Twin (e'.addTo latch offset) := by
  obtain ⟨q, inert, rfl⟩ := twin
  cases latch <;> exact ⟨q, inert, rfl⟩

theorem modified_twin (inert : Inert e.ctx.instruction.mnemonic e.ctx.status q) :
    (e.modified (Variant.flavor .nes)).Twin ((e.withStatus q).modified (Variant.flavor .nmos6502)) := by
  obtain ⟨a, status, op0, q', inert', nes, nmos⟩ := e.ctx.aluModify_inert e.scratch inert
  have nmos : (e.withStatus q).ctx.aluModify (Variant.flavor .nmos6502) .release
    (e.withStatus q).scratch = _ := nmos
  simp only [modified, nes, nmos, get_ok]
  exact ⟨q', inert', rfl⟩

theorem branchTail_withStatus (within : Within Psr.D e.ctx.status q) :
    (e.withStatus q).branchTail = e.branchTail := by
  have same : (e.withStatus q).branches = e.branches :=
    congrArg (get · false) (e.ctx.aluBranch_within e.scratch within)
  simp only [branchTail, same]
  rfl

theorem turn_twin (u : MicroOp) (fixedAddr : Option U32) (rest : List MicroOp)
    (inert : Inert e.ctx.instruction.mnemonic e.ctx.status q) :
    (e.turn (Variant.flavor .nes) u fixedAddr rest).1.Twin
        ((e.withStatus q).turn (Variant.flavor .nmos6502) u fixedAddr rest).1 ∧
      ((e.withStatus q).turn (Variant.flavor .nmos6502) u fixedAddr rest).2 =
        (e.turn (Variant.flavor .nes) u fixedAddr rest).2 := by
  have same : e.Twin (e.withStatus q) := ⟨q, inert, rfl⟩
  unfold turn
  cases u.alu with
  | addOffset latch offset => exact ⟨same.addTo latch _, rfl⟩
  | incLatch latch => exact ⟨same.addTo latch 1, rfl⟩
  | specialAddOffset => exact ⟨same.addTo .ea _, rfl⟩
  | modify => exact ⟨e.modified_twin inert, rfl⟩
  | branch => exact ⟨same, e.branchTail_withStatus inert.within⟩
  | offsetWithExtraCycle offset =>
      cases fixedAddr with
      | some addr => exact ⟨⟨q, inert, rfl⟩, rfl⟩
      | none =>
          by_cases read : e.scratch.memoryAction = .read
          · have read' : (e.withStatus q).scratch.memoryAction = .read := read
            simp only [if_pos read, if_pos read']
            exact ⟨same, trivial⟩
          · have read' : ¬ (e.withStatus q).scratch.memoryAction = .read := read
            have valid : (Variant.flavor .nes).invalidAddrRead = true := rfl
            have valid' : (Variant.flavor .nmos6502).invalidAddrRead = true := rfl
            simp only [if_neg read, if_neg read', valid, valid', Bool.not_true, Bool.and_false,
              Bool.false_and, Bool.false_eq_true, if_false]
            exact ⟨same, trivial⟩
  | fixPtr =>
      by_cases aligned : e.scratch.ptr &&& 0xFF = 0
      · have aligned' : (e.withStatus q).scratch.ptr &&& 0xFF = 0 := aligned
        simp only [if_pos aligned, if_pos aligned']
        exact ⟨⟨q, inert, rfl⟩, trivial⟩
      · have aligned' : ¬ (e.withStatus q).scratch.ptr &&& 0xFF = 0 := aligned
        simp only [if_neg aligned, if_neg aligned']
        by_cases indexed : e.ctx.opcode = 0x7C
        · have indexed' : (e.withStatus q).ctx.opcode = 0x7C := indexed
          simp only [if_pos indexed, if_pos indexed']
          exact ⟨same, trivial⟩
        · have indexed' : ¬ (e.withStatus q).ctx.opcode = 0x7C := indexed
          simp only [if_neg indexed, if_neg indexed']
          exact ⟨same, trivial⟩
  | _ => exact ⟨⟨q, inert, rfl⟩, rfl⟩

theorem body_twin [Bus β] {u : MicroOp} (quiet : u.discreet e.ctx.instruction.mnemonic)
    (inert : Inert e.ctx.instruction.mnemonic e.ctx.status q) :
    (e.body (Variant.flavor .nes) u).1.Twin ((e.withStatus q).body (Variant.flavor .nmos6502) u).1 ∧
      ((e.withStatus q).body (Variant.flavor .nmos6502) u).2 = (e.body (Variant.flavor .nes) u).2 := by
  let prepared := e.prepared (Variant.flavor .nes) u
  obtain ⟨_, _, frame⟩ := e.prepared_frame (Variant.flavor .nes) u
  have stored : (e.withStatus q).prepareStore u = (e.prepareStore u).withStatus q :=
    e.prepareStore_withStatus (MicroOp.discreet_stores quiet)
  have offset : ((e.withStatus q).prepareStore u).prepareAlu (Variant.flavor .nmos6502) u.alu =
      (prepared.withStatus q, ((e.prepareStore u).prepareAlu (Variant.flavor .nes) u.alu).2) := by
    rw [stored]
    change _ = (((e.prepareStore u).prepareAlu (Variant.flavor .nes) u.alu).1.withStatus q, _)
    cases u.alu <;> rfl
  have address : (prepared.withStatus q).scratch.address (prepared.withStatus q).ctx u.bus.addr =
      prepared.scratch.address prepared.ctx u.bus.addr := by
    cases u.bus.addr <;> rfl
  have instruction : prepared.ctx.instruction = e.ctx.instruction := by
    change (e.prepared _ u).ctx.instruction = _
    rw [frame]
  have status : prepared.ctx.status = e.ctx.status := by
    change (e.prepared _ u).ctx.status = _
    rw [frame]
  have accessed := prepared.access_twin (q := q) (u := u) (by rw [instruction]; exact quiet)
    (by rw [instruction, status]; exact inert) (e.accessAddr (Variant.flavor .nes) u)
  simp only [body, offset, address]
  cases u.incSrc with
  | false => exact ⟨accessed, trivial⟩
  | true => exact ⟨accessed.addTo u.bus.addr 1, trivial⟩

theorem next_twin [Bus β] {u : MicroOp} (quiet : u.discreet e.ctx.instruction.mnemonic)
    (inert : Inert e.ctx.instruction.mnemonic e.ctx.status q) (rest : List MicroOp) :
    (e.next (Variant.flavor .nes) u rest).1.Twin
        ((e.withStatus q).next (Variant.flavor .nmos6502) u rest).1 ∧
      ((e.withStatus q).next (Variant.flavor .nmos6502) u rest).2 =
        (e.next (Variant.flavor .nes) u rest).2 := by
  obtain ⟨⟨q', inert', eq⟩, fixed⟩ := e.body_twin quiet inert
  rw [next, next, eq, fixed]
  exact turn_twin _ u _ rest inert'

end Exec

/-! ## The last cycle -/

namespace Cpu6502
variable (cpu : Cpu6502) {q : U8}

def withStatus (q : U8) : Cpu6502 := { cpu with p := q }

def Twin (cpu cpu' : Cpu6502) : Prop := ∃ q, Within Psr.D cpu.p q ∧ cpu' = cpu.withStatus q

theorem arr_twin (inert : Inert .arr cpu.p q) (read : U8) :
    (cpu.arr (Variant.flavor .nes) read).Twin
      ((cpu.withStatus q).arr (Variant.flavor .nmos6502) read) := by
  have carry : flagSet (cpu.withStatus q).p Psr.C = flagSet cpu.p Psr.C :=
    inert.within.flagSet (by decide)
  have clear : flagSet (cpu.withStatus q).p Psr.D = false := inert.clear rfl
  have none : (Variant.flavor .nes).decimal ≠ .nmos6502 := by decide
  simp only [arr, carry, clear, none, decide_false, Bool.and_false, Bool.false_and, Bool.not_false,
    if_true]
  exact ⟨_, ((inert.within.applied _).flag _ _).flag _ _, rfl⟩

theorem finishRead_twin {i : Instruction} (inst : cpu.currentInst = some i) {op : Mnemonic}
    (inert : Inert op cpu.p q) :
    ∃ c c', cpu.finishRead (Variant.flavor .nes) .release op = .ok c ∧
      (cpu.withStatus q).finishRead (Variant.flavor .nmos6502) .release op = .ok c' ∧ c.Twin c' := by
  have within := inert.within
  have irq : flagSet (cpu.withStatus q).p Psr.I = flagSet cpu.p Psr.I := within.flagSet (by decide)
  have inst' : (cpu.withStatus q).currentInst = some i := inst
  unfold finishRead
  cases op
  case lda | pla | and | eor | ora | ane | ldx | plx | ldy | ply | lxa | lax | las =>
    exact ⟨_, _, rfl, rfl, _, within.applied _, rfl⟩
  case adc =>
    obtain ⟨r, -, eq⟩ := Alu.adc_always cpu.a cpu.scratch.op0 cpu.p .none
    have sum : Alu.adc .release cpu.a cpu.scratch.op0 cpu.p .none = .ok r := eq .release
    have sum' : Alu.adc .release cpu.a cpu.scratch.op0 q .nmos6502 = .ok r :=
      (Alu.adc_inert .release _ _ within (inert.clear rfl)).trans sum
    exact ⟨_, _, bind_eq_ok.2 ⟨r, sum, rfl⟩, bind_eq_ok.2 ⟨r, sum', rfl⟩, _, within.applied r, rfl⟩
  case sbc | usbc =>
    obtain ⟨r, -, eq⟩ := Alu.sbc_always cpu.a cpu.scratch.op0 cpu.p .none
    have difference : Alu.sbc .release cpu.a cpu.scratch.op0 cpu.p .none = .ok r := eq .release
    have difference' : Alu.sbc .release cpu.a cpu.scratch.op0 q .nmos6502 = .ok r :=
      (Alu.sbc_inert .release _ _ within (inert.clear rfl)).trans difference
    exact ⟨_, _, bind_eq_ok.2 ⟨r, difference, rfl⟩, bind_eq_ok.2 ⟨r, difference', rfl⟩, _,
      within.applied r, rfl⟩
  case cmp | cpx | cpy | anc | sbx =>
    exact ⟨_, _, rfl, rfl, _, (within.applied _).flag _ _, rfl⟩
  case alr => exact ⟨_, _, rfl, rfl, _, (within.applied _).applied _, rfl⟩
  case plp =>
    simp only [irq]
    exact ⟨_, _, rfl, rfl, _, .refl _ _, rfl⟩
  case bit =>
    simp only [inst, inst']
    by_cases immediate : i.addressMode = .noMemory .immediate
    · simp only [if_pos immediate]
      exact ⟨_, _, rfl, rfl, _, within.flag _ _, rfl⟩
    · simp only [if_neg immediate]
      exact ⟨_, _, rfl, rfl, _, ((within.and_not _).or_same _).or_same _, rfl⟩
  case arr => exact ⟨_, _, rfl, rfl, cpu.arr_twin inert _⟩
  all_goals exact ⟨_, _, rfl, rfl, q, within, rfl⟩

theorem finishImplied_twin (within : Within Psr.D cpu.p q) (op : Mnemonic) :
    (cpu.finishImplied op).Twin ((cpu.withStatus q).finishImplied op) := by
  have carry : flagSet (cpu.withStatus q).p Psr.C = flagSet cpu.p Psr.C :=
    within.flagSet (by decide)
  have irq : flagSet (cpu.withStatus q).p Psr.I = flagSet cpu.p Psr.I := within.flagSet (by decide)
  unfold finishImplied
  rw [carry, irq]
  cases op
  case asl | lsr | rol | ror | dec | dex | dey | inc | inx | iny | tax | tay | tsx | txa | tya =>
    exact ⟨_, within.applied _, rfl⟩
  case clc | cld | clv | sec | sed | cli | sei => exact ⟨_, within.flag _ _, rfl⟩
  all_goals exact ⟨q, within, rfl⟩

theorem completed_twin (within : Within Psr.D cpu.p q) (i : Instruction) :
    (completed i cpu).Twin (completed i (cpu.withStatus q)) := by
  unfold completed
  split
  · exact cpu.finishImplied_twin within _
  · exact ⟨_, within.flag _ _, rfl⟩
  · exact ⟨q, within, rfl⟩

theorem finished_twin {i : Instruction} (inst : cpu.currentInst = some i)
    (inert : Inert i.mnemonic cpu.p q) : (cpu.finished (Variant.flavor .nes) i).Twin
      ((cpu.withStatus q).finished (Variant.flavor .nmos6502) i) := by
  rw [finished, finishInstruction_eq, finished, finishInstruction_eq]
  split
  · obtain ⟨c, c', nes, nmos, q', within, rfl⟩ := cpu.finishRead_twin inst inert
    simp only [nes, nmos, ok_bind, get_ok]
    exact c.completed_twin within i
  · exact cpu.completed_twin inert.within i

end Cpu6502

end Rs65x
