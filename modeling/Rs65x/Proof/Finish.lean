import Rs65x.Proof.Decode

/-!
# The last cycle of an instruction

What follows the last micro-op returns in both builds, with the same result, and changes registers
and `oldI` only.
-/

namespace Rs65x
open Fallible

namespace Cpu6502

def Framed (cpu : Cpu6502) (o : Option Bool) (cpu' : Cpu6502) : Prop :=
  ∃ a x y s p, cpu' = { cpu with a, x, y, s, p, oldI := o }

theorem framed_loadA (cpu : Cpu6502) (r : Alu.AluResult U8) : cpu.Framed cpu.oldI (cpu.loadA r) :=
  ⟨_, cpu.x, cpu.y, cpu.s, _, rfl⟩

theorem framed_loadX (cpu : Cpu6502) (r : Alu.AluResult U8) : cpu.Framed cpu.oldI (cpu.loadX r) :=
  ⟨cpu.a, _, cpu.y, cpu.s, _, rfl⟩

theorem framed_loadY (cpu : Cpu6502) (r : Alu.AluResult U8) : cpu.Framed cpu.oldI (cpu.loadY r) :=
  ⟨cpu.a, cpu.x, _, cpu.s, _, rfl⟩

theorem framed_setFlag (cpu : Cpu6502) (mask : U8) (b : Bool) :
    cpu.Framed cpu.oldI (cpu.setFlag mask b) := ⟨cpu.a, cpu.x, cpu.y, cpu.s, _, rfl⟩

theorem framed_refl (cpu : Cpu6502) : cpu.Framed cpu.oldI cpu :=
  ⟨cpu.a, cpu.x, cpu.y, cpu.s, cpu.p, rfl⟩

theorem Framed.trans {cpu cpu₁ cpu₂ : Cpu6502} {o o' : Option Bool} (h : cpu.Framed o cpu₁)
    (h' : cpu₁.Framed o' cpu₂) : cpu.Framed o' cpu₂ := by
  obtain ⟨_, _, _, _, _, rfl⟩ := h
  obtain ⟨a, x, y, s, p, rfl⟩ := h'
  exact ⟨a, x, y, s, p, rfl⟩

theorem framed_arr (F : Flavor) (cpu : Cpu6502) (read : U8) :
    cpu.Framed cpu.oldI (cpu.arr F read) := by
  unfold arr
  dsimp only [applyFlags]
  split
  · exact ⟨_, cpu.x, cpu.y, cpu.s, _, rfl⟩
  · exact ⟨_, cpu.x, cpu.y, cpu.s, _, rfl⟩

def readOldI (cpu : Cpu6502) (op : Mnemonic) : Option Bool :=
  if op = .plp then some (flagSet cpu.p Psr.I) else cpu.oldI

theorem finishRead_always (F : Flavor) {cpu : Cpu6502} (inst : cpu.currentInst.isSome)
    (op : Mnemonic) :
    Always (fun prof => cpu.finishRead F prof op) (cpu.Framed (cpu.readOldI op)) := by
  unfold finishRead
  cases op
  case lda | pla | and | eor | ora | ane => exact .ok (framed_loadA _ _)
  case ldx | plx => exact .ok (framed_loadX _ _)
  case ldy | ply => exact .ok (framed_loadY _ _)
  case adc => exact (Alu.adc_always _ _ _ _).bind fun _ _ => .ok (framed_loadA _ _)
  case sbc | usbc => exact (Alu.sbc_always _ _ _ _).bind fun _ _ => .ok (framed_loadA _ _)
  case cmp | cpx | cpy => exact .ok ⟨cpu.a, cpu.x, cpu.y, cpu.s, _, rfl⟩
  case plp => exact .ok ⟨cpu.a, cpu.x, cpu.y, cpu.s, _, rfl⟩
  case bit =>
    obtain ⟨i, some⟩ := Option.isSome_iff_exists.1 inst
    simp only [some]
    exact .ite (fun _ => .ok (framed_setFlag _ _ _)) fun _ =>
      .ok ⟨cpu.a, cpu.x, cpu.y, cpu.s, _, by rw [some]; rfl⟩
  case anc => exact .ok ((framed_loadA _ _).trans (framed_setFlag _ _ _))
  case alr => exact .ok ((framed_loadA _ _).trans (framed_loadA _ _))
  case arr => exact .ok (framed_arr F _ _)
  case lxa | lax => exact .ok ⟨_, _, cpu.y, cpu.s, _, rfl⟩
  case las => exact .ok ⟨_, _, cpu.y, _, _, rfl⟩
  case sbx => exact .ok ((framed_loadX _ _).trans (framed_setFlag _ _ _))
  case brk =>
    refine .ok ?_
    split
    · exact framed_setFlag _ _ _
    · exact cpu.framed_refl
  all_goals exact .ok cpu.framed_refl

theorem framed_finishImplied (cpu : Cpu6502) (op : Mnemonic) :
    cpu.Framed (if op = .cli ∨ op = .sei then some (flagSet cpu.p Psr.I) else cpu.oldI)
      (cpu.finishImplied op) := by
  unfold finishImplied
  cases op
  case asl | lsr | rol | ror | dec | inc | txa | tya => exact framed_loadA _ _
  case dex | inx | tax | tsx => exact framed_loadX _ _
  case dey | iny | tay => exact framed_loadY _ _
  case clc | cld | clv | sec | sed => exact framed_setFlag _ _ _
  case cli | sei => exact ⟨cpu.a, cpu.x, cpu.y, cpu.s, _, rfl⟩
  case txs => exact ⟨cpu.a, cpu.x, cpu.y, _, cpu.p, rfl⟩
  all_goals exact cpu.framed_refl

theorem flagSet_decimal_setFlag_I (p : U8) (b : Bool) :
    flagSet (Alu.setFlag p Psr.I b) Psr.D = flagSet p Psr.D := by
  have all : ∀ b, ∀ p : U8, flagSet (Alu.setFlag p Psr.I b) Psr.D = flagSet p Psr.D := by
    decide
  exact all b p

def finished (F : Flavor) (i : Instruction) (cpu : Cpu6502) : Cpu6502 :=
  get (cpu.finishInstruction F .release i) cpu

def completed (i : Instruction) (cpu : Cpu6502) : Cpu6502 :=
  match i.addressMode with
  | .noMemory .implied => cpu.finishImplied i.mnemonic
  | .interrupt .brk => cpu.setFlag Psr.I true
  | _ => cpu

theorem finishInstruction_eq (F : Flavor) (prof : Profile) (cpu : Cpu6502) (i : Instruction) :
    cpu.finishInstruction F prof i =
      ((if i.memoryAction = .read then cpu.finishRead F prof i.mnemonic else .ok cpu) >>=
        fun cpu => .ok (cpu.completed i)) := by
  obtain ⟨op, mode, action⟩ := i
  cases mode with
  | noMemory type | interrupt type => cases type <;> cases action <;> rfl
  | _ => cases action <;> rfl

theorem finishInstruction_always (v : Variant) (op : U8) {cpu : Cpu6502}
    (inst : cpu.currentInst.isSome) :
    Always (fun prof => cpu.finishInstruction v.flavor prof (v.decode op))
      (cpu.Framed (if (v.decode op).delaysIrq then some (flagSet cpu.p Psr.I) else cpu.oldI)) := by
  have action := v.decode_action op
  have implied := v.decode_implied op
  simp only [finishInstruction_eq]
  generalize v.decode op = i at *
  by_cases cliSei : i.mnemonic = .cli ∨ i.mnemonic = .sei
  · have reads : ∀ prof, (if i.memoryAction = .read then cpu.finishRead v.flavor prof i.mnemonic
        else .ok cpu) = .ok cpu := by
      intro prof
      obtain h | h := cliSei <;> simp [h, finishRead]
    refine ⟨cpu.finishImplied i.mnemonic, ?_, fun prof => ?_⟩
    · have framed := cpu.framed_finishImplied i.mnemonic
      obtain h | h := cliSei <;> simpa [Instruction.delaysIrq, h] using framed
    · simp only [reads, ok_bind, completed, implied cliSei]
  · obtain ⟨notCli, notSei⟩ := not_or.1 cliSei
    have delays : (if i.delaysIrq then some (flagSet cpu.p Psr.I) else cpu.oldI) =
        cpu.readOldI i.mnemonic := by
      simp [Instruction.delaysIrq, readOldI, notCli, notSei]
    rw [delays]
    refine Always.bind (P := cpu.Framed (cpu.readOldI i.mnemonic)) ?_ fun cpu₁ framed => .ok ?_
    · refine .ite (fun _ => finishRead_always _ inst _) fun write => .ok ?_
      have other : i.mnemonic ≠ .plp := fun eq => write (by rw [action, eq]; rfl)
      simpa only [readOldI, if_neg other] using cpu.framed_refl
    · have same : cpu₁.oldI = cpu.readOldI i.mnemonic := by
        obtain ⟨_, _, _, _, _, rfl⟩ := framed
        rfl
      unfold completed
      split
      · have := cpu₁.framed_finishImplied i.mnemonic
        rw [if_neg cliSei, same] at this
        exact framed.trans this
      · exact framed.trans (same ▸ cpu₁.framed_setFlag _ _)
      · exact framed

theorem finished_spec (v : Variant) (op : U8) {cpu : Cpu6502} (inst : cpu.currentInst.isSome) :
    (∀ prof, cpu.finishInstruction v.flavor prof (v.decode op) =
      .ok (finished v.flavor (v.decode op) cpu)) ∧
    cpu.Framed (if (v.decode op).delaysIrq then some (flagSet cpu.p Psr.I) else cpu.oldI)
      (finished v.flavor (v.decode op) cpu) :=
  have always := finishInstruction_always v op inst
  ⟨fun prof => (always.eq_get prof .release cpu).1, (always.eq_get .release .release cpu).2⟩

theorem framed_completed (i : Instruction) (cpu : Cpu6502) :
    ∃ o, cpu.Framed o (completed i cpu) := by
  unfold completed
  split
  · exact ⟨_, cpu.framed_finishImplied _⟩
  · exact ⟨_, cpu.framed_setFlag _ _⟩
  · exact ⟨_, cpu.framed_refl⟩

theorem finished_framed (F : Flavor) {cpu : Cpu6502} (inst : cpu.currentInst.isSome)
    (i : Instruction) : ∃ o, cpu.Framed o (cpu.finished F i) := by
  rw [finished, finishInstruction_eq]
  split
  · obtain ⟨c, framed, eq⟩ := finishRead_always F inst i.mnemonic
    obtain ⟨o, framed'⟩ := framed_completed i c
    simp only [eq, ok_bind, get_ok]
    exact ⟨o, framed.trans framed'⟩
  · exact framed_completed i cpu

theorem finished_rest (F : Flavor) {c : Cpu6502} {i : Instruction} (inst : c.currentInst = some i) :
    (c.finished F i).currentInst = some i ∧ (c.finished F i).ucycs = c.ucycs ∧
      (c.finished F i).scratch = c.scratch ∧
      (c.finished F i).extraAdcSbcCycle = c.extraAdcSbcCycle := by
  have some : c.currentInst.isSome := by simp [inst]
  obtain ⟨_, _, _, _, _, _, eq⟩ := finished_framed F some i
  rw [eq]
  exact ⟨inst, rfl, rfl, rfl⟩

theorem finished_decimal (F : Flavor) (cpu : Cpu6502) {i : Instruction}
    (arith : i.mnemonic = .adc ∨ i.mnemonic = .sbc) :
    flagSet (cpu.finished F i).p Psr.D = flagSet cpu.p Psr.D := by
  have completed (c : Cpu6502) : flagSet (completed i c).p Psr.D = flagSet c.p Psr.D := by
    unfold Cpu6502.completed
    split
    · obtain h | h := arith <;> rw [h] <;> rfl
    · exact flagSet_decimal_setFlag_I _ _
    · rfl
  have loaded (r : Alu.AluResult U8) (mask : r.flagMask = Alu.arithMask) :
      flagSet (cpu.loadA r).p Psr.D = flagSet cpu.p Psr.D :=
    Alu.flagSet_apply r cpu.p (by rw [mask]; decide)
  rw [finished, finishInstruction_eq]
  split
  · obtain h | h := arith
    · obtain ⟨r, mask, eq⟩ := Alu.adc_always cpu.a cpu.scratch.op0 cpu.p F.decimal
      simp only [finishRead, h, eq, ok_bind, pure_eq, get_ok]
      rw [completed, loaded r mask]
    · obtain ⟨r, mask, eq⟩ := Alu.sbc_always cpu.a cpu.scratch.op0 cpu.p F.decimal
      simp only [finishRead, h, eq, ok_bind, pure_eq, get_ok]
      rw [completed, loaded r mask]
  · exact completed cpu

/-! ## What the completion does not look at -/

/-- The fields that the completion functions neither look at nor change. -/
structure Hidden where
  pc : U16
  ucycs : UcycQueue
  scratch : MicroExecutor
  currentOpcode : U8
  extraAdcSbcCycle : Bool
  prevNmi : Bool
  pendingNmi : Bool

def hidden (cpu : Cpu6502) : Hidden :=
  ⟨cpu.pc, cpu.ucycs, { cpu.scratch with op0 := 0 }, cpu.currentOpcode, cpu.extraAdcSbcCycle,
    cpu.prevNmi, cpu.pendingNmi⟩

def withHidden (cpu : Cpu6502) (h : Hidden) : Cpu6502 :=
  { cpu with
    pc := h.pc
    ucycs := h.ucycs
    scratch := { h.scratch with op0 := cpu.scratch.op0 }
    currentOpcode := h.currentOpcode
    extraAdcSbcCycle := h.extraAdcSbcCycle
    prevNmi := h.prevNmi
    pendingNmi := h.pendingNmi }

section
variable (F : Flavor) (prof : Profile) (cpu : Cpu6502) (h : Hidden)

theorem finishRead_withHidden (op : Mnemonic) : (cpu.withHidden h).finishRead F prof op =
    (cpu.finishRead F prof op).map (·.withHidden h) := by
  cases op
  case adc =>
    change (Alu.adc prof cpu.a cpu.scratch.op0 cpu.p F.decimal >>= _) =
      (Alu.adc prof cpu.a cpu.scratch.op0 cpu.p F.decimal >>= _).map _
    cases Alu.adc prof cpu.a cpu.scratch.op0 cpu.p F.decimal <;> rfl
  case sbc | usbc =>
    change (Alu.sbc prof cpu.a cpu.scratch.op0 cpu.p F.decimal >>= _) =
      (Alu.sbc prof cpu.a cpu.scratch.op0 cpu.p F.decimal >>= _).map _
    cases Alu.sbc prof cpu.a cpu.scratch.op0 cpu.p F.decimal <;> rfl
  case bit =>
    obtain ⟨a, x, y, s, p, pc, ucycs, scratch, _ | i, opcode, extra, prevNmi, pendingNmi, oldI⟩ := cpu
    · rfl
    · by_cases imm : i.addressMode = .noMemory .immediate <;>
        simp only [finishRead, withHidden, imm] <;> rfl
  case brk => by_cases cmos : F.decimal = .cmos65C02 <;> simp only [finishRead, cmos] <;> rfl
  case arr =>
    cases decimal : flagSet cpu.p Psr.D && decide (F.decimal = .nmos6502) <;>
      simp only [finishRead, arr, applyFlags, withHidden, decimal] <;> rfl
  all_goals rfl

theorem completed_withHidden (i : Instruction) :
    completed i (cpu.withHidden h) = (completed i cpu).withHidden h := by
  unfold completed
  split
  · unfold finishImplied
    split <;> rfl
  · rfl
  · rfl

theorem finishInstruction_withHidden (i : Instruction) :
    (cpu.withHidden h).finishInstruction F prof i =
      (cpu.finishInstruction F prof i).map (·.withHidden h) := by
  rw [finishInstruction_eq, finishInstruction_eq, finishRead_withHidden]
  split
  · cases cpu.finishRead F prof i.mnemonic with
    | error => rfl
    | ok cpu' => exact congrArg Except.ok (completed_withHidden cpu' h i)
  · exact congrArg Except.ok (completed_withHidden cpu h i)

theorem finished_withHidden (i : Instruction) :
    (cpu.withHidden h).finished F i = (cpu.finished F i).withHidden h := by
  rw [finished, finishInstruction_withHidden, finished]
  cases cpu.finishInstruction F .release i <;> rfl

end

theorem finished_hidden (F : Flavor) {cpu : Cpu6502} (inst : cpu.currentInst.isSome)
    (i : Instruction) : (cpu.finished F i).hidden = cpu.hidden := by
  obtain ⟨_, _, _, _, _, _, eq⟩ := finished_framed F inst i
  rw [eq]
  rfl

theorem finished_carries (F : Flavor) {cpu : Cpu6502} (inst : cpu.currentInst.isSome)
    (i : Instruction) (f : Hidden → Hidden) : (cpu.withHidden (f cpu.hidden)).finished F i =
      (cpu.finished F i).withHidden (f (cpu.finished F i).hidden) := by
  rw [finished_hidden F inst i]
  exact finished_withHidden F cpu (f cpu.hidden) i

def withNmi (cpu : Cpu6502) (prev pending : Bool) : Cpu6502 :=
  { cpu with prevNmi := prev, pendingNmi := pending }

theorem finished_withNmi (F : Flavor) {cpu : Cpu6502} (inst : cpu.currentInst.isSome)
    (i : Instruction) (prev pending : Bool) :
    (cpu.withNmi prev pending).finished F i = (cpu.finished F i).withNmi prev pending :=
  finished_carries F inst i fun h => { h with prevNmi := prev, pendingNmi := pending }

end Cpu6502

end Rs65x
