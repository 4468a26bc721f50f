import Rs65x.Proof.Frame

/-!
# What the core does to the status

An instruction changes the flags of its own. Nothing stores bits 4 and 5 of P: U reads as one, and B
is in the pushed byte alone.
-/

namespace Rs65x
open Fallible

def Within (mask p q : U8) : Prop := q &&& ~~~mask = p &&& ~~~mask

namespace Within
variable {mask mask' p q r : U8}

theorem refl (mask p : U8) : Within mask p p := rfl

theorem trans (first : Within mask p q) (second : Within mask q r) : Within mask p r :=
  Eq.trans second first

theorem keeps (within : Within mask p q) {other : U8} (apart : mask &&& other = 0#8) :
    q &&& other = p &&& other := by
  have outside : other = ~~~mask &&& other := by
    ext i hi
    have bit := congrArg (·[i]) apart
    simp only [BitVec.getElem_and] at bit
    simp only [BitVec.getElem_and, BitVec.getElem_not]
    cases hm : mask[i] <;> simp_all
  have within : q &&& ~~~mask = p &&& ~~~mask := within
  rw [outside, ← BitVec.and_assoc, ← BitVec.and_assoc, within]

theorem mono (within : Within mask p q) (le : mask &&& ~~~mask' = 0#8) : Within mask' p q :=
  within.keeps le

theorem flagSet (within : Within mask p q) {flag : U8} (apart : mask &&& flag = 0#8) :
    flagSet q flag = flagSet p flag := by
  rw [Rs65x.flagSet, Rs65x.flagSet, within.keeps apart]

theorem apply (r : Alu.AluResult U8) (p : U8) (le : r.flagMask &&& ~~~mask = 0#8) :
    Within mask p (r.apply p).2 := Alu.apply_and r p le

theorem zn (value p : U8) (le : (Psr.Z ||| Psr.N) &&& ~~~mask = 0#8) :
    Within mask p ((Alu.zn value).apply p).2 := apply _ p le

theorem shift (value p : U8) (carry : Bool)
    (le : (Psr.Z ||| Psr.N ||| Psr.C) &&& ~~~mask = 0#8) :
    Within mask p ((Alu.withShiftFlags value carry).apply p).2 := apply _ p le

theorem setFlag (p : U8) {flag : U8} (b : Bool) (le : flag &&& ~~~mask = 0#8) :
    Within mask p (Alu.setFlag p flag b) := Alu.setFlag_and p le b

theorem bit (p read : U8) (zero : Bool) : Within (Psr.N ||| Psr.V ||| Psr.Z) p
    (p &&& ~~~(Psr.Z ||| Psr.N ||| Psr.V) ||| (if zero then Psr.Z else 0) ||| (read &&& 0xC0)) := by
  have z : (if zero then Psr.Z else 0) &&& ~~~(Psr.N ||| Psr.V ||| Psr.Z) = 0#8 := by
    cases zero with
    | true | false => rfl
  have r : read &&& 0xC0 &&& ~~~(Psr.N ||| Psr.V ||| Psr.Z) = 0#8 := by
    rw [BitVec.and_assoc]
    exact BitVec.and_zero
  rw [Within, BitVec.and_or_distrib_right, BitVec.and_or_distrib_right, z, r, BitVec.or_zero,
    BitVec.or_zero, BitVec.and_assoc]
  rfl

end Within

def Instruction.flags (i : Instruction) : U8 :=
  match i.mnemonic with
  | .lda | .ldx | .ldy | .lax | .las | .lxa | .ane | .pla | .plx | .ply
  | .tax | .tay | .txa | .tya | .tsx | .and | .ora | .eor
  | .inc | .inx | .iny | .dec | .dex | .dey => Psr.N ||| Psr.Z
  | .tsb | .trb => Psr.Z
  | .bit => if i.addressMode = .noMemory .immediate then Psr.Z else Psr.N ||| Psr.V ||| Psr.Z
  | .asl | .lsr | .rol | .ror | .slo | .rla | .sre | .cmp | .cpx | .cpy | .dcp | .anc | .alr
  | .sbx => Psr.N ||| Psr.Z ||| Psr.C
  | .adc | .sbc | .usbc | .rra | .isc | .arr => Psr.N ||| Psr.V ||| Psr.Z ||| Psr.C
  | .clc | .sec => Psr.C
  | .clv => Psr.V
  | .cli | .sei => Psr.I
  | .cld | .sed => Psr.D
  | .plp | .rti => Psr.N ||| Psr.V ||| Psr.D ||| Psr.I ||| Psr.Z ||| Psr.C
  | .brk => Psr.I ||| Psr.D
  | _ => 0

theorem Instruction.flags_le (i : Instruction) : i.flags &&& ~~~(0xCF : U8) = 0#8 := by
  obtain ⟨op, mode, action⟩ := i
  cases op <;> simp only [flags]
  case bit => split <;> decide
  all_goals decide

/-- U is set and B is clear. -/
def Phantom (p : U8) : Prop := p &&& 0x30 = 0x20

namespace Phantom
variable {p : U8}

theorem within (h : Phantom p) {mask q : U8} (flags : Within mask p q)
    (le : mask &&& ~~~(0xCF : U8) = 0#8) : Phantom q :=
  ((flags.mono le).keeps (by decide)).trans h

theorem setStatus (value : U8) : Phantom ((value ||| Psr.U6502) &&& ~~~Psr.B6502) := by
  have all : ∀ value : U8, (value ||| Psr.U6502) &&& ~~~Psr.B6502 &&& 0x30 = 0x20 := by decide
  exact all value

theorem pulled (h : Phantom p) (value : U8) :
    Within 0xCF p ((value ||| Psr.U6502) &&& ~~~Psr.B6502) := (setStatus value).trans h.symm

theorem setFlag (h : Phantom p) {mask : U8} (le : mask &&& ~~~(0xCF : U8) = 0#8) (b : Bool) :
    Phantom (Alu.setFlag p mask b) := h.within (.setFlag p b le) (by decide)

theorem bits (h : Phantom p) : flagSet p Psr.U6502 = true ∧ flagSet p Psr.B6502 = false := by
  have all : ∀ p : U8, p &&& 0x30 = 0x20 →
      flagSet p Psr.U6502 = true ∧ flagSet p Psr.B6502 = false := by decide
  exact all p h

theorem break_bits (h : Phantom p) : flagSet (p ||| Psr.B6502) Psr.U6502 = true ∧
    flagSet (p ||| Psr.B6502) Psr.B6502 = true := by
  have all : ∀ p : U8, p &&& 0x30 = 0x20 → flagSet (p ||| Psr.B6502) Psr.U6502 = true ∧
      flagSet (p ||| Psr.B6502) Psr.B6502 = true := by decide
  exact all p h

theorem or_break (h : Phantom p) : p ||| Psr.B6502 ||| Psr.U6502 = p ||| Psr.B6502 := by
  have all : ∀ p : U8, p &&& 0x30 = 0x20 → p ||| Psr.B6502 ||| Psr.U6502 = p ||| Psr.B6502 := by
    decide
  exact all p h

end Phantom

namespace MicroCtx6502

theorem aluModify_within (F : Flavor) (ctx : MicroCtx6502) (scratch : MicroExecutor) :
    Always (fun prof => ctx.aluModify F prof scratch)
      (fun r => Within ctx.instruction.flags ctx.status r.1.status) := by
  unfold aluModify
  rw [Instruction.flags]
  cases ctx.instruction.mnemonic <;> dsimp only
  case inc =>
    exact (Alu.inc_always scratch.op0).bind fun r mask => .ok (.apply r _ (by rw [mask]; decide))
  case rra =>
    exact (Alu.adc_always _ _ _ _).bind fun r mask =>
      .ok ((Within.shift _ _ _ (by decide)).trans (.apply r _ (by rw [mask]; decide)))
  case isc =>
    exact (Alu.sbc_always _ _ _ _).bind fun r mask => .ok (.apply r _ (by rw [mask]; decide))
  case asl | lsr | rol | ror => exact .ok (.shift _ _ _ (by decide))
  case dec => exact .ok (.zn _ _ (by decide))
  case tsb | trb => exact .ok (.apply _ _ (show Psr.Z &&& ~~~Psr.Z = 0#8 by decide))
  case slo | rla | sre => exact .ok ((Within.shift _ _ _ (by decide)).trans (.zn _ _ (by decide)))
  case dcp => exact .ok ((Within.zn _ _ (by decide)).trans (.setFlag _ _ (by decide)))
  all_goals
    cases rmb : bitIndexRmb ctx.opcode with
    | some bit =>
        simp only
        exact (plainShl_always 1 (bitIndexRmb_lt rmb)).bind fun _ _ => .ok (.refl _ _)
    | none =>
        cases smb : bitIndexSmb ctx.opcode with
        | some bit =>
            simp only
            exact (plainShl_always 1 (bitIndexSmb_lt smb)).bind fun _ _ => .ok (.refl _ _)
        | none => exact .ok (.refl _ _)

end MicroCtx6502

namespace Exec
variable {β : Type} [Bus β]

theorem next_within (F : Flavor) {e : Exec β} (h : Phantom e.ctx.status) {u : MicroOp}
    (rest : List MicroOp) {mask : U8}
    (modifies : u.alu = .modify → e.ctx.instruction.flags &&& ~~~mask = 0#8)
    (pulls : u.bus.read = true → u.localLatch = .status ∨ u.localLatch = .brkStatus → mask = 0xCF) :
    Within mask e.ctx.status (e.next F u rest).1.ctx.status := by
  have prepared : (e.prepared F u).ctx.status = e.ctx.status := by
    obtain ⟨_, _, eq⟩ := e.prepared_frame F u
    rw [eq]
  have accessed : Within mask e.ctx.status
      ((e.prepared F u).access u (e.accessAddr F u)).ctx.status := by
    rw [access]
    split
    · next read =>
        cases latch : u.localLatch with
        | status | brkStatus =>
            rw [pulls read (by simp [latch])]
            exact h.pulled _
        | _ => exact congrArg (· &&& ~~~mask) prepared
    · exact congrArg (· &&& ~~~mask) prepared
  have body : Within mask e.ctx.status (e.body F u).1.ctx.status := by
    change Within mask e.ctx.status (if u.incSrc then
      ((e.prepared F u).access u (e.accessAddr F u)).addTo u.bus.addr 1
      else (e.prepared F u).access u (e.accessAddr F u)).ctx.status
    split
    · obtain ⟨_, _, _, eq⟩ := ((e.prepared F u).access u (e.accessAddr F u)).addTo_frame u.bus.addr 1
      rw [eq]
      exact accessed
    · exact accessed
  rw [next]
  by_cases modify : u.alu = .modify
  · obtain ⟨-, modified⟩ := (MicroCtx6502.aluModify_within F (e.body F u).1.ctx
      (e.body F u).1.scratch).eq_get .release .release ((e.body F u).1.ctx, (e.body F u).1.scratch)
    obtain ⟨_, _, _, _, eq, -⟩ := e.body_frame F u
    have same : (e.body F u).1.ctx.instruction = e.ctx.instruction := by rw [eq]
    rw [same] at modified
    simp only [turn, modify]
    exact body.trans (modified.mono (modifies modify))
  · obtain ⟨_, _, _, _, status, eq, kept⟩ :=
      (e.body F u).1.turn_frame F u (e.body F u).2 rest
    rw [eq]
    obtain ⟨-, same⟩ := kept modify
    rw [← same] at body
    exact body

theorem next_phantom (F : Flavor) {e : Exec β} (h : Phantom e.ctx.status) (u : MicroOp)
    (rest : List MicroOp) : Phantom (e.next F u rest).1.ctx.status :=
  h.within (next_within F h rest (fun _ => Instruction.flags_le _) fun _ _ => (by decide)) (by decide)

end Exec

namespace Cpu6502

theorem arr_within (F : Flavor) (cpu : Cpu6502) (read : U8) :
    Within (Psr.N ||| Psr.V ||| Psr.Z ||| Psr.C) cpu.p (cpu.arr F read).p := by
  have rotated : Within (Psr.N ||| Psr.V ||| Psr.Z ||| Psr.C) cpu.p
      ((Alu.ror (cpu.a &&& read) (flagSet cpu.p Psr.C)).apply cpu.p).2 := .shift _ _ _ (by decide)
  unfold arr
  dsimp only [applyFlags]
  split
  · exact (rotated.trans (.setFlag _ _ (by decide))).trans (.setFlag _ _ (by decide))
  · exact ((rotated.trans (.setFlag _ _ (by decide))).trans (.setFlag _ _ (by decide))).trans (.setFlag _ _ (by decide))

theorem finishRead_within (F : Flavor) {cpu : Cpu6502} {i : Instruction}
    (inst : cpu.currentInst = some i) (h : Phantom cpu.p) :
    Always (fun prof => cpu.finishRead F prof i.mnemonic) (fun c => Within i.flags cpu.p c.p) := by
  unfold finishRead
  obtain ⟨op, mode, action⟩ := i
  cases op <;> simp only [Instruction.flags]
  case adc =>
    exact (Alu.adc_always _ _ _ _).bind fun r mask => .ok (.apply r _ (by rw [mask]; decide))
  case sbc | usbc =>
    exact (Alu.sbc_always _ _ _ _).bind fun r mask => .ok (.apply r _ (by rw [mask]; decide))
  case lda | pla | and | eor | ora | ane | ldx | plx | ldy | ply | lxa | lax | las =>
    exact .ok (.zn _ _ (by decide))
  case cmp | cpx | cpy | anc | sbx => exact .ok ((Within.zn _ _ (by decide)).trans (.setFlag _ _ (by decide)))
  case plp => exact .ok (h.pulled _)
  case bit =>
    simp only [inst]
    refine .ite (fun immediate => .ok ?_) fun other => .ok ?_
    · rw [if_pos immediate]
      exact .setFlag _ _ (by decide)
    · rw [if_neg other]
      exact .bit _ _ _
  case alr => exact .ok ((Within.zn _ _ (by decide)).trans (.shift _ _ _ (by decide)))
  case arr => exact .ok (arr_within F cpu _)
  case brk =>
    refine .ok ?_
    split
    · exact .setFlag _ _ (by decide)
    · exact .refl _ _
  all_goals exact .ok (.refl _ _)

theorem finishImplied_within (cpu : Cpu6502) (i : Instruction) :
    Within i.flags cpu.p (cpu.finishImplied i.mnemonic).p := by
  unfold finishImplied
  obtain ⟨op, mode, action⟩ := i
  cases op <;> simp only [Instruction.flags]
  case asl | lsr | rol | ror => exact .shift _ _ _ (by decide)
  case dec | inc | txa | tya | dex | inx | tax | tsx | dey | iny | tay => exact .zn _ _ (by decide)
  case clc | cld | clv | sec | sed | cli | sei => exact .setFlag _ _ (by decide)
  all_goals exact .refl _ _

theorem finished_phantom (F : Flavor) {cpu : Cpu6502} {i : Instruction}
    (inst : cpu.currentInst = some i) (h : Phantom cpu.p) : Phantom (cpu.finished F i).p := by
  have ends {c : Cpu6502} (h : Phantom c.p) : Phantom (completed i c).p := by
    unfold completed
    split
    · exact h.within (finishImplied_within c i) i.flags_le
    · exact h.setFlag (by decide) _
    · exact h
  rw [finished, finishInstruction_eq]
  split
  · obtain ⟨c, within, eq⟩ := finishRead_within F inst h
    simp only [eq, ok_bind, get_ok]
    exact ends (h.within within i.flags_le)
  · exact ends h

variable {β : Type} [Bus β] {v : Variant}

theorem Outcome.phantom {cpu cpu' : Cpu6502} {lines : Lines} {bus bus' : β} {exit : StepExit}
    (outcome : Outcome v cpu lines bus exit cpu' bus') (h : Phantom cpu.p) : Phantom cpu'.p := by
  cases outcome with
  | @ucyc i u rest e us q awake inst live next wf live' more =>
      have after := Exec.next_phantom v.flavor (e := cpu.exec i bus) h u rest
      rw [next] at after
      exact after
  | @last i u rest e q awake inst live next drained =>
      have after := Exec.next_phantom v.flavor (e := cpu.exec i bus) h u rest
      rw [next] at after
      have same : (cpu.restore e q).currentInst = some i := inst
      exact finished_phantom v.flavor same after
  | stalled | extraCycle | interrupt | fetch | first => exact h

end Cpu6502

end Rs65x
