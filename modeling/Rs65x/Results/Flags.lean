import Rs65x.Proof.Programs
import Rs65x.Proof.Status
import Rs65x.Results.Status
import Rs65x.Spec.Timing

/-!
# Which flags a step may change
-/

namespace Rs65x
open Fallible Machine

/-- RTI pulls the status, the modify phase sets flags, and BRK alone is an interrupt. -/
def Instruction.movesStatus (v : Variant) (i : Instruction) (op : U8) : Bool :=
  ((i.mnemonic = .brk) = (i.addressMode = .interrupt .brk)) &&
    match i.addressMode.emitUcycs .release v.flavor.micro
      (Cpu6502.decodeContext v.flavor i.memoryAction op) with
    | .ok us => us.all fun u => u.keepsStatus ||
        u.alu = .modify && u.localLatch = .none && i.memoryAction = .readModifyWrite ||
        u = .read .sp .status true && i.mnemonic = .rti
    | .error _ => false

set_option maxRecDepth 20000 in
theorem entries_movesStatus (v : Variant) : entries.all fun e =>
    !e.filter.includes v.flavor.opcodeTable ||
      e.instruction.movesStatus v (BitVec.ofNat 8 e.code) := by
  cases v <;> decide

theorem Variant.decode_movesStatus (v : Variant) (op : U8) : (v.decode op).movesStatus v op :=
  OpcodeTable.decode_checked (fun i op => i.movesStatus v op) op (by cases v <;> rfl)
    (entries_movesStatus v)

theorem Variant.decode_isBrk (v : Variant) (op : U8) :
    (v.decode op).mnemonic = .brk ↔ (v.decode op).addressMode = .interrupt .brk := by
  have moves := v.decode_movesStatus op
  simp only [Instruction.movesStatus, Bool.and_eq_true, decide_eq_true_eq] at moves
  exact iff_of_eq moves.1

theorem Variant.emission_moves (v : Variant) (op : U8) {u : MicroOp} (mem : u ∈ v.emission op) :
    u.keepsStatus ∨
      u.alu = .modify ∧ u.localLatch = .none ∧ (v.decode op).memoryAction = .readModifyWrite ∨
      u = .read .sp .status true ∧ (v.decode op).mnemonic = .rti := by
  have moves := v.decode_movesStatus op
  have emits := (v.emission_spec op).2.2.2 .release
  simp only [Instruction.movesStatus, emits, Bool.and_eq_true, Bool.or_eq_true, decide_eq_true_eq,
    List.all_eq_true] at moves
  simpa only [or_assoc, and_assoc] using moves.2 u mem

theorem Instruction.flags_modify {i : Instruction} (action : i.memoryAction = i.mnemonic.action)
    (modifies : i.memoryAction = .readModifyWrite) : i.flags &&& (Psr.I ||| Psr.D) = 0#8 := by
  obtain ⟨op, mode, action'⟩ := i
  replace modifies : op.action = .readModifyWrite := action.symm.trans modifies
  cases op <;> cases modifies <;> simp only [flags] <;> decide

theorem Instruction.flags_disable (i : Instruction) : i.flags &&& Psr.I = 0#8 ∨ i.mnemonic = .cli ∨
    i.mnemonic = .sei ∨ i.mnemonic = .plp ∨ i.mnemonic = .rti ∨ i.mnemonic = .brk := by
  obtain ⟨op, mode, action⟩ := i
  cases op <;> simp only [flags]
  case bit =>
    left
    split <;> decide
  all_goals decide

theorem Instruction.flags_decimal (i : Instruction) : i.flags &&& Psr.D = 0#8 ∨ i.mnemonic = .cld ∨
    i.mnemonic = .sed ∨ i.mnemonic = .plp ∨ i.mnemonic = .rti ∨ i.mnemonic = .brk := by
  obtain ⟨op, mode, action⟩ := i
  cases op <;> simp only [flags]
  case bit =>
    left
    split <;> decide
  all_goals decide

def Begun.instr (v : Variant) (begun : Begun) : Instruction := v.decode begun.opcode

namespace Cpu6502
variable {β : Type} [Bus β] {v : Variant} {prof : Profile} {cpu cpu' : Cpu6502} {story : Story}
  {lines : Lines} {begun : Begun}

theorem Runs.moves (runs : cpu.Runs v begun) {u : MicroOp} (mem : u ∈ cpu.ucycs.live) :
    u.keepsStatus ∨ u.alu = .modify ∧ u.localLatch = .none ∧
        (begun.instr v).memoryAction = .readModifyWrite ∨
      u = .read .sp .status true ∧ (begun.instr v).mnemonic = .rti := by
  refine runs.all (P := fun u => u.keepsStatus ∨ u.alu = .modify ∧ u.localLatch = .none ∧
      (begun.instr v).memoryAction = .readModifyWrite ∨
      u = .read .sp .status true ∧ (begun.instr v).mnemonic = .rti) ?_ ?_ u mem
  · intro u mem
    cases begun with
    | instruction op => exact v.emission_moves op mem
    | entry type =>
        simp only [Begun.program, interruptTail, List.mem_cons, List.not_mem_nil, or_false] at mem
        rcases mem with rfl | rfl | rfl | rfl | rfl <;> exact .inl rfl
  · intro u detour
    simp only [MicroOp.isDetour, Bool.and_eq_true, decide_eq_true_eq] at detour
    obtain ⟨⟨⟨⟨-, -⟩, latch⟩, -⟩, alu⟩ := detour
    refine .inl ?_
    cases h : u.alu <;> simp [h] at alu <;> simp [MicroOp.keepsStatus, h, latch]

theorem Runs.next_flags (runs : cpu.Runs v begun) (phantom : Phantom cpu.p) {u : MicroOp}
    {rest : List MicroOp} (live : cpu.ucycs.live = u :: rest) (bus : β) :
    let p := ((cpu.exec (begun.instr v) bus).next v.flavor u rest).1.ctx.status
    Within (begun.instr v).flags cpu.p p ∧
      (p &&& (Psr.I ||| Psr.D) = cpu.p &&& (Psr.I ||| Psr.D) ∨
        (begun.instr v).mnemonic = .rti ∧ cpu.ucycs.front = some (.read .sp .status true)) := by
  have action : (begun.instr v).memoryAction = (begun.instr v).mnemonic.action := v.decode_action _
  have moves := runs.moves (live ▸ List.mem_cons_self)
  generalize begun.instr v = i at action moves ⊢
  rcases moves with keeps | ⟨modify, latch, writes⟩ | ⟨rfl, rti⟩
  · have same := Exec.next_status v.flavor (cpu.exec i bus) rest keeps
    refine ⟨congrArg (· &&& _) same, .inl (congrArg (· &&& _) same)⟩
  · have within : Within i.flags cpu.p
        ((cpu.exec i bus).next v.flavor u rest).1.ctx.status :=
      Exec.next_within v.flavor (e := cpu.exec i bus) phantom rest
        (fun _ => BitVec.and_not_self _) (fun _ status => by simp [latch] at status)
    exact ⟨within, .inl (within.keeps (Instruction.flags_modify action writes))⟩
  · have flags : i.flags = 0xCF := by
      rw [Instruction.flags, rti]
      rfl
    have front : cpu.ucycs.front = some (.read .sp .status true) := by
      rw [UcycQueue.front_eq, live]
      rfl
    have within : Within i.flags cpu.p ((cpu.exec i bus).next v.flavor
        (.read .sp .status true) rest).1.ctx.status :=
      Exec.next_within v.flavor (e := cpu.exec i bus) phantom rest
        (fun modify => by cases modify) (fun _ _ => flags)
    exact ⟨within, .inr ⟨rti, front⟩⟩

structure Completes (v : Variant) (i : Instruction) (p p' : U8) : Prop where
  flags : Within i.flags p p'
  pulled : i.mnemonic = .rti → p' = p
  disable : flagSet p' Psr.I ≠ flagSet p Psr.I → i.mnemonic = .cli ∨ i.mnemonic = .sei ∨
    i.mnemonic = .plp ∨ i.mnemonic = .brk ∧ flagSet p' Psr.I = true
  decimal : flagSet p' Psr.D ≠ flagSet p Psr.D → i.mnemonic = .cld ∨ i.mnemonic = .sed ∨
    i.mnemonic = .plp ∨ i.mnemonic = .brk ∧ v.isCmos ∧ flagSet p' Psr.D = false

theorem finished_within {i : Instruction} {c : Cpu6502} (inst : c.currentInst = some i)
    (phantom : Phantom c.p) (isBrk : i.addressMode = .interrupt .brk → i.mnemonic = .brk) :
    Within i.flags c.p (c.finished v.flavor i).p := by
  have ends (c : Cpu6502) : Within i.flags c.p (completed i c).p := by
    unfold completed
    split
    · exact finishImplied_within c i
    · next mode =>
        have flags : i.flags = Psr.I ||| Psr.D := by rw [Instruction.flags, isBrk mode]
        rw [flags]
        exact .setFlag c.p true (by decide)
    · exact .refl _ _
  rw [finished, finishInstruction_eq]
  split
  · obtain ⟨c', within, eq⟩ := finishRead_within v.flavor inst phantom
    simp only [eq, ok_bind, get_ok]
    exact within.trans (ends c')
  · exact ends c

theorem finished_rti (F : Flavor) {i : Instruction} (c : Cpu6502) (rti : i.mnemonic = .rti)
    (other : i.addressMode ≠ .interrupt .brk) : c.finished F i = c := by
  have ends : completed i c = c := by
    unfold completed
    split
    · rw [rti]
      rfl
    · next mode => exact absurd mode other
    · rfl
  rw [finished, finishInstruction_eq, rti]
  split
  · change get (Except.ok (completed i c)) c = c
    rw [ends, get_ok]
  · exact ends

theorem finished_brk_status (F : Flavor) {i : Instruction} (c : Cpu6502) (brk : i.mnemonic = .brk)
    (mode : i.addressMode = .interrupt .brk) (reads : i.memoryAction = .read) :
    (c.finished F i).p = Alu.setFlag
      (if F.decimal = .cmos65C02 then Alu.setFlag c.p Psr.D false else c.p) Psr.I true := by
  rw [finished, finishInstruction_eq, if_pos reads, brk]
  simp only [finishRead, pure_eq, ok_bind, get_ok, completed, mode]
  split <;> rfl

theorem disable_set : ∀ p : U8, flagSet (Alu.setFlag p Psr.I true) Psr.I = true := by decide

theorem decimal_clear : ∀ p : U8,
    flagSet (Alu.setFlag (Alu.setFlag p Psr.D false) Psr.I true) Psr.D = false := by decide

theorem finished_completes {op : U8} {c : Cpu6502} (inst : c.currentInst = some (v.decode op))
    (phantom : Phantom c.p) :
    Completes v (v.decode op) c.p (c.finished v.flavor (v.decode op)).p := by
  have isBrk := v.decode_isBrk op
  have action := v.decode_action op
  generalize v.decode op = i at inst isBrk action ⊢
  have within := finished_within (v := v) inst phantom isBrk.2
  have pulled (rti : i.mnemonic = .rti) : (c.finished v.flavor i).p = c.p := by
    rw [finished_rti v.flavor c rti fun mode => by cases (isBrk.2 mode).symm.trans rti]
  have broken (brk : i.mnemonic = .brk) := finished_brk_status v.flavor c brk (isBrk.1 brk)
    (by rw [action, brk]; rfl)
  refine ⟨within, pulled, fun changes => ?_, fun changes => ?_⟩
  · rcases i.flags_disable with apart | cli | sei | plp | rti | brk
    · exact absurd (within.flagSet apart) changes
    · exact .inl cli
    · exact .inr (.inl sei)
    · exact .inr (.inr (.inl plp))
    · exact absurd (by rw [pulled rti]) changes
    · exact .inr (.inr (.inr ⟨brk, by rw [broken brk]; exact disable_set _⟩))
  · rcases i.flags_decimal with apart | cld | sed | plp | rti | brk
    · exact absurd (within.flagSet apart) changes
    · exact .inl cld
    · exact .inr (.inl sed)
    · exact .inr (.inr (.inl plp))
    · exact absurd (by rw [pulled rti]) changes
    · refine .inr (.inr (.inr ⟨brk, ?_⟩))
      rw [broken brk] at changes ⊢
      by_cases cmos : v.flavor.decimal = .cmos65C02
      · have isCmos : v.isCmos := by cases v <;> first | rfl | cases cmos
        rw [if_pos cmos]
        exact ⟨isCmos, decimal_clear _⟩
      · rw [if_neg cmos] at changes
        exact absurd (flagSet_decimal_setFlag_I _ _) changes

/-- What a step may do to the flags, in what has been begun last. -/
structure FlagFrame (v : Variant) (begun : Begun) (cpu cpu' : Cpu6502) : Prop where
  flags : Within (begun.instr v).flags cpu.p cpu'.p
  disable : flagSet cpu'.p Psr.I ≠ flagSet cpu.p Psr.I →
    cpu'.ucycs.Drained ∧ ((begun.instr v).mnemonic = .cli ∨ (begun.instr v).mnemonic = .sei ∨
        (begun.instr v).mnemonic = .plp ∨
        (begun.instr v).mnemonic = .brk ∧ flagSet cpu'.p Psr.I = true) ∨
      (begun.instr v).mnemonic = .rti ∧ cpu.ucycs.front = some (.read .sp .status true)
  decimal : flagSet cpu'.p Psr.D ≠ flagSet cpu.p Psr.D →
    (begun.instr v).mnemonic = .cld ∨ (begun.instr v).mnemonic = .sed ∨
      (begun.instr v).mnemonic = .plp ∨ (begun.instr v).mnemonic = .rti ∨
      (begun.instr v).mnemonic = .brk ∧ v.isCmos ∧ cpu'.ucycs.Drained ∧
        flagSet cpu'.p Psr.D = false

theorem flagSet_of_and {p q flags flag : U8} (same : q &&& flags = p &&& flags)
    (le : flags &&& flag = flag) : flagSet q flag = flagSet p flag := by
  rw [flagSet, flagSet, ← le, ← BitVec.and_assoc, ← BitVec.and_assoc, same]

theorem Runs.frame (runs : cpu.Runs v begun) (phantom : Phantom cpu.p)
    {bus bus' : β} (outcome : Outcome v cpu lines bus .ucyc cpu' bus') :
    FlagFrame v begun cpu cpu' := by
  cases outcome with
  | @ucyc i u rest e us q awake inst live next wf live' more =>
      cases runs.inst.symm.trans inst
      obtain ⟨flags, moved⟩ := runs.next_flags phantom live bus
      rw [show (cpu.exec (begun.instr v) bus).next v.flavor u rest = (e, us) from next] at flags moved
      refine ⟨flags, fun changes => ?_, fun changes => ?_⟩
      · rcases moved with same | pulls
        · exact absurd (flagSet_of_and same (by decide)) changes
        · exact .inr pulls
      · rcases moved with same | pulls
        · exact absurd (flagSet_of_and same (by decide)) changes
        · exact .inr (.inr (.inr (.inl pulls.1)))
  | @last i u rest e q awake inst live next drained =>
      cases runs.inst.symm.trans inst
      obtain ⟨flags, moved⟩ := runs.next_flags phantom live bus
      rw [show (cpu.exec (begun.instr v) bus).next v.flavor u rest = (e, []) from next] at flags moved
      have same : (cpu.restore e q).currentInst = some (v.decode begun.opcode) := inst
      have phantom' : Phantom (cpu.restore e q).p := phantom.within flags (Instruction.flags_le _)
      have ends := finished_completes same phantom'
      have empty : ((cpu.restore e q).finished v.flavor (v.decode begun.opcode)).ucycs.Drained := by
        rw [(finished_rest v.flavor same).2.1]
        exact drained
      refine ⟨flags.trans ends.flags, fun changes => ?_, fun changes => ?_⟩
      · rcases moved with kept | pulls
        · have here : flagSet (cpu.restore e q).p Psr.I = flagSet cpu.p Psr.I :=
            flagSet_of_and kept (by decide)
          exact .inl ⟨empty, ends.disable (here ▸ changes)⟩
        · exact .inr pulls
      · rcases moved with kept | pulls
        · have here : flagSet (cpu.restore e q).p Psr.D = flagSet cpu.p Psr.D :=
            flagSet_of_and kept (by decide)
          rcases ends.decimal (here ▸ changes) with cld | sed | plp | ⟨brk, cmos, clear⟩
          · exact .inl cld
          · exact .inr (.inl sed)
          · exact .inr (.inr (.inl plp))
          · exact .inr (.inr (.inr (.inr ⟨brk, cmos, empty, clear⟩)))
        · exact .inr (.inr (.inr (.inl pulls.1)))

/-- A step that changes P executes a micro-op, and stays inside the frame of its instruction. -/
theorem flag_frame (told : Told β v prof (cpu, story)) {bus : β} {exit : StepExit} {bus' : β}
    (ran : cpu.step v.flavor prof lines bus = .ok (exit, cpu', bus')) (changes : cpu'.p ≠ cpu.p) :
    exit = .ucyc ∧ ∃ begun, story.begun = some begun ∧ FlagFrame v begun cpu cpu' := by
  have phantom := told.reachable.phantom
  obtain ⟨inv, tracks⟩ := told.tracks
  have outcome := step_outcome inv ran
  have executes : exit = .ucyc := by
    cases outcome with
    | ucyc | last => rfl
    | stalled | extraCycle | interrupt | fetch | first => exact absurd rfl changes
  subst executes
  rcases story with ⟨_ | begun, writes⟩
  · obtain ⟨i, _, _, _, _, inst, -⟩ := outcome.executes (inv.sample lines)
    cases inst.symm.trans tracks
  · have sampled : (cpu.sampleNmi lines).Tracks v (some begun) := Tracks.sample tracks lines
    have frame := Runs.frame sampled phantom outcome
    exact ⟨rfl, begun, rfl, frame.flags, frame.disable, frame.decimal⟩

def beforeSed : Cpu6502 × Story :=
  -- The core before the last cycle of SED, with its story.
  follow (tell .nmos6502 .debug) (new, .start)
    (fun _ => .step Lines.none (⟨fun _ => 0xF8⟩ : SimpleBus)) 1

set_option maxRecDepth 20000 in
theorem flag_frame_sed : ∃ exit cpu' bus' begun,
    beforeSed.1.step Variant.nmos6502.flavor .debug Lines.none (⟨fun _ => 0xF8⟩ : SimpleBus) =
      .ok (exit, cpu', bus') ∧ cpu'.p ≠ beforeSed.1.p ∧ FlagFrame .nmos6502 begun beforeSed.1 cpu' := by
  have reaches : Reaches (tell (β := SimpleBus) .nmos6502 .debug) (fun _ _ => True) (new, Story.start)
      beforeSed := follow_reaches (new, Story.start) _ 1
  have told : Told SimpleBus .nmos6502 .debug (beforeSed.1, beforeSed.2) := reaches
  obtain ⟨exit, cpu', bus', ran, changes⟩ : ∃ exit cpu' bus',
      beforeSed.1.step Variant.nmos6502.flavor .debug Lines.none (⟨fun _ => 0xF8⟩ : SimpleBus) =
        .ok (exit, cpu', bus') ∧ cpu'.p ≠ beforeSed.1.p := ⟨_, _, _, rfl, by decide⟩
  obtain ⟨-, begun, -, frame⟩ := flag_frame told ran changes
  exact ⟨exit, cpu', bus', begun, ran, changes, frame⟩

end Cpu6502

end Rs65x
