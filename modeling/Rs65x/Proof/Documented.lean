import Rs65x.Proof.Control

/-!
# The documented instructions

While D is clear, every core carries a documented instruction out as the programmer's model says.
-/

namespace Rs65x
open Fallible Alu

def Mnemonic.usesRead : Mnemonic → Bool
  | .lda | .ldx | .ldy | .and | .ora | .eor | .adc | .sbc | .cmp | .cpx | .cpy | .bit | .pla | .plp =>
      true
  | _ => false

def Mnemonic.isImplied : Mnemonic → Bool
  | .asl | .lsr | .rol | .ror | .tax | .tay | .txa | .tya | .tsx | .txs | .inx | .iny | .dex | .dey
  | .clc | .cld | .cli | .clv | .sec | .sed | .sei | .nop => true
  | _ => false

def Mnemonic.isBranch : Mnemonic → Bool
  | .bcc | .bcs | .beq | .bne | .bmi | .bpl | .bvc | .bvs => true
  | _ => false

def Mnemonic.isShift : Mnemonic → Bool
  | .asl | .lsr | .rol | .ror | .inc | .dec => true
  | _ => false

def Instruction.usesOperand (i : Instruction) : Bool :=
  match i.memoryAction with
  | .read => i.mnemonic.usesRead && !(i.mnemonic = .bit && i.addressMode = .noMemory .immediate)
  | .write => (i.mnemonic = .sta || i.mnemonic = .stx || i.mnemonic = .sty) && i.addressMode.isMemory
  | .readModifyWrite => i.mnemonic.isShift && i.addressMode.isMemory

def Instruction.isDocumented (i : Instruction) : Bool :=
  match i.addressMode with
  | .noMemory .implied => i.mnemonic.isImplied
  | .noMemory .immediate | .directPage _ | .absolute _ | .dpIndirect _ => i.usesOperand
  | .stack => i.mnemonic = .pha || i.mnemonic = .php || i.mnemonic = .pla || i.mnemonic = .plp
  | .branch .relative => i.mnemonic.isBranch
  | .jump .jmpAbsolute | .jump .jmpIndirect => i.mnemonic = .jmp
  | .jump .toSubroutine => i.mnemonic = .jsr
  | .jump .fromSubroutine => i.mnemonic = .rts
  | .jump .fromInterrupt => i.mnemonic = .rti
  | .interrupt .brk => i.mnemonic = .brk
  | _ => false

theorem Instruction.usesOperand_of_mode {i : Instruction} (form : i.isDocumented)
    (operand : i.addressMode.isMemory ∨ i.addressMode = .noMemory .immediate) : i.usesOperand := by
  rcases i with ⟨_, (_ | _) | _ | _ | _ | _ | _ | _ | _ | _ | _ | _ | _ | _ | _, _⟩ <;> first
    | exact form
    | simp [AddressMode.isMemory] at operand

theorem OpcodeTable.decode_common {op : U8}
    (common : ∀ e ∈ entries, e.code = op.toNat → e.filter = Filter.common) (t t' : OpcodeTable) :
    t.decode op = t'.decode op := by
  refine List.foldl_ext _ _ _ fun slot e mem => ?_
  by_cases code : e.code = op.toNat
  · rw [common e mem code]
    rfl
  · simp [code]

-- `Nat.beq` and `isNone` evaluate several times as fast as the decidable equalities
set_option maxRecDepth 20000 in
theorem documented_entries : entries.all fun e => !documentedOpcodes.any (Nat.beq e.code) ||
    e.filter.isNone && e.instruction.isDocumented &&
      (e.instruction.addressMode ≠ .jump .jmpIndirect || Nat.beq e.code 0x6C) := by
  decide

set_option maxRecDepth 20000 in
theorem documented_filled :
    documentedOpcodes.all fun code => entries.any fun e => Nat.beq e.code code := by
  decide

section
variable {op : U8} (mem : op.toNat ∈ documentedOpcodes)
include mem

theorem documented_entry {e : Entry} (mem' : e ∈ entries) (code : e.code = op.toNat) :
    e.filter = Filter.common ∧ e.instruction.isDocumented ∧
      (e.instruction.addressMode = .jump .jmpIndirect → op = 0x6C) := by
  have all := List.all_eq_true.1 documented_entries e mem'
  have documented : documentedOpcodes.any (Nat.beq e.code) :=
    List.any_eq_true.2 ⟨op.toNat, mem, Nat.beq_eq ▸ code⟩
  simp only [documented, Bool.not_true, Bool.false_or, Bool.and_eq_true, Bool.or_eq_true,
    decide_eq_true_eq, Option.isNone_iff_eq_none, Nat.beq_eq] at all
  obtain ⟨⟨filter, form⟩, indirect⟩ := all
  refine ⟨filter, form, fun jump => BitVec.eq_of_toNat_eq ?_⟩
  exact code.symm.trans (indirect.resolve_left (not_not.2 jump))

theorem OpcodeTable.decode_documented (t t' : OpcodeTable) : t.decode op = t'.decode op :=
  decode_common (fun _ mem' code => (documented_entry mem mem' code).1) t t'

end

namespace Variant
variable (v : Variant) {op : U8} (mem : op.toNat ∈ documentedOpcodes)
include mem

theorem decode_documented : v.decode op = Instruction.fromByte op .nmos :=
  OpcodeTable.decode_documented mem _ _

theorem documented_form : (v.decode op).isDocumented ∧
    ((v.decode op).addressMode = .jump .jmpIndirect → op = 0x6C) := by
  obtain ⟨e, mem', code⟩ := List.any_eq_true.1 (List.all_eq_true.1 documented_filled _ mem)
  have code : e.code = op.toNat := Nat.eq_of_beq_eq_true code
  refine OpcodeTable.decode_filled (P := fun i => i.isDocumented ∧
    (i.addressMode = .jump .jmpIndirect → op = 0x6C)) ⟨e, mem', code, ?_⟩ ?_
  · rw [(documented_entry mem mem' code).1]
    rfl
  · exact fun e mem' code => (documented_entry mem mem' code).2

end Variant

set_option maxRecDepth 20000 in
theorem Cpu6502.decode_rti (v : Variant) : v.decode 0x40 = ⟨.rti, .jump .fromInterrupt, .read⟩ :=
  (v.decode_documented (by decide)).trans (by decide)

namespace Alu

theorem adc_binary (prof : Profile) (a value : U8) {p : U8} (clear : flagSet p Psr.D = false)
    (semantics : DecimalSemantics) :
    ∃ r, adc prof a value p semantics = .ok r ∧ adc .release a value p .none = .ok r := by
  have same (semantics : DecimalSemantics) : adc .release a value p semantics =
      adc .release a value p .none := by
    simp only [adc, clear, Bool.not_false, Bool.true_or, if_true]
  obtain ⟨r, -, eq⟩ := adc_always a value p semantics
  exact ⟨r, eq prof, same semantics ▸ eq .release⟩

theorem sbc_binary (prof : Profile) (a value : U8) {p : U8} (clear : flagSet p Psr.D = false)
    (semantics : DecimalSemantics) :
    ∃ r, sbc prof a value p semantics = .ok r ∧ sbc .release a value p .none = .ok r := by
  have same (semantics : DecimalSemantics) : sbc .release a value p semantics =
      sbc .release a value p .none := by
    simp only [sbc, clear, Bool.not_false, Bool.true_or, if_true]
  obtain ⟨r, -, eq⟩ := sbc_always a value p semantics
  exact ⟨r, eq prof, same semantics ▸ eq .release⟩

end Alu

namespace Cpu6502

theorem loadA_zn (cpu : Cpu6502) (value : U8) :
    cpu.loadA (zn value) = { cpu with a := value, p := signZero cpu.p value } := by
  simp only [loadA, applyFlags, apply_zn]

theorem loadX_zn (cpu : Cpu6502) (value : U8) :
    cpu.loadX (zn value) = { cpu with x := value, p := signZero cpu.p value } := by
  simp only [loadX, applyFlags, apply_zn]

theorem loadY_zn (cpu : Cpu6502) (value : U8) :
    cpu.loadY (zn value) = { cpu with y := value, p := signZero cpu.p value } := by
  simp only [loadY, applyFlags, apply_zn]

theorem loadA_shift (cpu : Cpu6502) (value : U8) (out : Bool) :
    cpu.loadA (withShiftFlags value out) = { cpu with a := value, p := shifted cpu.p value out } := by
  simp only [loadA, applyFlags, apply_withShiftFlags]

theorem compare_eq (cpu : Cpu6502) (byte read : U8) :
    cpu.compare byte read = { cpu with p := compared cpu.p byte read } := by
  simp only [compare, applyFlags, apply_zn]
  rfl

theorem finishRead_documented (F : Flavor) (prof : Profile) (cpu : Cpu6502) {op : Mnemonic}
    (reads : op.usesRead) (clear : op = .adc ∨ op = .sbc → flagSet cpu.p Psr.D = false)
    (bit : op = .bit → ∃ i, cpu.currentInst = some i ∧ i.addressMode ≠ .noMemory .immediate) :
    ∃ done, cpu.finishRead F prof op = .ok done ∧
      ∀ ram, done.arch ram = (cpu.arch ram).read op cpu.scratch.op0 := by
  unfold finishRead
  cases op
  case lda | pla | and | ora | eor => exact ⟨_, rfl, fun ram => by rw [loadA_zn]; rfl⟩
  case ldx => exact ⟨_, rfl, fun ram => by rw [loadX_zn]; rfl⟩
  case ldy => exact ⟨_, rfl, fun ram => by rw [loadY_zn]; rfl⟩
  case adc =>
    obtain ⟨r, eq, binary⟩ := adc_binary prof cpu.a cpu.scratch.op0 (clear (.inl rfl)) F.decimal
    refine ⟨cpu.loadA r, by simp only [eq]; rfl, fun ram => ?_⟩
    simp only [Arch.read, Arch.arith, arch, binary, get_ok]
    rfl
  case sbc =>
    obtain ⟨r, eq, binary⟩ := sbc_binary prof cpu.a cpu.scratch.op0 (clear (.inr rfl)) F.decimal
    refine ⟨cpu.loadA r, by simp only [eq]; rfl, fun ram => ?_⟩
    simp only [Arch.read, Arch.arith, arch, binary, get_ok]
    rfl
  case cmp | cpx | cpy => exact ⟨_, rfl, fun ram => by rw [compare_eq]; rfl⟩
  case plp => exact ⟨_, rfl, fun ram => rfl⟩
  case bit =>
    obtain ⟨i, inst, memory⟩ := bit rfl
    simp only [inst, if_neg memory]
    exact ⟨_, rfl, fun ram => rfl⟩
  all_goals cases reads

theorem finishImplied_documented (cpu : Cpu6502) {op : Mnemonic} (implied : op.isImplied)
    (ram : U16 → U8) : (cpu.finishImplied op).arch ram = (cpu.arch ram).implied op := by
  cases op
  case asl => simp only [finishImplied, asl_eq, loadA_shift]; rfl
  case lsr => simp only [finishImplied, lsr_eq, loadA_shift]; rfl
  case rol => simp only [finishImplied, rol_eq, loadA_shift]; rfl
  case ror => simp only [finishImplied, ror_eq, loadA_shift]; rfl
  case txa | tya => simp only [finishImplied, loadA_zn]; rfl
  case tax | tsx | inx | dex => simp only [finishImplied, loadX_zn]; rfl
  case tay | iny | dey => simp only [finishImplied, loadY_zn]; rfl
  case txs | clc | cld | cli | clv | sec | sed | sei | nop => rfl
  all_goals cases implied

end Cpu6502

end Rs65x
