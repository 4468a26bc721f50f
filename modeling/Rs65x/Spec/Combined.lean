import Rs65x.Spec.Documented

/-!
# The programmer's model: the combined instructions

What a read-modify-write instruction and an instruction with an operand do with D set as well, and
the documented pairs that some illegal opcodes combine.
-/

namespace Rs65x
open Words Alu Fallible

namespace Arch
variable (s : Arch) (decimal : DecimalSemantics)

def consume (op : Mnemonic) (value : U8) : Arch :=
  match op with
  | .adc => s.arith (Alu.adc .release s.a value s.p decimal)
  | .sbc => s.arith (Alu.sbc .release s.a value s.p decimal)
  | .alr =>
      let masked := s.a &&& value
      { s with a := masked >>> 1, p := shifted s.p (masked >>> 1) (masked.getLsbD 0) }
  | .lax => { s.loadA value with x := value }
  | op => s.read op value

/-- The effect of an instruction that neither stores, jumps nor uses the stack. -/
def effect (i : Instruction) : Arch :=
  let addr := s.effectiveAddress i.addressMode
  let s' := { s with pc := s.pc + i.addressMode.length }
  if i.addressMode = .noMemory .implied then s'.implied i.mnemonic
  else if i.memoryAction = .readModifyWrite then
    let r := i.mnemonic.modify decimal s.a s.p (s.ram addr)
    { s' with a := r.a, p := r.p, ram := Function.update s.ram addr r.value }
  else s'.consume decimal i.mnemonic (s.ram addr)

def skip (i : Instruction) : Arch := { s with pc := s.pc + i.addressMode.length }

end Arch

/-- What SLO, RLA, SRE, RRA, DCP and ISC combine. -/
def Mnemonic.pair : Mnemonic → Option (Mnemonic × Mnemonic)
  | .slo => some (.asl, .ora)
  | .rla => some (.rol, .and)
  | .sre => some (.lsr, .eor)
  | .rra => some (.ror, .adc)
  | .dcp => some (.dec, .cmp)
  | .isc => some (.inc, .sbc)
  | _ => none

/-- The modes that the two halves of these share. -/
def AddressMode.isDirect : AddressMode → Bool
  | .directPage _ | .absolute _ => true
  | _ => false

/-- The first instruction stands for the other two. -/
inductive Instruction.Combines : Instruction → Instruction → Instruction → Prop
  | modify {op first second : Mnemonic} {mode : AddressMode}
      (pair : op.pair = some (first, second)) (direct : mode.isDirect) :
      Combines ⟨op, mode, .readModifyWrite⟩ ⟨first, mode, .readModifyWrite⟩ ⟨second, mode, .read⟩
  | alr : Combines ⟨.alr, .noMemory .immediate, .read⟩ ⟨.and, .noMemory .immediate, .read⟩
      ⟨.lsr, .noMemory .implied, .readModifyWrite⟩
  | lax {mode : AddressMode} (memory : mode.isMemory) :
      Combines ⟨.lax, mode, .read⟩ ⟨.lda, mode, .read⟩ ⟨.tax, .noMemory .implied, .read⟩

end Rs65x
