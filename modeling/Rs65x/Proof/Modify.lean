import Rs65x.Proof.Decode
import Rs65x.Spec.Modify

/-!
# The modify phase computes what the instruction says
-/

namespace Rs65x
open Fallible

namespace Alu

theorem widen_sign (v : U8) : (AluWord.widen v &&& AluWord.sign U8 != 0) = v.msb := by
  revert v
  decide

theorem apply_zn (value p : U8) : (zn value).apply p = (value, signZero p value) := by
  have zero : (AluWord.widen value == 0) = (value == 0) := by
    revert value
    decide
  have flags : ∀ n z, ∀ p : U8, p &&& ~~~(Psr.Z ||| Psr.N) |||
      ((if n then Psr.N else 0) ||| if z then Psr.Z else 0) &&& (Psr.Z ||| Psr.N) =
        setFlag (setFlag p Psr.N n) Psr.Z z := by
    decide
  simp only [zn, AluResult.apply, widen_sign, zero, signZero]
  exact congrArg _ (flags _ _ p)

theorem apply_withShiftFlags (value p : U8) (out : Bool) :
    (withShiftFlags value out).apply p = (value, shifted p value out) := by
  have zero : (AluWord.widen value == 0) = (value == 0) := by
    revert value
    decide
  have flags : ∀ n z c, ∀ p : U8, p &&& ~~~(Psr.Z ||| Psr.N ||| Psr.C) |||
      setFlag ((if n then Psr.N else 0) ||| if z then Psr.Z else 0) Psr.C c &&&
        (Psr.Z ||| Psr.N ||| Psr.C) =
        setFlag (setFlag (setFlag p Psr.N n) Psr.Z z) Psr.C c := by
    decide
  simp only [withShiftFlags, zn, AluResult.apply, widen_sign, zero, shifted, signZero]
  exact congrArg _ (flags _ _ _ p)

theorem signZero_shifted (p first value : U8) (out : Bool) :
    signZero (shifted p first out) value = shifted p value out := by
  have flags : ∀ n z n' z' c, ∀ p : U8,
      setFlag (setFlag (setFlag (setFlag (setFlag p Psr.N n) Psr.Z z) Psr.C c) Psr.N n') Psr.Z z' =
        setFlag (setFlag (setFlag p Psr.N n') Psr.Z z') Psr.C c := by
    decide
  exact flags _ _ _ _ _ p

theorem asl_eq (v : U8) : asl v = withShiftFlags (v <<< 1) v.msb := by
  have value : (AluWord.truncate (AluWord.widen v <<< 1) : U8) = v <<< 1 := by
    revert v
    decide
  rw [asl, value, widen_sign]

theorem lsr_eq (v : U8) : lsr v = withShiftFlags (v >>> 1) (v.getLsbD 0) := by
  have value : (AluWord.truncate (AluWord.widen v >>> 1) : U8) = v >>> 1 ∧
      (AluWord.widen v &&& 1 != 0) = v.getLsbD 0 := by
    revert v
    decide
  rw [lsr, value.1, value.2]

theorem rol_eq (v : U8) (carry : Bool) :
    rol v carry = withShiftFlags (v <<< 1 ||| if carry then 1 else 0) v.msb := by
  have value : (AluWord.truncate (AluWord.widen v <<< 1 ||| if carry then 1 else 0) : U8) =
      v <<< 1 ||| if carry then 1 else 0 := by
    revert v carry
    decide
  rw [rol, value, widen_sign]

theorem ror_eq (v : U8) (carry : Bool) :
    ror v carry = withShiftFlags (v >>> 1 ||| if carry then 0x80 else 0) (v.getLsbD 0) := by
  have value : (AluWord.truncate
        (AluWord.widen v >>> 1 ||| if carry then AluWord.sign U8 else 0) : U8) =
      v >>> 1 ||| (if carry then 0x80 else 0) ∧ (AluWord.widen v &&& 1 != 0) = v.getLsbD 0 := by
    revert v carry
    decide
  rw [ror, value.1, value.2]

theorem inc_eq (v : U8) : inc .release v = .ok (zn (v + 1)) := by
  have value : (AluWord.truncate (AluWord.widen v + 1) : U8) = v + 1 := by
    revert v
    decide
  rw [← value]
  rfl

theorem dec_eq (v : U8) : dec v = zn (v - 1) := by
  have value : (AluWord.truncate (AluWord.widen v - 1) : U8) = v - 1 := by
    revert v
    decide
  rw [dec, value]

theorem widen_test (a v : U8) : (AluWord.widen a &&& AluWord.widen v == 0) = (a &&& v == 0) := by
  have widen : AluWord.widen a &&& AluWord.widen v = (a &&& v).setWidth 32 := by
    simp [AluWord.widen]
  rw [widen]
  generalize a &&& v = w
  revert w
  decide

theorem apply_tsb (a v p : U8) :
    (tsb a v).apply p = (v ||| a, setFlag p Psr.Z (a &&& v == 0)) := by
  have value : (AluWord.truncate (AluWord.widen v ||| AluWord.widen a) : U8) = v ||| a := by
    simp [AluWord.truncate, AluWord.widen]
  have flags : ∀ z, ∀ p : U8, p &&& ~~~Psr.Z ||| (if z then Psr.Z else 0) &&& Psr.Z =
      setFlag p Psr.Z z := by
    decide
  simp only [tsb, AluResult.apply, value, widen_test]
  exact congrArg _ (flags _ p)

theorem apply_trb (a v p : U8) :
    (trb a v).apply p = (v &&& ~~~a, setFlag p Psr.Z (a &&& v == 0)) := by
  have value : (AluWord.truncate (AluWord.widen v &&& ~~~AluWord.widen a) : U8) = v &&& ~~~a := by
    apply BitVec.eq_of_getLsbD_eq
    intro i h
    simp [AluWord.truncate, AluWord.widen, h]
  have flags : ∀ z, ∀ p : U8, p &&& ~~~Psr.Z ||| (if z then Psr.Z else 0) &&& Psr.Z =
      setFlag p Psr.Z z := by
    decide
  simp only [trb, AluResult.apply, value, widen_test]
  exact congrArg _ (flags _ p)

end Alu

def Mnemonic.bitsAgree (m : Mnemonic) (op : U8) : Bool :=
  match m.resetBit, m.setBit with
  | some n, _ => MicroCtx6502.bitIndexRmb op = some (BitVec.ofNat 8 n)
  | none, some n =>
      MicroCtx6502.bitIndexRmb op = none && MicroCtx6502.bitIndexSmb op = some (BitVec.ofNat 8 n)
  | none, none => true

set_option maxRecDepth 20000 in
theorem Variant.decode_bits (v : Variant) (op : U8) : (v.decode op).mnemonic.bitsAgree op :=
  OpcodeTable.decode_form (fun i op => i.mnemonic.bitsAgree op) _ op rfl (by decide)

namespace MicroCtx6502
open Alu

theorem aluModify_eq (F : Flavor) (ctx : MicroCtx6502) (scratch : MicroExecutor)
    (modifies : ctx.instruction.mnemonic.action = .readModifyWrite)
    (bits : ctx.instruction.mnemonic.bitsAgree ctx.opcode) :
    let r := ctx.instruction.mnemonic.modify F.decimal ctx.a ctx.status scratch.op0
    ctx.aluModify F .release scratch =
      .ok ({ ctx with a := r.a, status := r.p }, { scratch with op0 := r.value }) := by
  unfold aluModify
  cases h : ctx.instruction.mnemonic
  all_goals try simp [h, Mnemonic.action] at modifies
  case asl => simp [asl_eq, apply_withShiftFlags, Mnemonic.modify]
  case lsr => simp [lsr_eq, apply_withShiftFlags, Mnemonic.modify]
  case rol => simp [rol_eq, apply_withShiftFlags, Mnemonic.modify]
  case ror => simp [ror_eq, apply_withShiftFlags, Mnemonic.modify]
  case inc => simp [inc_eq, apply_zn, Mnemonic.modify]
  case dec => simp [dec_eq, apply_zn, Mnemonic.modify]
  case tsb => simp [apply_tsb, Mnemonic.modify]
  case trb => simp [apply_trb, Mnemonic.modify]
  case slo => simp [asl_eq, apply_withShiftFlags, apply_zn, signZero_shifted, Mnemonic.modify]
  case rla => simp [rol_eq, apply_withShiftFlags, apply_zn, signZero_shifted, Mnemonic.modify]
  case sre => simp [lsr_eq, apply_withShiftFlags, apply_zn, signZero_shifted, Mnemonic.modify]
  case rra =>
    obtain ⟨sum, -, eq⟩ := adc_always ctx.a (scratch.op0 >>> 1 ||| if flagSet ctx.status Psr.C
      then 0x80 else 0) (shifted ctx.status (scratch.op0 >>> 1 ||| if flagSet ctx.status Psr.C
      then 0x80 else 0) (scratch.op0.getLsbD 0)) F.decimal
    simp only [Mnemonic.modify, ror_eq, apply_withShiftFlags, eq, ok_bind, get_ok]
    rfl
  case isc =>
    obtain ⟨difference, -, eq⟩ := sbc_always ctx.a (scratch.op0 + 1) ctx.status F.decimal
    simp only [Mnemonic.modify, eq, ok_bind, get_ok]
    rfl
  case dcp => simp [apply_zn, Mnemonic.modify, compared]
  all_goals
    simp only [h, Mnemonic.bitsAgree, Mnemonic.resetBit, Mnemonic.setBit, Bool.and_eq_true,
      decide_eq_true_eq] at bits
    simp [bits, Mnemonic.modify, Mnemonic.resetBit, Mnemonic.setBit, plainShl]

end MicroCtx6502

end Rs65x
