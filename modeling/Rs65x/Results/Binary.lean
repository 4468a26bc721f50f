import Rs65x.Proof.Decimal

/-!
# Binary arithmetic

The carry and the overflow of the ALU are those of the numbers, and a subtraction is the addition of
the complement.
-/

namespace Rs65x
open Fallible

namespace Alu
open AluWord

class Word (w : Nat) [AluWord (BitVec w)] : Prop extends Lawful (BitVec w) where
  widen_eq : ∀ v : BitVec w, widen v = v.setWidth 32
  truncate_eq : ∀ x : U32, (truncate x : BitVec w) = x.setWidth w
  sign_eq : sign (BitVec w) = BitVec.twoPow 32 (w - 1)
  bits : 4 * nibbles (BitVec w) = w
  pos : 0 < w

instance : Word 8 where
  widen_eq _ := rfl
  truncate_eq _ := rfl
  sign_eq := rfl
  bits := rfl
  pos := by decide

instance : Word 16 where
  widen_eq _ := rfl
  truncate_eq _ := rfl
  sign_eq := rfl
  bits := rfl
  pos := by decide

section
variable {w : Nat} [AluWord (BitVec w)]

/-- `r` is `value`, with `carry` for C and `overflow` for V; it leaves every other flag alone. -/
structure BinaryResult (p : U8) (r : AluResult (BitVec w)) (value : ℤ) (carry overflow : Prop) :
    Prop where
  value : (r.value.toNat : ℤ) = value % 2 ^ w
  carry : flagSet (r.apply p).2 Psr.C = true ↔ carry
  overflow : flagSet (r.apply p).2 Psr.V = true ↔ overflow
  sign : flagSet (r.apply p).2 Psr.N = r.value.msb
  zero : flagSet (r.apply p).2 Psr.Z = true ↔ r.value = 0
  others : (r.apply p).2 &&& ~~~(Psr.N ||| Psr.V ||| Psr.Z ||| Psr.C) =
    p &&& ~~~(Psr.N ||| Psr.V ||| Psr.Z ||| Psr.C)

def OutOfRange (w : Nat) (n : ℤ) : Prop := n < -2 ^ (w - 1) ∨ 2 ^ (w - 1) ≤ n

variable (w) in
def BinaryAdc : Prop := ∀ prof semantics (a b : BitVec w) (p : U8), IsBinary p semantics →
  ∃ r, adc prof a b p semantics = .ok r ∧
    BinaryResult p r (a.toNat + b.toNat + carryIn p) (2 ^ w ≤ a.toNat + b.toNat + carryIn p)
      (OutOfRange w (a.toInt + b.toInt + carryIn p))

variable (w) in
def BinarySbc : Prop := ∀ prof semantics (a b : BitVec w) (p : U8), IsBinary p semantics →
  ∃ r, sbc prof a b p semantics = .ok r ∧
    BinaryResult p r (a.toNat - b.toNat - (1 - carryIn p)) (b.toNat + (1 - carryIn p) ≤ a.toNat)
      (OutOfRange w (a.toInt - b.toInt - (1 - carryIn p)))

variable (w) in
/-- A subtraction is the addition of the complement, in its value and in its flags. -/
def SubtractsComplement : Prop := ∀ prof semantics (a b : BitVec w) (p : U8), IsBinary p semantics →
  sbc prof a b p semantics = adc prof a (~~~b) p semantics

end

section
variable {w : Nat} [AluWord (BitVec w)] [Word w]

theorem width_le : w ≤ 16 := by
  have few := nibbles_le (T := BitVec w)
  have bits := Word.bits (w := w)
  omega

theorem nibbles_pow : 16 ^ nibbles (BitVec w) = 2 ^ w := by
  have power : 2 ^ (4 * nibbles (BitVec w)) = 16 ^ nibbles (BitVec w) := by rw [Nat.pow_mul]
  rw [← power, Word.bits]

theorem toNat_widen (v : BitVec w) : (widen v).toNat = v.toNat := by
  have small := v.isLt
  have bound : 2 ^ w ≤ 2 ^ 32 := Nat.pow_le_pow_right (by decide) (Nat.le_trans width_le (by decide))
  rw [Word.widen_eq, BitVec.toNat_setWidth]
  exact Nat.mod_eq_of_lt (by omega)

theorem toNat_mask : (mask (BitVec w)).toNat + 1 = 2 ^ w := by
  rw [Lawful.mask_nibbles, nibbles_pow]

theorem widen_complement (b : BitVec w) : widen (~~~b) = widen b ^^^ mask (BitVec w) := by
  apply BitVec.eq_of_toNat_eq
  rw [toNat_complement, toNat_widen, toNat_widen, BitVec.toNat_not, nibbles_pow]
  omega

theorem and_sign (x : U32) : (x &&& sign (BitVec w) != 0) = (truncate x : BitVec w).msb := by
  have pos := Word.pos (w := w)
  have le := width_le (w := w)
  rw [Word.sign_eq, Word.truncate_eq, BitVec.msb_setWidth, BitVec.and_twoPow, decide_eq_true pos,
    Bool.true_and]
  cases x.getLsbD (w - 1) with
  | false => rfl
  | true =>
      rw [if_pos rfl, bne_iff_ne]
      intro zero
      have bit := congrArg (·.getLsbD (w - 1)) zero
      simp [BitVec.getLsbD_twoPow] at bit
      omega

theorem truncate_widen (v : BitVec w) : (truncate (widen v) : BitVec w) = v := by
  have le := width_le (w := w)
  rw [Word.truncate_eq, Word.widen_eq, BitVec.setWidth_setWidth_of_le _ (by omega), BitVec.setWidth_eq]

theorem truncate_xor (x y : U32) : (truncate (x ^^^ y) : BitVec w) = truncate x ^^^ truncate y := by
  rw [Word.truncate_eq, Word.truncate_eq, Word.truncate_eq, BitVec.setWidth_xor]

theorem truncate_and (x y : U32) : (truncate (x &&& y) : BitVec w) = truncate x &&& truncate y := by
  rw [Word.truncate_eq, Word.truncate_eq, Word.truncate_eq, BitVec.setWidth_and]

theorem truncate_not (x : U32) : (truncate (~~~x) : BitVec w) = ~~~truncate x := by
  have le := width_le (w := w)
  rw [Word.truncate_eq, Word.truncate_eq, BitVec.setWidth_not (by omega)]

theorem adc_sum (a b : BitVec w) {p : U8} {semantics : DecimalSemantics}
    (binary : IsBinary p semantics) : Always (adc · a b p semantics) (fun r => ∃ total : U32,
      total.toNat = a.toNat + b.toNat + carryIn p ∧
      r = withArithFlags (truncate total) (total > mask (BitVec w))
        (a.msb == b.msb && a.msb != (truncate total : BitVec w).msb)) := by
  have ha := Bounded.widen_lt a
  have hb := Bounded.widen_lt b
  unfold adc
  refine plainSum_always (c := carryWord p) ha hb (carryWord_le p) fun total_nat => ?_
  refine .ite (fun _ => .ok ⟨widen a + widen b + carryWord p, ?_, ?_⟩) fun other =>
    absurd binary.branch other
  · rw [total_nat, toNat_widen, toNat_widen, toNat_carryWord]
  · congr 1
    beta_reduce
    rw [and_sign, truncate_and, truncate_not, truncate_xor, truncate_xor, truncate_widen,
      truncate_widen, BitVec.msb_and, BitVec.msb_not, BitVec.msb_xor, BitVec.msb_xor,
      decide_eq_true (Word.pos (w := w))]
    cases a.msb <;> cases b.msb <;> rfl

theorem sbc_sum (a b : BitVec w) {p : U8} {semantics : DecimalSemantics}
    (binary : IsBinary p semantics) : Always (sbc · a b p semantics) (fun r => ∃ total : U32,
      total.toNat = a.toNat + (~~~b).toNat + carryIn p ∧
      r = withArithFlags (truncate total) (total > mask (BitVec w))
        (a.msb == (~~~b).msb && a.msb != (truncate total : BitVec w).msb)) := by
  have ha := Bounded.widen_lt a
  have hb := Bounded.widen_lt (~~~b)
  unfold sbc
  dsimp only
  rw [← widen_complement]
  refine plainSum_always (c := carryWord p) ha hb (carryWord_le p) fun total_nat => ?_
  have kept (sum : U32) : (truncate (sum &&& mask (BitVec w)) : BitVec w) = truncate sum := by
    rw [← Lawful.widen_truncate, truncate_widen]
  refine .ite (fun _ => .ok ⟨widen a + widen (~~~b) + carryWord p, ?_, ?_⟩) fun other =>
    absurd binary.branch other
  · rw [total_nat, toNat_widen, toNat_widen, toNat_carryWord]
  · rw [kept]
    congr 1
    rw [and_sign, truncate_and, truncate_xor, truncate_xor, kept, truncate_widen, truncate_widen,
      BitVec.msb_and, BitVec.msb_xor, BitVec.msb_xor, BitVec.msb_not,
      decide_eq_true (Word.pos (w := w))]
    cases a.msb <;> cases b.msb <;> rfl

theorem overflow_iff {a b v : BitVec w} {c : Nat} (bit : c ≤ 1)
    (sum : v.toNat = (a.toNat + b.toNat + c) % 2 ^ w) :
    (a.msb == b.msb && a.msb != v.msb) = true ↔ OutOfRange w (a.toInt + b.toInt + c) := by
  have double : 2 ^ w = 2 * 2 ^ (w - 1) := by
    have pos := Word.pos (w := w)
    rw [← Nat.pow_succ', Nat.succ_eq_add_one, Nat.sub_add_cancel pos]
  have cast : ((2 ^ (w - 1) : ℕ) : ℤ) = 2 ^ (w - 1) := by push_cast; rfl
  have a_lt := a.isLt
  have b_lt := b.isLt
  have wraps : v.toNat = a.toNat + b.toNat + c ∧ a.toNat + b.toNat + c < 2 ^ w ∨
      v.toNat + 2 ^ w = a.toNat + b.toNat + c := by
    rcases Nat.lt_or_ge (a.toNat + b.toNat + c) (2 ^ w) with lt | ge
    · exact .inl ⟨sum.trans (Nat.mod_eq_of_lt lt), lt⟩
    · rw [Nat.mod_eq_sub_mod ge, Nat.mod_eq_of_lt (by omega)] at sum
      exact .inr (by omega)
  have v_lt := v.isLt
  rw [OutOfRange, BitVec.toInt_eq_msb_cond, BitVec.toInt_eq_msb_cond, BitVec.msb_eq_decide,
    BitVec.msb_eq_decide, BitVec.msb_eq_decide]
  simp only [Bool.and_eq_true, beq_iff_eq, bne_iff_ne, ne_eq, decide_eq_decide, decide_eq_true_eq]
  rw [double, ← cast]
  rw [double] at a_lt b_lt v_lt wraps
  generalize 2 ^ (w - 1) = half at *
  split <;> split <;> omega

theorem BinaryResult.of_sum {a b : BitVec w} {p : U8} {total : U32}
    (sum : total.toNat = a.toNat + b.toNat + carryIn p) : BinaryResult p
      (withArithFlags (truncate total : BitVec w) (total > mask (BitVec w))
        (a.msb == b.msb && a.msb != (truncate total : BitVec w).msb))
      (a.toNat + b.toNat + carryIn p) (2 ^ w ≤ a.toNat + b.toNat + carryIn p)
      (OutOfRange w (a.toInt + b.toInt + carryIn p)) := by
  have kept : (truncate total : BitVec w).toNat = (a.toNat + b.toNat + carryIn p) % 2 ^ w := by
    rw [Word.truncate_eq, BitVec.toNat_setWidth, sum]
  have ones := toNat_mask (w := w)
  obtain ⟨c, z, n⟩ := flagSet_arith (withArithFlags (truncate total : BitVec w)
    (total > mask (BitVec w)) (a.msb == b.msb && a.msb != (truncate total : BitVec w).msb)) p rfl
  constructor
  · change ((truncate total : BitVec w).toNat : ℤ) = _
    rw [kept]
    push_cast
    rfl
  · have greater : total > mask (BitVec w) ↔ (mask (BitVec w)).toNat < total.toNat := Iff.rfl
    rw [c, withArithFlags_C, decide_eq_true_eq, greater, sum]
    omega
  · rw [flagSet_applied _ p (show arithMask &&& Psr.V = Psr.V by decide), withArithFlags_V]
    exact overflow_iff (carryIn_le p) kept
  · rw [n, withArithFlags_N, and_sign, truncate_widen]
    rfl
  · rw [z, withArithFlags_Z, beq_iff_eq, ← BitVec.toNat_inj, toNat_widen, ← BitVec.toNat_inj]
    rfl
  · exact apply_and _ p
      (show arithMask &&& ~~~(Psr.N ||| Psr.V ||| Psr.Z ||| Psr.C) = 0 by decide)

theorem adc_modular : BinaryAdc w := by
  intro prof semantics a b p binary
  obtain ⟨r, ⟨total, sum, rfl⟩, run⟩ := adc_sum a b binary
  exact ⟨_, run prof, .of_sum sum⟩

theorem sbc_complement : SubtractsComplement w := by
  intro prof semantics a b p binary
  obtain ⟨_, ⟨total, sum, rfl⟩, run⟩ := adc_sum a (~~~b) binary
  obtain ⟨_, ⟨total', sum', rfl⟩, run'⟩ := sbc_sum a b binary
  have same : total' = total := BitVec.eq_of_toNat_eq (sum'.trans sum.symm)
  subst same
  exact (run' prof).trans (run prof).symm

theorem sbc_modular : BinarySbc w := by
  intro prof semantics a b p binary
  have b_lt := b.isLt
  have bit := carryIn_le p
  have pos := Nat.two_pow_pos w
  obtain ⟨r, run, result⟩ := adc_modular prof semantics a (~~~b) p binary
  refine ⟨r, (sbc_complement prof semantics a b p binary).trans run, ?_⟩
  have complement : (~~~b).toNat = 2 ^ w - (b.toNat + 1) := by
    rw [BitVec.toNat_not]
    omega
  obtain ⟨value, carry, overflow, sign, zero, others⟩ := result
  refine ⟨?_, ?_, ?_, sign, zero, others⟩
  · have shifted : (a.toNat + (~~~b).toNat + carryIn p : ℤ) =
        a.toNat - b.toNat - (1 - carryIn p) + 2 ^ w := by
      rw [complement]
      push_cast [Nat.succ_le_of_lt b_lt]
      ring
    rw [value, shifted, Int.add_emod_right]
  · rw [carry, complement]
    omega
  · have negated : (~~~b).toInt = -b.toInt - 1 := by
      rw [BitVec.toInt_eq_msb_cond, BitVec.toInt_eq_msb_cond, BitVec.msb_not,
        decide_eq_true (Word.pos (w := w)), complement]
      cases b.msb with
      | true | false =>
          simp only [Bool.true_and, Bool.not_true, Bool.not_false, Bool.false_eq_true, if_true,
            if_false]
          push_cast [Nat.succ_le_of_lt b_lt]
          ring
    rw [overflow, negated, show a.toInt + (-b.toInt - 1) + carryIn p =
      a.toInt - b.toInt - (1 - carryIn p) by ring]

end

/-- Without decimal mode both widths compute modulo `2 ^ w`, with the flags of the numbers. -/
theorem binary_arithmetic : (BinaryAdc 8 ∧ BinarySbc 8 ∧ SubtractsComplement 8) ∧
    BinaryAdc 16 ∧ BinarySbc 16 ∧ SubtractsComplement 16 :=
  ⟨⟨adc_modular, sbc_modular, sbc_complement⟩, adc_modular, sbc_modular, sbc_complement⟩

end Alu

end Rs65x
