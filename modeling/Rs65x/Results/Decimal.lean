import Mathlib.Tactic.Linarith
import Rs65x.Proof.Decimal

/-!
# Decimal arithmetic
-/

namespace Rs65x
open Fallible Positional

namespace Alu
open AluWord

variable {T : Type} [AluWord T]

/-- `r` is `result`, with `carry` for C. On the NMOS core Z is that of the binary result `r'`. -/
structure DecimalResult (semantics : DecimalSemantics) (p : U8) (r r' : AluResult T) (result : Nat)
    (carry : Prop) : Prop where
  value : (widen r.value).toNat = packed T result
  carry : flagSet (r.apply p).2 Psr.C = true ↔ carry
  zero : flagSet (r.apply p).2 Psr.Z = if semantics = .nmos6502 then flagSet (r'.apply p).2 Psr.Z
    else widen r.value == 0
  sign : semantics ≠ .nmos6502 → flagSet (r.apply p).2 Psr.N = (widen r.value &&& sign T != 0)

variable (T) in
/-- With D set `adc` adds packed decimals. -/
def DecimalAdc : Prop := ∀ prof semantics (a b : T) (p : U8), semantics ≠ .none → Bcd a → Bcd b →
  flagSet p Psr.D = true → ∃ r r', adc prof a b p semantics = .ok r ∧
    adc prof a b (setFlag p Psr.D false) semantics = .ok r' ∧
    DecimalResult semantics p r r' ((number a + number b + carryIn p) % 10 ^ nibbles T)
      (10 ^ nibbles T ≤ number a + number b + carryIn p)

variable (T) in
/-- With D set `sbc` subtracts packed decimals. -/
def DecimalSbc : Prop := ∀ prof semantics (a b : T) (p : U8), semantics ≠ .none → Bcd a → Bcd b →
  flagSet p Psr.D = true → ∃ r r', sbc prof a b p semantics = .ok r ∧
    sbc prof a b (setFlag p Psr.D false) semantics = .ok r' ∧
    DecimalResult semantics p r r'
      (((number a : ℤ) - number b - (1 - carryIn p)) % 10 ^ nibbles T).toNat
      (number b + (1 - carryIn p) ≤ number a)

theorem packed_value {d : Nat → Nat} (small : ∀ j < nibbles T, d j < 10) :
    packed T (value 10 d (nibbles T)) = value 16 d (nibbles T) := by
  have recoded := recode_value small 16 0
  rwa [Nat.zero_mul, Nat.add_zero] at recoded

theorem carryWord_decimal (p : U8) : carryWord (setFlag p Psr.D false) = carryWord p := by
  rw [carryWord, carryWord, flagSet_setFlag p (by decide)]

theorem clear_decimal (p : U8) : flagSet (setFlag p Psr.D false) Psr.D = false := by
  have all : ∀ p : U8, flagSet (setFlag p Psr.D false) Psr.D = false := by decide
  exact all p

theorem adc_decimal [Lawful T] : DecimalAdc T := by
  intro prof semantics a b p some ha hb decimal
  obtain ⟨r, ⟨mask, value_eq, carry_iff, zero, sign⟩, run⟩ := adc_digits ha hb decimal some
  obtain ⟨r', ⟨mask', zero'⟩, run'⟩ := adc_zero a b (clear_decimal p) semantics
  refine ⟨r, r', run prof, run' prof, ?_⟩
  obtain ⟨c, z, n⟩ := flagSet_arith r p mask
  have le := carryIn_le p
  have da : ∀ j < nibbles T, digit 16 (widen a).toNat j < 10 := fun j lt => Nat.lt_succ_of_le (ha j lt)
  have db : ∀ j < nibbles T, digit 16 (widen b).toNat j < 10 := fun j lt => Nat.lt_succ_of_le (hb j lt)
  have digits : ∀ j < nibbles T,
      sum 10 (digit 16 (widen a).toNat) (digit 16 (widen b).toNat) (carryIn p) j < 10 :=
    fun j lt => (sum_digit le (da j lt) (db j lt)).1
  have total : number a + number b + carryIn p = _ := value_sum le da db
  have lt := value_lt digits
  constructor
  · rw [value_eq, total, Nat.add_mul_mod_self_right, Nat.mod_eq_of_lt lt, packed_value digits]
  · rw [c, carry_iff, total]
    have bit := carry_le (b := 10) (x := digit 16 (widen a).toNat) (y := digit 16 (widen b).toNat)
      le (nibbles T)
    rcases Nat.le_one_iff_eq_zero_or_eq_one.1 bit with eq | eq
    · rw [eq, Nat.zero_mul]
      omega
    · rw [eq, Nat.one_mul]
      omega
  · rw [z, zero, (flagSet_arith r' p mask').2.1, zero', carryWord_decimal]
  · intro other
    rw [n, sign other]

theorem sbc_decimal [Lawful T] : DecimalSbc T := by
  intro prof semantics a b p some ha hb decimal
  obtain ⟨r, ⟨mask, value_eq, carry_iff, zero, sign⟩, run⟩ := sbc_digits ha hb decimal some
  obtain ⟨r', ⟨mask', -, -, zero'⟩, run'⟩ := sbc_difference a b (.inl (clear_decimal p))
  refine ⟨r, r', run prof, run' prof, ?_⟩
  obtain ⟨c, z, n⟩ := flagSet_arith r p mask
  have le := carryIn_le p
  have c_le : 1 - carryIn p ≤ 1 := Nat.sub_le 1 _
  have da : ∀ j < nibbles T, digit 16 (widen a).toNat j < 10 := fun j lt => Nat.lt_succ_of_le (ha j lt)
  have db : ∀ j < nibbles T, digit 16 (widen b).toNat j < 10 := fun j lt => Nat.lt_succ_of_le (hb j lt)
  have digits := difference_lt c_le da db
  have total := value_difference c_le da db
  replace total : _ + (number b + (1 - carryIn p)) = number a + _ := total
  have lt := value_lt digits
  have bit := borrow_le (x := digit 16 (widen a).toNat) (y := digit 16 (widen b).toNat) c_le (nibbles T)
  constructor
  · rw [value_eq, ← packed_value digits]
    refine congrArg _ ?_
    have exact : (number a : ℤ) - number b - (1 - carryIn p) =
        value 10 (difference 10 (digit 16 (widen a).toNat) (digit 16 (widen b).toNat) (1 - carryIn p))
            (nibbles T) -
          borrow (digit 16 (widen a).toNat) (digit 16 (widen b).toNat) (1 - carryIn p) (nibbles T) *
            10 ^ nibbles T := by
      have cast := congrArg (Nat.cast : ℕ → ℤ) total
      push_cast [le] at cast
      linarith
    rw [exact, Int.sub_mul_emod_self_right, Int.emod_eq_of_lt (Int.natCast_nonneg _)
      (by exact_mod_cast lt), Int.toNat_natCast]
  · rw [c, carry_iff]
    rcases Nat.le_one_iff_eq_zero_or_eq_one.1 bit with eq | eq
    · rw [eq, Nat.zero_mul] at total
      omega
    · rw [eq, Nat.one_mul] at total
      omega
  · rw [z, zero, (flagSet_arith r' p mask').2.1, zero', carryWord_decimal]
  · intro other
    rw [n, sign other]

/-- Two and four digits at a time, decimal arithmetic is decimal. -/
theorem decimal_arithmetic : nibbles U8 = 2 ∧ nibbles U16 = 4 ∧
    DecimalAdc U8 ∧ DecimalSbc U8 ∧ DecimalAdc U16 ∧ DecimalSbc U16 :=
  ⟨rfl, rfl, adc_decimal, sbc_decimal, adc_decimal, sbc_decimal⟩

/-- 1999 + 8002 leaves 1 and a carry. -/
example : (adc .debug (0x1999 : U16) 0x8002 Psr.D .wdc65C816).map
    (fun r => (r.value, flagSet (r.apply Psr.D).2 Psr.C)) = .ok (0x0001, true) := by decide

end Alu

end Rs65x
