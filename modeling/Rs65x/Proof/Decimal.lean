import Rs65x.Proof.Execute

/-!
# The digit loops

Each turn of a loop adds one digit to what the digits below it make.
-/

namespace Rs65x
open Fallible Positional

namespace Alu
open AluWord

class Lawful (T : Type) [AluWord T] : Prop extends Bounded T where
  widen_nibbles : ∀ v : T, (widen v).toNat < 16 ^ nibbles T
  mask_nibbles : (mask T).toNat + 1 = 16 ^ nibbles T
  widen_truncate : ∀ x : U32, widen (truncate x : T) = x &&& mask T

instance : Lawful U8 where
  widen_nibbles v := by
    have small := v.isLt
    simp only [widen, BitVec.toNat_setWidth]
    change _ < 256
    omega
  mask_nibbles := rfl
  widen_truncate x := by
    apply BitVec.eq_of_toNat_eq
    simp only [widen, truncate, BitVec.toNat_setWidth, BitVec.toNat_and]
    rw [Nat.mod_eq_of_lt (by omega)]
    exact (Nat.and_two_pow_sub_one_eq_mod _ 8).symm

instance : Lawful U16 where
  widen_nibbles v := by
    have small := v.isLt
    simp only [widen, BitVec.toNat_setWidth]
    change _ < 65536
    omega
  mask_nibbles := rfl
  widen_truncate x := by
    apply BitVec.eq_of_toNat_eq
    simp only [widen, truncate, BitVec.toNat_setWidth, BitVec.toNat_and]
    rw [Nat.mod_eq_of_lt (by omega)]
    exact (Nat.and_two_pow_sub_one_eq_mod _ 16).symm

section Flags
variable {T : Type} [AluWord T]

theorem withArithFlags_C (value : T) (carry overflow : Bool) :
    flagSet (withArithFlags value carry overflow).flags Psr.C = carry := by
  simp only [withArithFlags, withShiftFlags, zn]
  generalize (widen value &&& sign T != 0) = n
  generalize (widen value == 0) = z
  cases n <;> cases z <;> cases carry <;> cases overflow <;> rfl

theorem withArithFlags_Z (value : T) (carry overflow : Bool) :
    flagSet (withArithFlags value carry overflow).flags Psr.Z = (widen value == 0) := by
  simp only [withArithFlags, withShiftFlags, zn]
  generalize (widen value &&& sign T != 0) = n
  generalize (widen value == 0) = z
  cases n <;> cases z <;> cases carry <;> cases overflow <;> rfl

theorem withArithFlags_N (value : T) (carry overflow : Bool) :
    flagSet (withArithFlags value carry overflow).flags Psr.N = (widen value &&& sign T != 0) := by
  simp only [withArithFlags, withShiftFlags, zn]
  generalize (widen value &&& sign T != 0) = n
  generalize (widen value == 0) = z
  cases n <;> cases z <;> cases carry <;> cases overflow <;> rfl

theorem withArithFlags_V (value : T) (carry overflow : Bool) :
    flagSet (withArithFlags value carry overflow).flags Psr.V = overflow := by
  simp only [withArithFlags, withShiftFlags, zn]
  generalize (widen value &&& sign T != 0) = n
  generalize (widen value == 0) = z
  cases n <;> cases z <;> cases carry <;> cases overflow <;> rfl

omit [AluWord T] in
theorem flagSet_applied (r : AluResult T) (p : U8) {mask : U8} (applied : r.flagMask &&& mask = mask) :
    flagSet (r.apply p).2 mask = flagSet r.flags mask := by
  have same : (p &&& ~~~r.flagMask ||| r.flags &&& r.flagMask) &&& mask = r.flags &&& mask := by
    have cleared : ~~~r.flagMask &&& mask = 0#8 := by
      rw [← applied, ← BitVec.and_assoc, BitVec.and_comm (~~~_), BitVec.and_not_self]
      exact BitVec.zero_and
    rw [BitVec.and_or_distrib_right, BitVec.and_assoc, BitVec.and_assoc, cleared, applied,
      BitVec.and_zero, BitVec.zero_or]
  rw [AluResult.apply, flagSet, flagSet, same]

theorem flagSet_setFlag_Z (p : U8) (b : Bool) : flagSet (setFlag p Psr.Z b) Psr.Z = b := by
  have all : ∀ b, ∀ p : U8, flagSet (setFlag p Psr.Z b) Psr.Z = b := by decide
  exact all b p

omit [AluWord T] in
theorem flagSet_arith (r : AluResult T) (p : U8) (arith : r.flagMask = arithMask) :
    flagSet (r.apply p).2 Psr.C = flagSet r.flags Psr.C ∧
      flagSet (r.apply p).2 Psr.Z = flagSet r.flags Psr.Z ∧
      flagSet (r.apply p).2 Psr.N = flagSet r.flags Psr.N := by
  refine ⟨?_, ?_, ?_⟩
  · exact flagSet_applied r p (by rw [arith]; decide)
  · exact flagSet_applied r p (by rw [arith]; decide)
  · exact flagSet_applied r p (by rw [arith]; decide)

end Flags

def IsBinary (p : U8) (semantics : DecimalSemantics) : Prop :=
  flagSet p Psr.D = false ∨ semantics = .none

theorem IsBinary.branch {p : U8} {semantics : DecimalSemantics} (binary : IsBinary p semantics) :
    (!flagSet p Psr.D || decide (semantics = .none)) = true := by
  rcases binary with clear | rfl
  · simp [clear]
  · simp

/-! ## Packed decimals -/

section
variable {T : Type} [AluWord T]

def Bcd (v : T) : Prop := ∀ j < nibbles T, digit 16 (widen v).toNat j ≤ 9

def number (v : T) : Nat := recode 16 10 (nibbles T) (widen v).toNat

variable (T) in
def packed (n : Nat) : Nat := recode 10 16 (nibbles T) n

def carryIn (p : U8) : Nat := if flagSet p Psr.C then 1 else 0

theorem carryIn_le (p : U8) : carryIn p ≤ 1 := by
  rw [carryIn]
  split <;> decide

end

variable {T : Type} [AluWord T]

theorem nibbles_pow_le : 16 ^ nibbles T ≤ 2 ^ 16 := by
  rw [show (2 : Nat) ^ 16 = 16 ^ 4 from rfl]
  exact Nat.pow_le_pow_right (by decide) nibbles_le

theorem widen_truncate_nat [Lawful T] {x : U32} (small : x.toNat < 16 ^ nibbles T) :
    (widen (truncate x : T)).toNat = x.toNat := by
  have power : 16 ^ nibbles T = 2 ^ (4 * nibbles T) := by rw [Nat.pow_mul]
  have ones : (mask T).toNat = 2 ^ (4 * nibbles T) - 1 := by
    rw [← power, ← Lawful.mask_nibbles (T := T), Nat.add_sub_cancel]
  rw [Lawful.widen_truncate, BitVec.toNat_and, ones, Nat.and_two_pow_sub_one_eq_mod, ← power,
    Nat.mod_eq_of_lt small]

/-! ## Addition -/

def carryWord (p : U8) : U32 := if flagSet p Psr.C then 1 else 0

theorem toNat_carryWord (p : U8) : (carryWord p).toNat = carryIn p := by
  rw [carryWord, carryIn]
  split <;> rfl

theorem carryWord_le (p : U8) : (carryWord p).toNat ≤ 1 := by
  rw [toNat_carryWord]
  exact carryIn_le p

theorem adc_zero [Bounded T] (a b : T) {p : U8} (clear : flagSet p Psr.D = false)
    (semantics : DecimalSemantics) : Always (adc · a b p semantics) (fun r =>
      r.flagMask = arithMask ∧ flagSet r.flags Psr.Z =
        (widen (truncate (widen a + widen b + carryWord p) : T) == 0)) := by
  have ha := Bounded.widen_lt a
  have hb := Bounded.widen_lt b
  unfold adc
  refine plainSum_always (c := carryWord p) ha hb (carryWord_le p) fun _ => ?_
  simp only [clear, Bool.not_false, Bool.true_or, if_true]
  refine .ok ⟨rfl, ?_⟩
  rw [withArithFlags_Z]

theorem adcLoop_always {a b : U32} {n c : Nat} (count : n = nibbles T) (le : c ≤ 1)
    (ha : ∀ j < n, digit 16 a.toNat j < 10) (hb : ∀ j < n, digit 16 b.toNat j < 10) {word : U32}
    (start : word.toNat = c) :
    Always (fun prof => (List.range n).foldlM (adcDigit T prof a b) ⟨0, 0, word⟩)
      (fun s : Digits => s.value.toNat =
          value 16 (sum 10 (digit 16 a.toNat) (digit 16 b.toNat) c) n ∧
        s.carry.toNat = carry 10 (digit 16 a.toNat) (digit 16 b.toNat) c n) := by
  refine Always.foldlM_range (P := fun k (s : Digits) => s.value.toNat =
      value 16 (sum 10 (digit 16 a.toNat) (digit 16 b.toNat) c) k ∧
    s.carry.toNat = carry 10 (digit 16 a.toNat) (digit 16 b.toNat) c k) ⟨rfl, start⟩ ?_
  intro k lt s ⟨value_eq, carry_eq⟩
  have small : s.carry.toNat ≤ 1 := by
    rw [carry_eq]
    exact carry_le le k
  have mem : k ∈ List.range (nibbles T) := by
    rw [← count]
    exact List.mem_range.2 lt
  refine (adcDigit_always a b small mem).mono fun s' ⟨carry', value'⟩ => ?_
  have next : s'.carry.toNat = carry 10 (digit 16 a.toNat) (digit 16 b.toNat) c (k + 1) := by
    rw [carry', carry_eq]
    rfl
  refine ⟨?_, next⟩
  have decimals : ∀ j < k, sum 10 (digit 16 a.toNat) (digit 16 b.toNat) c j < 16 := by
    intro j less
    have here := (sum_digit le (ha j (Nat.lt_trans less lt)) (hb j (Nat.lt_trans less lt))).1
    omega
  have low := value_lt decimals
  rw [← value_eq] at low
  obtain ⟨digit_lt, digit_eq⟩ := sum_digit le (ha k lt) (hb k lt)
  rw [value' low, next, carry_eq, value_succ, value_eq, ← digit_eq,
    show ∀ m c', m + 10 * c' + 6 * c' = m + c' * 16 by omega, Nat.add_mul_mod_self_right,
    Nat.mod_eq_of_lt (by omega)]

theorem adc_digits [Lawful T] {a b : T} (ha : Bcd a) (hb : Bcd b) {p : U8}
    (decimal : flagSet p Psr.D = true) {semantics : DecimalSemantics} (some : semantics ≠ .none) :
    Always (adc · a b p semantics) (fun r => r.flagMask = arithMask ∧
      (widen r.value).toNat = value 16
        (sum 10 (digit 16 (widen a).toNat) (digit 16 (widen b).toNat) (carryIn p)) (nibbles T) ∧
      (flagSet r.flags Psr.C = true ↔
        carry 10 (digit 16 (widen a).toNat) (digit 16 (widen b).toNat) (carryIn p) (nibbles T) ≠ 0) ∧
      flagSet r.flags Psr.Z = (if semantics = .nmos6502 then
        widen (truncate (widen a + widen b + carryWord p) : T) == 0 else widen r.value == 0) ∧
      (semantics ≠ .nmos6502 → flagSet r.flags Psr.N = (widen r.value &&& sign T != 0))) := by
  have a_lt := Bounded.widen_lt a
  have b_lt := Bounded.widen_lt b
  have le := carryIn_le p
  have da : ∀ j < nibbles T, digit 16 (widen a).toNat j < 10 := fun j lt => Nat.lt_succ_of_le (ha j lt)
  have db : ∀ j < nibbles T, digit 16 (widen b).toNat j < 10 := fun j lt => Nat.lt_succ_of_le (hb j lt)
  unfold adc
  refine plainSum_always (c := carryWord p) a_lt b_lt (carryWord_le p) fun _ => ?_
  have branch : (!flagSet p Psr.D || decide (semantics = .none)) = false := by simp [decimal, some]
  simp only [branch, Bool.false_eq_true, if_false]
  refine (adcLoop_always (T := T) rfl le da db (toNat_carryWord p)).bind fun s ⟨value_eq, carry_eq⟩ => ?_
  have small : s.value.toNat < 16 ^ nibbles T := by
    rw [value_eq]
    refine value_lt fun j lt => ?_
    have here := (sum_digit le (da j lt) (db j lt)).1
    omega
  have value' : (widen (truncate s.value : T)).toNat = _ := (widen_truncate_nat small).trans value_eq
  have carry' : (s.carry != 0) = true ↔ carry 10 (digit 16 (widen a).toNat)
      (digit 16 (widen b).toNat) (carryIn p) (nibbles T) ≠ 0 := by
    rw [← carry_eq, bne_iff_ne, Ne, ← BitVec.toNat_inj]
    rfl
  refine .ite (fun nmos => ?_) fun other => ?_
  · refine .ok ⟨rfl, value', ?_, ?_, fun other => absurd nmos other⟩
    · simp only []
      rw [flagSet_setFlag _ (by decide), flagSet_setFlag _ (by decide), withArithFlags_C]
      exact carry'
    · rw [if_pos nmos, flagSet_setFlag _ (by decide), flagSet_setFlag_Z, Lawful.widen_truncate]
  · refine .ok ⟨rfl, value', ?_, ?_, fun _ => withArithFlags_N _ _ _⟩
    · rw [withArithFlags_C]
      exact carry'
    · rw [if_neg other, withArithFlags_Z]
      rfl

/-! ## Subtraction -/

/-- What the NMOS and 65816 subtraction leaves of the nibbles, corrected without a look at them. -/
def corrected (x y : Nat → Nat) (c j : Nat) : Nat :=
  (x j + 32 - (y j + borrow x y c j + 6 * borrow x y c (j + 1))) % 16

theorem corrected_decimal {x y : Nat → Nat} {c j : Nat} (le : c ≤ 1) (hx : x j < 10) (hy : y j < 10) :
    corrected x y c j = difference 10 x y c j := by
  have bits := borrow_le (x := x) (y := y) le (j + 1)
  obtain ⟨digit_lt, digit_eq⟩ := difference_digit le hx hy
  rw [corrected]
  omega

theorem sbcLoop_always {a b : U32} {n c : Nat} (le : c ≤ 1) (few : n ≤ nibbles T) {word : U32}
    (start : word.toNat = c) :
    Always (fun prof => (List.range n).foldlM (sbcDigit T prof a b) ⟨0, 0, word⟩)
      (fun s : Digits => s.value.toNat =
          value 16 (corrected (digit 16 a.toNat) (digit 16 b.toNat) c) n ∧
        s.carry.toNat = borrow (digit 16 a.toNat) (digit 16 b.toNat) c n) := by
  refine Always.foldlM_range (P := fun k (s : Digits) => s.value.toNat =
      value 16 (corrected (digit 16 a.toNat) (digit 16 b.toNat) c) k ∧
    s.carry.toNat = borrow (digit 16 a.toNat) (digit 16 b.toNat) c k) ⟨rfl, start⟩ ?_
  intro k lt s ⟨value_eq, carry_eq⟩
  have small : s.carry.toNat ≤ 1 := by
    rw [carry_eq]
    exact borrow_le le k
  have mem : k ∈ List.range (nibbles T) := List.mem_range.2 (Nat.lt_of_lt_of_le lt few)
  refine (sbcDigit_always a b small mem).mono fun s' ⟨carry', value'⟩ => ?_
  have next : s'.carry.toNat = borrow (digit 16 a.toNat) (digit 16 b.toNat) c (k + 1) := by
    rw [carry', carry_eq]
    rfl
  refine ⟨?_, next⟩
  have low : s.value.toNat < 16 ^ k := by
    rw [value_eq]
    exact value_lt fun _ _ => Nat.mod_lt _ (by decide)
  rw [value' low, next, carry_eq, value_succ, value_eq]
  rfl

def sixes (x y : Nat → Nat) (c j : Nat) : Nat := 6 * borrow x y c (j + 1)

theorem difference_sixes {x y : Nat → Nat} {c j : Nat} (le : c ≤ 1) (hx : x j < 10) (hy : y j < 10) :
    difference 16 x y c j = difference 10 x y c j + sixes x y c j := by
  obtain ⟨-, ten⟩ := difference_digit le hx hy
  obtain ⟨-, sixteen⟩ := difference_digit (b := 16) le (by omega : x j < 16) (by omega : y j < 16)
  rw [sixes]
  omega

theorem corrected_sixes {x y : Nat → Nat} {c j : Nat} (le : c ≤ 1) (hx : x j < 16) (hy : y j < 16)
    (enough : sixes x y c j ≤ difference 16 x y c j) :
    difference 16 x y c j = corrected x y c j + sixes x y c j := by
  have bits := borrow_le (x := x) (y := y) le (j + 1)
  obtain ⟨digit_lt, digit_eq⟩ := difference_digit le hx hy
  rw [corrected]
  rw [sixes] at *
  omega

theorem prefix_borrows {a b c : Nat} (le : c ≤ 1) (k : Nat) :
    borrow (digit 16 a) (digit 16 b) c (k + 1) =
      if a % 16 ^ (k + 1) < b % 16 ^ (k + 1) + c then 1 else 0 := by
  have small (v : Nat) : ∀ j < k + 1, digit 16 v j < 16 := fun j _ => digit_lt v j
  rw [borrow_eq le (small a) (small b), value_digit, value_digit]

theorem toNat_six {k : Nat} (room : k * 4 + 4 < 32) : ((6 : U32) <<< (k * 4)).toNat = 6 * 16 ^ k := by
  have power : 2 ^ (k * 4) = 16 ^ k := by rw [Nat.mul_comm, Nat.pow_mul]
  have bound : 16 ^ k ≤ 16 ^ 6 := Nat.pow_le_pow_right (by decide) (by omega)
  rw [BitVec.toNat_shiftLeft, Nat.shiftLeft_eq, power]
  exact Nat.mod_eq_of_lt (by simp; omega)

theorem prefixLoop_always {a b word binary : U32} {n : Nat} (few : n ≤ nibbles T)
    (le : word.toNat ≤ 1) (a_lt : a.toNat < 2 ^ 16) (b_lt : b.toNat < 2 ^ 16) :
    Always (fun prof => (List.range n).foldlM (sbcPrefix prof a b word) binary) (fun v =>
      value 16 (sixes (digit 16 a.toNat) (digit 16 b.toNat) word.toNat) n ≤ binary.toNat →
        v.toNat + value 16 (sixes (digit 16 a.toNat) (digit 16 b.toNat) word.toNat) n =
          binary.toNat) := by
  let six := sixes (digit 16 a.toNat) (digit 16 b.toNat) word.toNat
  refine Always.foldlM_range (P := fun k (v : U32) => value 16 six n ≤ binary.toNat →
    v.toNat + value 16 six k = binary.toNat) (fun _ => rfl) ?_
  intro k lt v inv
  have mem : k ∈ List.range (nibbles T) := List.mem_range.2 (Nat.lt_of_lt_of_le lt few)
  have shifted := toNat_six (digit_shift_lt mem)
  refine (sbcPrefix_always (T := T) a_lt b_lt le v mem).mono fun v' eq enough => ?_
  replace inv := inv enough
  have taken : value 16 six (k + 1) ≤ binary.toNat :=
    Nat.le_trans (value_le lt fun _ _ => Nat.le_refl _) enough
  rw [value_succ, show six k = 6 * _ from rfl, prefix_borrows le] at taken ⊢
  split at eq
  · next less =>
      rw [if_pos less] at taken ⊢
      have nat := congrArg BitVec.toNat eq
      rw [BitVec.toNat_add, shifted] at nat
      have bound := v'.isLt
      omega
  · next enough =>
      rw [if_neg enough] at taken ⊢
      rw [BitVec.add_zero] at eq
      rw [eq]
      omega

theorem prefixLoop_corrected {a b word binary : U32} {n c : Nat} (few : n ≤ nibbles T) (le : c ≤ 1)
    (borrowed : word.toNat = c) (a_lt : a.toNat < 2 ^ 16) (b_lt : b.toNat < 2 ^ 16)
    (difference_eq :
      binary.toNat = value 16 (difference 16 (digit 16 a.toNat) (digit 16 b.toNat) c) n) :
    Always (fun prof => (List.range n).foldlM (sbcPrefix prof a b word) binary) (fun v =>
      (∀ j < n, sixes (digit 16 a.toNat) (digit 16 b.toNat) c j ≤
        difference 16 (digit 16 a.toNat) (digit 16 b.toNat) c j) →
      v.toNat = value 16 (corrected (digit 16 a.toNat) (digit 16 b.toNat) c) n) := by
  subst borrowed
  refine (prefixLoop_always few le a_lt b_lt).mono fun v taken fit => ?_
  have split := value_congr (b := 16) fun j lt =>
    corrected_sixes le (digit_lt a.toNat j) (digit_lt b.toNat j) (fit j lt)
  rw [← value_add, ← difference_eq] at split
  replace taken := taken (by omega)
  omega

theorem toNat_complement [Lawful T] (b : T) :
    (widen b ^^^ mask T).toNat = 16 ^ nibbles T - ((widen b).toNat + 1) := by
  have small := Lawful.widen_nibbles b
  have power : 16 ^ nibbles T = 2 ^ (4 * nibbles T) := by rw [Nat.pow_mul]
  have ones : (mask T).toNat = 2 ^ (4 * nibbles T) - 1 := by
    rw [← power, ← Lawful.mask_nibbles (T := T), Nat.add_sub_cancel]
  rw [power] at small ⊢
  rw [BitVec.toNat_xor, ones]
  apply Nat.eq_of_testBit_eq
  intro i
  rw [Nat.testBit_two_pow_sub_succ small, Nat.testBit_xor, Nat.testBit_two_pow_sub_one]
  by_cases lt : i < 4 * nibbles T
  · simp [lt]
  · have high : (widen b).toNat.testBit i = false := by
      refine Nat.testBit_lt_two_pow (Nat.lt_of_lt_of_le small ?_)
      exact Nat.pow_le_pow_right (by decide) (by omega)
    simp [lt, high]

theorem binary_difference [Lawful T] (a b : T) {p : U8} {total : U32}
    (eq : total = widen a + (widen b ^^^ mask T) + carryWord p) :
    (total &&& mask T).toNat = value 16 (difference 16 (digit 16 (widen a).toNat)
        (digit 16 (widen b).toNat) (1 - carryIn p)) (nibbles T) ∧
      (total > mask T ↔
        borrow (digit 16 (widen a).toNat) (digit 16 (widen b).toNat) (1 - carryIn p) (nibbles T) = 0) := by
  have a_lt := Lawful.widen_nibbles a
  have b_lt := Lawful.widen_nibbles b
  have bound := nibbles_pow_le (T := T)
  have ones := Lawful.mask_nibbles (T := T)
  have le := carryIn_le p
  have small (v : Nat) : ∀ j < nibbles T, digit 16 v j < 16 := fun j _ => digit_lt v j
  have c_le : 1 - carryIn p ≤ 1 := Nat.sub_le 1 _
  have digits := value_difference c_le (small (widen a).toNat) (small (widen b).toNat)
  have lt := value_lt (difference_lt c_le (small (widen a).toNat) (small (widen b).toNat))
  have bits := borrow_le (x := digit 16 (widen a).toNat) (y := digit 16 (widen b).toNat) c_le (nibbles T)
  rw [value_digit, value_digit, Nat.mod_eq_of_lt a_lt, Nat.mod_eq_of_lt b_lt] at digits
  have total_nat : total.toNat =
      (widen a).toNat + (16 ^ nibbles T - ((widen b).toNat + 1)) + carryIn p := by
    rw [eq, BitVec.toNat_add, BitVec.toNat_add, toNat_complement, toNat_carryWord]
    omega
  have masked : (total &&& mask T).toNat = total.toNat % 16 ^ nibbles T := by
    have power : 16 ^ nibbles T = 2 ^ (4 * nibbles T) := by rw [Nat.pow_mul]
    rw [BitVec.toNat_and, show (mask T).toNat = 2 ^ (4 * nibbles T) - 1 by omega,
      Nat.and_two_pow_sub_one_eq_mod, power]
  generalize borrow (digit 16 (widen a).toNat) (digit 16 (widen b).toNat) (1 - carryIn p)
    (nibbles T) = out at *
  generalize value 16 (difference 16 (digit 16 (widen a).toNat) (digit 16 (widen b).toNat)
    (1 - carryIn p)) (nibbles T) = d at *
  have greater : total > mask T ↔ (mask T).toNat < total.toNat := Iff.rfl
  rw [masked, greater]
  rcases Nat.le_one_iff_eq_zero_or_eq_one.1 bits with rfl | rfl
  · rw [Nat.zero_mul] at digits
    rw [show total.toNat = d + 16 ^ nibbles T by omega, Nat.add_mod_right, Nat.mod_eq_of_lt lt]
    omega
  · rw [Nat.one_mul] at digits
    rw [show total.toNat = d by omega, Nat.mod_eq_of_lt lt]
    omega

theorem sbc_difference [Lawful T] (a b : T) {p : U8} {semantics : DecimalSemantics}
    (binary : IsBinary p semantics) : Always (sbc · a b p semantics) (fun r =>
      r.flagMask = arithMask ∧
      (widen r.value).toNat = value 16 (difference 16 (digit 16 (widen a).toNat)
        (digit 16 (widen b).toNat) (1 - carryIn p)) (nibbles T) ∧
      (flagSet r.flags Psr.C = true ↔
        borrow (digit 16 (widen a).toNat) (digit 16 (widen b).toNat) (1 - carryIn p) (nibbles T) = 0) ∧
      flagSet r.flags Psr.Z = (widen (truncate
        (widen a + (widen b ^^^ mask T) + carryWord p &&& mask T) : T) == 0)) := by
  have a_lt := Bounded.widen_lt a
  unfold sbc
  refine plainSum_always (c := carryWord p) a_lt (complement_lt b) (carryWord_le p) fun _ => ?_
  obtain ⟨difference_eq, carry_iff⟩ := binary_difference a b rfl
  refine .ite (fun _ => .ok ⟨rfl, ?_, ?_, ?_⟩) fun other => absurd binary.branch other
  · rw [← difference_eq]
    refine widen_truncate_nat ?_
    rw [difference_eq]
    exact value_lt (difference_lt (Nat.sub_le 1 _) (fun j _ => digit_lt _ j) fun j _ => digit_lt _ j)
  · rw [withArithFlags_C, decide_eq_true_eq]
    exact carry_iff
  · rw [withArithFlags_Z]

def SixesFit (a b : T) (p : U8) : Prop := ∀ j < nibbles T,
  sixes (digit 16 (widen a).toNat) (digit 16 (widen b).toNat) (1 - carryIn p) j ≤
    difference 16 (digit 16 (widen a).toNat) (digit 16 (widen b).toNat) (1 - carryIn p) j

theorem sbc_corrected [Lawful T] (a b : T) {p : U8} (decimal : flagSet p Psr.D = true)
    {semantics : DecimalSemantics} (some : semantics ≠ .none) :
    Always (sbc · a b p semantics) (fun r => r.flagMask = arithMask ∧
      ((semantics = .cmos65C02 → SixesFit a b p) → (widen r.value).toNat = value 16 (corrected
        (digit 16 (widen a).toNat) (digit 16 (widen b).toNat) (1 - carryIn p)) (nibbles T)) ∧
      (flagSet r.flags Psr.C = true ↔
        borrow (digit 16 (widen a).toNat) (digit 16 (widen b).toNat) (1 - carryIn p) (nibbles T) = 0) ∧
      flagSet r.flags Psr.Z = (if semantics = .nmos6502 then widen (truncate
        (widen a + (widen b ^^^ mask T) + carryWord p &&& mask T) : T) == 0 else widen r.value == 0) ∧
      (semantics ≠ .nmos6502 → flagSet r.flags Psr.N = (widen r.value &&& sign T != 0))) := by
  have a_lt := Bounded.widen_lt a
  have b_lt := Bounded.widen_lt b
  have c_le : 1 - carryIn p ≤ 1 := Nat.sub_le 1 _
  have borrowed : (if flagSet p Psr.C then 0 else 1 : U32).toNat = 1 - carryIn p := by
    rw [carryIn]
    split <;> rfl
  have fits {v : U32} (eq : v.toNat = value 16 (corrected (digit 16 (widen a).toNat)
      (digit 16 (widen b).toNat) (1 - carryIn p)) (nibbles T)) :
      (widen (truncate v : T)).toNat = v.toNat := by
    refine widen_truncate_nat ?_
    rw [eq]
    exact value_lt fun _ _ => Nat.mod_lt _ (by decide)
  unfold sbc
  refine plainSum_always (c := carryWord p) a_lt (complement_lt b) (carryWord_le p) fun _ => ?_
  obtain ⟨difference_eq, carry_iff⟩ := binary_difference a b rfl
  have branch : (!flagSet p Psr.D || decide (semantics = .none)) = false := by simp [decimal, some]
  simp only [branch, Bool.false_eq_true, if_false]
  refine .ite (fun cmos => ?_) fun other => ?_
  · have nmos : semantics ≠ .nmos6502 := by
      rw [cmos]
      decide
    refine (prefixLoop_corrected (T := T) (Nat.le_refl _) c_le borrowed a_lt b_lt difference_eq).bind
      fun v value_eq => ?_
    refine .ok ⟨rfl, fun fit => (fits (value_eq (fit cmos))).trans (value_eq (fit cmos)), ?_, ?_,
      fun _ => withArithFlags_N _ _ _⟩
    · rw [withArithFlags_C, decide_eq_true_eq]
      exact carry_iff
    · rw [if_neg nmos, withArithFlags_Z]
      rfl
  · refine (sbcLoop_always (T := T) c_le (Nat.le_refl _) borrowed).bind
      fun s ⟨value_eq, carry_eq⟩ => ?_
    refine .ite (fun nmos => ?_) fun nmos => ?_
    · refine .ok ⟨rfl, fun _ => (fits value_eq).trans value_eq, ?_, ?_, fun other => absurd nmos other⟩
      · simp only [withArithFlags_C, decide_eq_true_eq]
        exact carry_iff
      · rw [if_pos nmos]
        simp only [withArithFlags_Z]
    · refine .ok ⟨rfl, fun _ => (fits value_eq).trans value_eq, ?_, ?_,
        fun _ => withArithFlags_N _ _ _⟩
      · rw [withArithFlags_C, beq_iff_eq, ← carry_eq, ← BitVec.toNat_inj]
        rfl
      · rw [if_neg nmos, withArithFlags_Z]
        rfl

theorem sbc_digits [Lawful T] {a b : T} (ha : Bcd a) (hb : Bcd b) {p : U8}
    (decimal : flagSet p Psr.D = true) {semantics : DecimalSemantics} (some : semantics ≠ .none) :
    Always (sbc · a b p semantics) (fun r => r.flagMask = arithMask ∧
      (widen r.value).toNat = value 16 (difference 10 (digit 16 (widen a).toNat)
        (digit 16 (widen b).toNat) (1 - carryIn p)) (nibbles T) ∧
      (flagSet r.flags Psr.C = true ↔
        borrow (digit 16 (widen a).toNat) (digit 16 (widen b).toNat) (1 - carryIn p) (nibbles T) = 0) ∧
      flagSet r.flags Psr.Z = (if semantics = .nmos6502 then widen (truncate
        (widen a + (widen b ^^^ mask T) + carryWord p &&& mask T) : T) == 0 else widen r.value == 0) ∧
      (semantics ≠ .nmos6502 → flagSet r.flags Psr.N = (widen r.value &&& sign T != 0))) := by
  have c_le : 1 - carryIn p ≤ 1 := Nat.sub_le 1 _
  have da : ∀ j < nibbles T, digit 16 (widen a).toNat j < 10 := fun j lt => Nat.lt_succ_of_le (ha j lt)
  have db : ∀ j < nibbles T, digit 16 (widen b).toNat j < 10 := fun j lt => Nat.lt_succ_of_le (hb j lt)
  have decimals := value_congr (b := 16) fun j lt => corrected_decimal c_le (da j lt) (db j lt)
  rw [← decimals]
  refine (sbc_corrected a b decimal some).mono fun r spec => ⟨spec.1, spec.2.1 ?_, spec.2.2⟩
  intro _ j lt
  rw [difference_sixes c_le (da j lt) (db j lt)]
  exact Nat.le_add_left _ _

end Alu

end Rs65x
