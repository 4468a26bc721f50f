import Rs65x.Alu
import Rs65x.Lib.Positional
import Rs65x.Lib.Machine

/-!
# No plain operation of the ALU overflows

The ALU widens its operands to 32 bits, so its plain additions, subtractions and shifts return in
both build profiles, with the same results.
-/

namespace Rs65x
open Fallible Positional

section Plain
variable {w : Nat}

theorem plainAdd_always {a b : BitVec w} (h : a.toNat + b.toNat < 2 ^ w) :
    Always (plainAdd · a b) (· = a + b) :=
  ⟨_, rfl, fun _ => if_neg fun large => by omega⟩

theorem plainSub_always {a b : BitVec w} (h : b.toNat ≤ a.toNat) :
    Always (plainSub · a b) (· = a - b) :=
  ⟨_, rfl, fun _ => if_neg fun large => by omega⟩

theorem plainShl_always (a : BitVec w) {n : Nat} (h : n < w) :
    Always (plainShl · a n) (· = a <<< n) :=
  ⟨_, rfl, fun prof => by
    simp only [plainShl, Nat.mod_eq_of_lt h, if_neg (show ¬ (prof = .debug ∧ w ≤ n) by omega)]⟩

theorem plainSubSigned_always {a b : U32} (lower : -2 ^ 31 ≤ a.toInt - b.toInt)
    (upper : a.toInt - b.toInt < 2 ^ 31) :
    Always (plainSubSigned · a b) (fun d => d = a - b ∧ d.toInt = a.toInt - b.toInt) := by
  have exact : (a - b).toInt = a.toInt - b.toInt := by
    rw [BitVec.toInt_sub]
    exact Int.bmod_eq_of_le (by omega) (by omega)
  exact ⟨_, ⟨rfl, exact⟩, fun _ => if_neg fun large => large.2 exact⟩

theorem plainSum_always {A : Type} {a b c : U32} {f : Profile → U32 → Except Fault A} {P : A → Prop}
    (ha : a.toNat < 2 ^ 16) (hb : b.toNat < 2 ^ 16) (hc : c.toNat ≤ 1)
    (next : (a + b + c).toNat = a.toNat + b.toNat + c.toNat → Always (f · (a + b + c)) P) :
    Always (fun prof => plainAdd prof a b >>= fun sum => plainAdd prof sum c >>= f prof) P := by
  have sum_nat : (a + b).toNat = a.toNat + b.toNat := by
    rw [BitVec.toNat_add]
    omega
  have total_nat : (a + b + c).toNat = a.toNat + b.toNat + c.toNat := by
    rw [BitVec.toNat_add, sum_nat]
    omega
  refine (plainAdd_always (by omega)).bind fun sum sum_eq => ?_
  subst sum_eq
  refine (plainAdd_always (by omega)).bind fun total total_eq => ?_
  subst total_eq
  exact next total_nat

end Plain

namespace Alu
open AluWord

class Bounded (T : Type) [AluWord T] : Prop where
  widen_lt : ∀ v : T, (widen v).toNat < 2 ^ 16
  mask_lt : (mask T).toNat < 2 ^ 16

instance : Bounded U8 where
  widen_lt v := by
    have := v.isLt
    simp only [widen, BitVec.toNat_setWidth]
    omega
  mask_lt := by decide

instance : Bounded U16 where
  widen_lt v := by
    have := v.isLt
    simp only [widen, BitVec.toNat_setWidth]
    omega
  mask_lt := by decide

theorem complement_lt {T : Type} [AluWord T] [Bounded T] (v : T) :
    (widen v ^^^ mask T).toNat < 2 ^ 16 := by
  rw [BitVec.toNat_xor]
  exact Nat.xor_lt_two_pow (Bounded.widen_lt v) Bounded.mask_lt

theorem toNat_digit (v : U32) (k : Nat) : ((v >>> (k * 4)) &&& 0xf).toNat = digit 16 v.toNat k := by
  rw [BitVec.toNat_and, BitVec.toNat_ushiftRight, Nat.shiftRight_eq_div_pow, Nat.mul_comm,
    Nat.pow_mul, digit]
  exact Nat.and_two_pow_sub_one_eq_mod _ 4

theorem digit_lt (v : Nat) (k : Nat) : digit 16 v k < 16 := Nat.mod_lt _ (by decide)

theorem toNat_or_shift (value nibble : U32) {k : Nat} (room : k * 4 + 4 < 32)
    (low : value.toNat < 16 ^ k) :
    (value ||| ((nibble &&& 0xf) <<< (k * 4))).toNat = value.toNat + nibble.toNat % 16 * 16 ^ k := by
  have power : 2 ^ (k * 4) = 16 ^ k := by rw [Nat.mul_comm, Nat.pow_mul]
  have masked : (nibble &&& 0xf).toNat = nibble.toNat % 16 := by
    rw [BitVec.toNat_and]
    exact Nat.and_two_pow_sub_one_eq_mod _ 4
  have small : nibble.toNat % 16 * 2 ^ (k * 4) < 2 ^ 32 := by
    calc nibble.toNat % 16 * 2 ^ (k * 4) < 2 ^ 4 * 2 ^ (k * 4) :=
          Nat.mul_lt_mul_of_pos_right (Nat.mod_lt _ (by decide)) (Nat.two_pow_pos _)
      _ = 2 ^ (4 + k * 4) := (Nat.pow_add ..).symm
      _ ≤ 2 ^ 32 := Nat.pow_le_pow_right (by decide) (by omega)
  rw [BitVec.toNat_or, BitVec.toNat_shiftLeft, masked, Nat.shiftLeft_eq, Nat.mod_eq_of_lt small,
    Nat.or_comm, Nat.mul_comm, ← Nat.two_pow_add_eq_or_of_lt (by rw [power]; exact low), power,
    Nat.mul_comm, Nat.add_comm]

theorem toInt_of_small {v : U32} (h : v.toNat < 2 ^ 31) : v.toInt = v.toNat := by
  rw [BitVec.toInt_eq_toNat_of_lt]
  omega

variable {T : Type} [AluWord T]

theorem nibbles_le : nibbles T ≤ 4 := by
  unfold nibbles
  split <;> omega

theorem digit_shift_lt {digit : Nat} (mem : digit ∈ List.range (nibbles T)) : digit * 4 + 4 < 32 := by
  have := List.mem_range.1 mem
  have := nibbles_le (T := T)
  omega

theorem preHigh_always (s : Digits) (nibble : U32) {digit : Nat}
    (mem : digit ∈ List.range (nibbles T)) :
    Always (preHigh T · s nibble digit) (fun _ => True) :=
  .ite (fun _ => (plainShl_always nibble (by
    have := digit_shift_lt mem
    omega)).bind fun _ _ => .ok trivial) fun _ => .ok trivial

theorem adcDigit_always (a b : U32) {s : Digits} (bit : s.carry.toNat ≤ 1) {k : Nat}
    (mem : k ∈ List.range (nibbles T)) :
    Always (adcDigit T · a b s k) (fun s' =>
      s'.carry.toNat = (if 10 ≤ digit 16 a.toNat k + digit 16 b.toNat k + s.carry.toNat then 1 else 0) ∧
      (s.value.toNat < 16 ^ k → s'.value.toNat = s.value.toNat +
        (digit 16 a.toNat k + digit 16 b.toNat k + s.carry.toNat + 6 * s'.carry.toNat) % 16 * 16 ^ k)) := by
  have ha := toNat_digit a k
  have hb := toNat_digit b k
  have a_lt := digit_lt a.toNat k
  have b_lt := digit_lt b.toNat k
  have shift := digit_shift_lt mem
  unfold adcDigit
  refine (plainAdd_always (by omega)).bind fun sum sum_eq => ?_
  have sum_nat : sum.toNat = digit 16 a.toNat k + digit 16 b.toNat k := by
    rw [sum_eq, BitVec.toNat_add]
    omega
  refine (plainAdd_always (by omega)).bind fun nibble nibble_eq => ?_
  have nibble_nat : nibble.toNat = digit 16 a.toNat k + digit 16 b.toNat k + s.carry.toNat := by
    rw [nibble_eq, BitVec.toNat_add]
    omega
  rw [← nibble_nat]
  refine (preHigh_always s nibble mem).bind fun _ _ => ?_
  by_cases large : nibble > 9
  · have ten : 10 ≤ nibble.toNat := large
    simp only [if_pos large, if_pos ten]
    refine (plainAdd_always (by simp; omega)).bind fun fixed fixed_eq => ?_
    refine (plainShl_always _ (by omega)).bind fun _ eq => .ok ⟨rfl, fun low => ?_⟩
    have six : fixed.toNat = nibble.toNat + 6 * 1 := by
      rw [fixed_eq, BitVec.toNat_add]
      simp
      omega
    subst eq
    rw [toNat_or_shift _ _ shift low, six]
    rfl
  · have ten : ¬ 10 ≤ nibble.toNat := large
    simp only [if_neg large, if_neg ten]
    refine (plainShl_always _ (by omega)).bind fun _ eq => .ok ⟨rfl, fun low => ?_⟩
    subst eq
    exact toNat_or_shift _ _ shift low

def arithMask : U8 := Psr.Z ||| Psr.N ||| Psr.C ||| Psr.V

theorem adc_always [Bounded T] (acc operand : T) (p : U8) (semantics : DecimalSemantics) :
    Always (adc · acc operand p semantics) (fun r => r.flagMask = arithMask) := by
  have ha := Bounded.widen_lt acc
  have hb := Bounded.widen_lt operand
  have carry : (if flagSet p Psr.C then 1 else 0 : U32).toNat ≤ 1 := by split <;> decide
  unfold adc
  refine plainSum_always ha hb carry fun _ => .ite (fun _ => .ok rfl) fun _ => ?_
  refine Always.bind (Always.foldlM (P := fun s => s.carry.toNat ≤ 1) carry ?_) fun _ _ =>
    .ite (fun _ => .ok rfl) fun _ => .ok rfl
  intro s k mem small
  refine (adcDigit_always _ _ small mem).mono fun _ ⟨carry, _⟩ => ?_
  rw [carry]
  split <;> omega

theorem toNat_prefix {v mask : U32} {k : Nat} (room : k * 4 + 4 < 32)
    (eq : mask = (1 : U32) <<< (k * 4 + 4) - 1) : (v &&& mask).toNat = v.toNat % 16 ^ (k + 1) := by
  have power : 2 ^ (k * 4 + 4) = 16 ^ (k + 1) := by
    rw [show k * 4 + 4 = 4 * (k + 1) by ring, Nat.pow_mul]
  have shifted : ((1 : U32) <<< (k * 4 + 4)).toNat = 16 ^ (k + 1) := by
    rw [BitVec.toNat_shiftLeft, Nat.shiftLeft_eq, ← power, Nat.mod_eq_of_lt]
    · exact Nat.one_mul _
    · simpa using Nat.pow_lt_pow_right (by decide) room
  have pos : 1 ≤ 16 ^ (k + 1) := Nat.pow_pos (by decide)
  have ones : mask.toNat = 2 ^ (k * 4 + 4) - 1 := by
    rw [eq, BitVec.toNat_sub_of_le (BitVec.le_def.2 (by rw [shifted]; exact pos)), shifted, power]
    rfl
  rw [BitVec.toNat_and, ones, Nat.and_two_pow_sub_one_eq_mod, power]

theorem sbcPrefix_always {a b borrowIn : U32} (ha : a.toNat < 2 ^ 16) (hb : b.toNat < 2 ^ 16)
    (bit : borrowIn.toNat ≤ 1) (value : U32) {k : Nat} (mem : k ∈ List.range (nibbles T)) :
    Always (sbcPrefix · a b borrowIn value k) (fun value' => value' +
      (if a.toNat % 16 ^ (k + 1) < b.toNat % 16 ^ (k + 1) + borrowIn.toNat then (6 : U32) <<< (k * 4)
        else 0#32) = value) := by
  have shift := digit_shift_lt mem
  unfold sbcPrefix
  refine (plainShl_always 1 (by omega)).bind fun power power_eq => ?_
  have power_pos : 1 ≤ power.toNat := by
    rw [power_eq, BitVec.toNat_shiftLeft, Nat.shiftLeft_eq, Nat.mod_eq_of_lt]
    · exact Nat.mul_pos (by decide) (Nat.two_pow_pos _)
    · simpa using Nat.pow_lt_pow_right (by decide) shift
  refine (plainSub_always (a := power) (b := 1) power_pos).bind fun prefixMask mask_eq => ?_
  rw [power_eq] at mask_eq
  have a_nat := toNat_prefix (v := a) shift mask_eq
  have b_nat := toNat_prefix (v := b) shift mask_eq
  have a_le := Nat.mod_le a.toNat (16 ^ (k + 1))
  have b_le := Nat.mod_le b.toNat (16 ^ (k + 1))
  have a_int := toInt_of_small (v := a &&& prefixMask) (by omega)
  have b_int := toInt_of_small (v := b &&& prefixMask) (by omega)
  refine (plainSubSigned_always (by omega) (by omega)).bind fun d ⟨_, d_int⟩ => ?_
  have borrow_int : borrowIn.toInt = borrowIn.toNat := toInt_of_small (by omega)
  refine (plainSubSigned_always (by omega) (by omega)).bind fun difference ⟨_, difference_int⟩ => ?_
  have negative : difference.slt 0 = true ↔
      a.toNat % 16 ^ (k + 1) < b.toNat % 16 ^ (k + 1) + borrowIn.toNat := by
    rw [BitVec.slt_iff_toInt_lt, difference_int, d_int, a_int, b_int, borrow_int, a_nat, b_nat]
    change _ < (0 : Int) ↔ _
    omega
  refine .ite (fun less => ?_) fun enough => ?_
  · rw [if_pos (negative.1 less)]
    refine (plainShl_always 6 (by omega)).bind fun six eq => .ok ?_
    rw [eq]
    exact BitVec.sub_add_cancel _ _
  · rw [if_neg (mt negative.2 enough)]
    exact .ok (BitVec.add_zero _)

theorem sbcDigit_always (a b : U32) {s : Digits} (bit : s.carry.toNat ≤ 1) {k : Nat}
    (mem : k ∈ List.range (nibbles T)) :
    Always (sbcDigit T · a b s k) (fun s' =>
      s'.carry.toNat = (if digit 16 a.toNat k < digit 16 b.toNat k + s.carry.toNat then 1 else 0) ∧
      (s.value.toNat < 16 ^ k → s'.value.toNat = s.value.toNat +
        (digit 16 a.toNat k + 32 - (digit 16 b.toNat k + s.carry.toNat + 6 * s'.carry.toNat)) % 16 *
          16 ^ k)) := by
  have ha := toNat_digit a k
  have hb := toNat_digit b k
  have a_lt := digit_lt a.toNat k
  have b_lt := digit_lt b.toNat k
  have shift := digit_shift_lt mem
  have a_int := toInt_of_small (v := (a >>> (k * 4)) &&& 0xf) (by omega)
  have b_int := toInt_of_small (v := (b >>> (k * 4)) &&& 0xf) (by omega)
  have borrow_int : s.carry.toInt = s.carry.toNat := toInt_of_small (by omega)
  have six : (6 : U32).toInt = 6 := by decide
  unfold sbcDigit
  refine (plainSubSigned_always (by omega) (by omega)).bind fun d ⟨d_eq, d_int⟩ => ?_
  refine (plainSubSigned_always (by omega) (by omega)).bind fun nibble ⟨nibble_eq, nibble_int⟩ => ?_
  have negative : nibble.slt 0 = true ↔
      digit 16 a.toNat k < digit 16 b.toNat k + s.carry.toNat := by
    rw [BitVec.slt_iff_toInt_lt, nibble_int, d_int, a_int, b_int, borrow_int, ha, hb]
    change _ < (0 : Int) ↔ _
    omega
  have nibble_nat : nibble.toNat =
      (digit 16 a.toNat k + 2 ^ 32 - (digit 16 b.toNat k + s.carry.toNat)) % 2 ^ 32 := by
    rw [nibble_eq, d_eq, BitVec.toNat_sub, BitVec.toNat_sub, ha, hb]
    omega
  refine (preHigh_always s nibble mem).bind fun _ _ => ?_
  by_cases less : nibble.slt 0 = true
  · have less' := negative.1 less
    simp only [if_pos less, if_pos less']
    refine (plainSubSigned_always (by omega) (by omega)).bind fun fixed ⟨fixed_eq, _⟩ => ?_
    refine (plainShl_always _ (by omega)).bind fun _ eq => .ok ⟨rfl, fun low => ?_⟩
    have fixed_nat : fixed.toNat % 16 =
        (digit 16 a.toNat k + 32 - (digit 16 b.toNat k + s.carry.toNat + 6 * 1)) % 16 := by
      rw [fixed_eq, BitVec.toNat_sub, nibble_nat]
      simp
      omega
    subst eq
    rw [toNat_or_shift _ _ shift low, fixed_nat]
    rfl
  · have enough := mt negative.2 less
    simp only [if_neg less, if_neg enough]
    refine (plainShl_always _ (by omega)).bind fun _ eq => .ok ⟨rfl, fun low => ?_⟩
    have nibble_mod : nibble.toNat % 16 =
        (digit 16 a.toNat k + 32 - (digit 16 b.toNat k + s.carry.toNat + 6 * 0)) % 16 := by
      rw [nibble_nat]
      omega
    subst eq
    rw [toNat_or_shift _ _ shift low, nibble_mod]
    rfl

theorem sbc_always [Bounded T] (acc operand : T) (p : U8) (semantics : DecimalSemantics) :
    Always (sbc · acc operand p semantics) (fun r => r.flagMask = arithMask) := by
  have ha := Bounded.widen_lt acc
  have hb := Bounded.widen_lt operand
  have carry : (if flagSet p Psr.C then 1 else 0 : U32).toNat ≤ 1 := by split <;> decide
  have borrow : (if flagSet p Psr.C then 0 else 1 : U32).toNat ≤ 1 := by split <;> decide
  unfold sbc
  refine plainSum_always ha (complement_lt operand) carry fun _ => .ite (fun _ => .ok rfl) fun _ => ?_
  refine .ite (fun _ => ?_) fun _ => ?_
  · exact Always.bind (Always.foldlM (P := fun _ => True) trivial
      fun value k mem _ => (sbcPrefix_always ha hb borrow value mem).mono fun _ _ => trivial)
      fun _ _ => .ok rfl
  · refine Always.bind (Always.foldlM (P := fun s => s.carry.toNat ≤ 1) borrow ?_) fun _ _ =>
      .ite (fun _ => .ok rfl) fun _ => .ok rfl
    intro s k mem small
    refine (sbcDigit_always _ _ small mem).mono fun _ ⟨carry, _⟩ => ?_
    rw [carry]
    split <;> omega

theorem inc_always [Bounded T] (value : T) :
    Always (inc · value) (fun r => r.flagMask = Psr.Z ||| Psr.N) :=
  (plainAdd_always (by
    have := Bounded.widen_lt value
    simp
    omega)).bind fun _ _ => .ok rfl

end Alu
end Rs65x
