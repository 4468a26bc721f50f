import Rs65x.Results.Binary

/-!
# Decimal borrows

The prefixes that the 65C02 compares and the digits that the other cores correct in turn borrow
together, decimal or not.
-/

namespace Rs65x
open Fallible Positional

namespace Alu
open AluWord

def borrowIn (p : U8) : U32 := if flagSet p Psr.C then 0 else 1

section
variable {w : Nat} [AluWord (BitVec w)]

/-- The prefix loop takes six off at the digits of `borrows`, and the digit loop borrows there. -/
structure BorrowsAt (prof : Profile) (a b : BitVec w) (p : U8) (borrows : Nat → Bool) : Prop where
  prefixes : ∀ k < nibbles (BitVec w), ∀ v,
    sbcPrefix prof (widen a) (widen b) (borrowIn p) v k =
      .ok (if borrows k then v - (6 : U32) <<< (k * 4) else v)
  digits : ∀ k < nibbles (BitVec w), ∃ s, (List.range (k + 1)).foldlM
      (sbcDigit (BitVec w) prof (widen a) (widen b)) ⟨0, 0, borrowIn p⟩ = .ok s ∧
    s.carry = if borrows k then 1 else 0

variable (w) in
/-- With D set the loops borrow at the same digits, so that C is that of the binary subtraction and
the value is the same wherever the digits that borrowed leave six to take off. -/
def DecimalBorrows : Prop := ∀ prof (a b : BitVec w) (p : U8), flagSet p Psr.D = true →
  ∃ borrows r, BorrowsAt prof a b p borrows ∧ sbc prof a b p .none = .ok r ∧
    (∀ semantics, ∃ r', sbc prof a b p semantics = .ok r' ∧
      flagSet (r'.apply p).2 Psr.C = flagSet (r.apply p).2 Psr.C) ∧
    ((∀ k < nibbles (BitVec w), borrows k = true → 6 ≤ digit 16 r.value.toNat k) →
      ∃ value, ∀ semantics ≠ .none, ∃ r', sbc prof a b p semantics = .ok r' ∧ r'.value = value)

end

theorem toNat_borrowIn (p : U8) : (borrowIn p).toNat = 1 - carryIn p := by
  rw [borrowIn, carryIn]
  split <;> rfl

variable {w : Nat} [AluWord (BitVec w)] [Word w]

theorem borrows_at (prof : Profile) (a b : BitVec w) (p : U8) : BorrowsAt prof a b p fun k =>
    borrow (digit 16 (widen a).toNat) (digit 16 (widen b).toNat) (1 - carryIn p) (k + 1) = 1 := by
  have a_lt := Bounded.widen_lt a
  have b_lt := Bounded.widen_lt b
  have c_le : 1 - carryIn p ≤ 1 := Nat.sub_le 1 _
  have start := toNat_borrowIn p
  constructor
  · intro k lt v
    have mem : k ∈ List.range (nibbles (BitVec w)) := List.mem_range.2 lt
    obtain ⟨v', eq, run⟩ := sbcPrefix_always (T := BitVec w) a_lt b_lt (start ▸ c_le) v mem
    refine (run prof).trans (congrArg Except.ok ?_)
    rw [start] at eq
    simp only [decide_eq_true_eq, prefix_borrows c_le]
    split at eq
    · next less => rw [if_pos less, if_pos rfl, ← eq, BitVec.add_sub_cancel]
    · next enough => rw [if_neg enough, if_neg Nat.zero_ne_one, ← eq, BitVec.add_zero]
  · intro k lt
    obtain ⟨s, ⟨-, carry⟩, run⟩ := sbcLoop_always (T := BitVec w) (a := widen a) (b := widen b)
      c_le (Nat.succ_le_of_lt lt) start
    refine ⟨s, run prof, BitVec.eq_of_toNat_eq ?_⟩
    have bit := borrow_le (x := digit 16 (widen a).toNat) (y := digit 16 (widen b).toNat) c_le (k + 1)
    simp only [decide_eq_true_eq]
    rw [carry]
    split
    · next borrowed => exact borrowed
    · next kept => exact Nat.lt_one_iff.1 (Nat.lt_of_le_of_ne bit kept)

theorem sixesFit {T : Type} [AluWord T] {a b : T} {p : U8} {value : Nat}
    (eq : value = Positional.value 16 (difference 16 (digit 16 (widen a).toNat)
      (digit 16 (widen b).toNat) (1 - carryIn p)) (nibbles T))
    (enough : ∀ k < nibbles T, borrow (digit 16 (widen a).toNat) (digit 16 (widen b).toNat)
      (1 - carryIn p) (k + 1) = 1 → 6 ≤ digit 16 value k) : SixesFit a b p := by
  intro k lt
  have c_le : 1 - carryIn p ≤ 1 := Nat.sub_le 1 _
  have digits := difference_lt (b := 16) (n := nibbles T) c_le
    (fun j _ => digit_lt (widen a).toNat j) (fun j _ => digit_lt (widen b).toNat j)
  have same := digit_value digits 0 lt
  rw [Nat.zero_mul, Nat.add_zero, ← eq] at same
  have here := enough k lt
  have bit := borrow_le (x := digit 16 (widen a).toNat) (y := digit 16 (widen b).toNat) c_le (k + 1)
  rw [sixes, ← same]
  rcases Nat.le_one_iff_eq_zero_or_eq_one.1 bit with none | some
  · omega
  · have six := here some
    omega

theorem decimalBorrows : DecimalBorrows w := by
  intro prof a b p decimal
  obtain ⟨r, ⟨mask, difference_eq, carry, -⟩, run⟩ := sbc_difference a b (p := p) (.inr rfl)
  refine ⟨_, r, borrows_at prof a b p, run prof, ?_, ?_⟩
  · intro semantics
    by_cases binary : semantics = .none
    · subst binary
      exact ⟨r, run prof, rfl⟩
    · obtain ⟨r', ⟨mask', -, carry', -⟩, run'⟩ := sbc_corrected a b decimal binary
      refine ⟨r', run' prof, Bool.eq_iff_iff.2 ?_⟩
      rw [(flagSet_arith r' p mask').1, (flagSet_arith r p mask).1]
      exact carry'.trans carry.symm
  · intro enough
    simp only [decide_eq_true_eq] at enough
    rw [toNat_widen] at difference_eq
    have fit := sixesFit difference_eq enough
    refine ⟨BitVec.ofNat w (value 16 (corrected (digit 16 (widen a).toNat) (digit 16 (widen b).toNat)
      (1 - carryIn p)) (nibbles (BitVec w))), fun semantics some => ?_⟩
    obtain ⟨r', ⟨-, value_eq, -⟩, run'⟩ := sbc_corrected a b decimal some
    refine ⟨r', run' prof, ?_⟩
    rw [← value_eq fun _ => fit, toNat_widen, BitVec.ofNat_toNat, BitVec.setWidth_eq]

/-- Two and four digits at a time, the decimal subtractions borrow at the same digits. -/
theorem decimal_borrows : DecimalBorrows 8 ∧ DecimalBorrows 16 := ⟨decimalBorrows, decimalBorrows⟩

end Alu

end Rs65x
