import Mathlib.Algebra.Order.BigOperators.Group.Finset
import Mathlib.Data.Nat.Digits.Defs
import Mathlib.Data.Nat.ModEq
import Mathlib.Tactic.Ring

/-!
# Positional numbers

A number is read off its digits in some base. The carries of an addition depend on the base, the
borrows of a subtraction on the digits alone.
-/

namespace Positional

/-- The number that the `n` lowest digits make. -/
def value (b : Nat) (d : Nat → Nat) (n : Nat) : Nat := ∑ j ∈ Finset.range n, d j * b ^ j

def digit (b x j : Nat) : Nat := x / b ^ j % b

/-- The `n` lowest digits of a number, read in another base. -/
def recode (b b' n x : Nat) : Nat := value b' (digit b x) n

variable {b n : Nat} {d d' : Nat → Nat}

@[simp] theorem value_zero : value b d 0 = 0 := rfl

theorem value_succ : value b d (n + 1) = value b d n + d n * b ^ n :=
  Finset.sum_range_succ (fun j => d j * b ^ j) n

theorem value_congr (same : ∀ j < n, d j = d' j) : value b d n = value b d' n :=
  Finset.sum_congr rfl fun j mem => by rw [same j (Finset.mem_range.1 mem)]

theorem value_add (b : Nat) (d d' : Nat → Nat) (n : Nat) :
    value b d n + value b d' n = value b (fun j => d j + d' j) n := by
  simp only [value, Nat.add_mul, Finset.sum_add_distrib]

theorem value_le {k : Nat} (le : k ≤ n) (below : ∀ j < n, d j ≤ d' j) : value b d k ≤ value b d' n := by
  induction le with
  | refl =>
      exact Finset.sum_le_sum fun j mem => Nat.mul_le_mul_right _ (below j (Finset.mem_range.1 mem))
  | @step n _ ih =>
      rw [value_succ]
      exact Nat.le_add_right_of_le (ih fun j lt => below j (Nat.lt_succ_of_lt lt))

theorem value_lt (small : ∀ j < n, d j < b) : value b d n < b ^ n := by
  induction n with
  | zero => exact Nat.zero_lt_one
  | succ n ih =>
      have low := ih fun j lt => small j (Nat.lt_succ_of_lt lt)
      have top : d n + 1 ≤ b := small n (Nat.lt_succ_self n)
      calc value b d (n + 1) = value b d n + d n * b ^ n := value_succ
        _ < b ^ n + d n * b ^ n := Nat.add_lt_add_right low _
        _ = (d n + 1) * b ^ n := by ring
        _ ≤ b * b ^ n := Nat.mul_le_mul_right _ top
        _ = b ^ (n + 1) := by rw [Nat.pow_succ, Nat.mul_comm]

theorem digit_value (small : ∀ j < n, d j < b) (high : Nat) {j : Nat} (lt : j < n) :
    digit b (value b d n + high * b ^ n) j = d j := by
  induction n generalizing high with
  | zero => exact absurd lt (Nat.not_lt_zero j)
  | succ n ih =>
      have low : ∀ j < n, d j < b := fun j lt => small j (Nat.lt_succ_of_lt lt)
      have split : value b d (n + 1) + high * b ^ (n + 1) =
          value b d n + (d n + high * b) * b ^ n := by
        rw [value_succ]
        ring
      rw [split]
      rcases Nat.lt_succ_iff_lt_or_eq.1 lt with lt | rfl
      · exact ih low _ lt
      · have pos : 0 < b ^ j := Nat.lt_of_le_of_lt (Nat.zero_le _) (value_lt low)
        rw [digit, Nat.add_mul_div_right _ _ pos, Nat.div_eq_of_lt (value_lt low), Nat.zero_add,
          Nat.add_mul_mod_self_right, Nat.mod_eq_of_lt (small j lt)]

theorem recode_value (small : ∀ j < n, d j < b) (b' high : Nat) :
    recode b b' n (value b d n + high * b ^ n) = value b' d n :=
  value_congr fun _ lt => digit_value small high lt

theorem value_digit (b x n : Nat) : value b (digit b x) n = x % b ^ n := by
  induction n with
  | zero => rw [value_zero, Nat.pow_zero, Nat.mod_one]
  | succ n ih =>
      rw [value_succ, ih, Nat.mod_pow_succ, digit]
      ring

/-! ## Sums -/

/-- The carry into digit `j` of the sum of `x`, `y` and `c`. -/
def carry (b : Nat) (x y : Nat → Nat) (c : Nat) : Nat → Nat
  | 0 => c
  | j + 1 => if b ≤ x j + y j + carry b x y c j then 1 else 0

def sum (b : Nat) (x y : Nat → Nat) (c j : Nat) : Nat :=
  x j + y j + carry b x y c j - b * carry b x y c (j + 1)

section
variable {x y : Nat → Nat} {c : Nat}

theorem carry_le (le : c ≤ 1) (j : Nat) : carry b x y c j ≤ 1 := by
  cases j with
  | zero => exact le
  | succ j =>
      rw [carry]
      split <;> omega

theorem sum_digit (le : c ≤ 1) {j : Nat} (hx : x j < b) (hy : y j < b) :
    sum b x y c j < b ∧ sum b x y c j + b * carry b x y c (j + 1) = x j + y j + carry b x y c j := by
  have bit := carry_le (b := b) (x := x) (y := y) le j
  rw [sum, carry]
  split
  · omega
  · omega

theorem value_sum (le : c ≤ 1) (hx : ∀ j < n, x j < b) (hy : ∀ j < n, y j < b) :
    value b x n + value b y n + c = value b (sum b x y c) n + carry b x y c n * b ^ n := by
  induction n with
  | zero => simp [carry]
  | succ n ih =>
      have low := ih (fun j lt => hx j (Nat.lt_succ_of_lt lt)) fun j lt => hy j (Nat.lt_succ_of_lt lt)
      obtain ⟨-, top⟩ := sum_digit le (hx n (Nat.lt_succ_self n)) (hy n (Nat.lt_succ_self n))
      calc value b x (n + 1) + value b y (n + 1) + c
          = value b x n + value b y n + c + (x n + y n) * b ^ n := by
            rw [value_succ, value_succ]
            ring
        _ = value b (sum b x y c) n + (x n + y n + carry b x y c n) * b ^ n := by
            rw [low]
            ring
        _ = value b (sum b x y c) (n + 1) + carry b x y c (n + 1) * b ^ (n + 1) := by
            rw [← top, value_succ]
            ring

end

/-! ## Differences -/

/-- The borrow out of the digits below `j` of the difference of `x` and `y + c`. -/
def borrow (x y : Nat → Nat) (c : Nat) : Nat → Nat
  | 0 => c
  | j + 1 => if x j < y j + borrow x y c j then 1 else 0

def difference (b : Nat) (x y : Nat → Nat) (c j : Nat) : Nat :=
  x j + b * borrow x y c (j + 1) - (y j + borrow x y c j)

section
variable {x y : Nat → Nat} {c : Nat}

theorem borrow_le (le : c ≤ 1) (j : Nat) : borrow x y c j ≤ 1 := by
  cases j with
  | zero => exact le
  | succ j =>
      rw [borrow]
      split <;> omega

theorem difference_digit (le : c ≤ 1) {j : Nat} (hx : x j < b) (hy : y j < b) :
    difference b x y c j < b ∧
      difference b x y c j + (y j + borrow x y c j) = x j + b * borrow x y c (j + 1) := by
  have bit := borrow_le (x := x) (y := y) le j
  rw [difference, borrow]
  split
  · omega
  · omega

theorem value_difference (le : c ≤ 1) (hx : ∀ j < n, x j < b) (hy : ∀ j < n, y j < b) :
    value b (difference b x y c) n + (value b y n + c) = value b x n + borrow x y c n * b ^ n := by
  induction n with
  | zero => simp [borrow]
  | succ n ih =>
      have low := ih (fun j lt => hx j (Nat.lt_succ_of_lt lt)) fun j lt => hy j (Nat.lt_succ_of_lt lt)
      obtain ⟨-, top⟩ := difference_digit le (hx n (Nat.lt_succ_self n)) (hy n (Nat.lt_succ_self n))
      rw [value_succ, value_succ, value_succ, Nat.pow_succ]
      calc _ = value b (difference b x y c) n + (value b y n + c) +
            (difference b x y c n + y n) * b ^ n := by ring
        _ = value b x n + (difference b x y c n + (y n + borrow x y c n)) * b ^ n := by
            rw [low]
            ring
        _ = _ := by
            rw [top]
            ring

theorem difference_lt (le : c ≤ 1) (hx : ∀ j < n, x j < b) (hy : ∀ j < n, y j < b) :
    ∀ j < n, difference b x y c j < b :=
  fun j lt => (difference_digit le (hx j lt) (hy j lt)).1

/-- There is a borrow if the subtrahend is the larger one, in whatever base. -/
theorem borrow_eq (le : c ≤ 1) (hx : ∀ j < n, x j < b) (hy : ∀ j < n, y j < b) :
    borrow x y c n = if value b x n < value b y n + c then 1 else 0 := by
  have eq := value_difference le hx hy
  have lt := value_lt (difference_lt le hx hy)
  have bit := borrow_le (x := x) (y := y) le n
  split
  · next less =>
      by_contra none
      rw [show borrow x y c n = 0 by omega, Nat.zero_mul] at eq
      omega
  · next enough =>
      by_contra some
      rw [show borrow x y c n = 1 by omega, Nat.one_mul] at eq
      omega

end

/-! ## Numbers of many digits, the lowest first -/

/-- Each digit hands a carry on to the next. -/
inductive Linked (link : Nat → Nat → Nat → Nat → Nat → Prop) :
    List Nat → List Nat → Nat → List Nat → Nat → Prop
  | nil {c : Nat} : Linked link [] [] c [] c
  | cons {x y c z c' c'' : Nat} {xs ys zs : List Nat} :
      link x y c z c' → Linked link xs ys c' zs c'' → Linked link (x :: xs) (y :: ys) c (z :: zs) c''

/-- One digit of a sum, with the carry in and the carry out. -/
def Adds (b x y c z c' : Nat) : Prop := z + c' * b = x + y + c

/-- One digit of a difference. A carry says that there is no borrow. -/
def Subtracts (b x y c z c' : Nat) : Prop := x + (1 - c') * b = z + y + (1 - c)

section
variable {c c' : Nat} {xs ys zs : List Nat}

theorem Linked.lengths {link : Nat → Nat → Nat → Nat → Nat → Prop} (linked : Linked link xs ys c zs c') :
    ys.length = xs.length ∧ zs.length = xs.length := by
  induction linked with
  | nil => exact ⟨rfl, rfl⟩
  | cons _ _ ih => exact ⟨congrArg (· + 1) ih.1, congrArg (· + 1) ih.2⟩

theorem Linked.sum (linked : Linked (Adds b) xs ys c zs c') :
    Nat.ofDigits b zs + c' * b ^ xs.length = Nat.ofDigits b xs + Nat.ofDigits b ys + c := by
  induction linked with
  | nil => simp
  | @cons x y c z c' c'' xs ys zs here _ ih =>
      rw [Adds] at here
      calc Nat.ofDigits b (z :: zs) + c'' * b ^ (xs.length + 1)
          = z + b * (Nat.ofDigits b zs + c'' * b ^ xs.length) := by
            rw [Nat.ofDigits_cons]
            ring
        _ = (z + c' * b) + b * (Nat.ofDigits b xs + Nat.ofDigits b ys) := by
            rw [ih]
            ring
        _ = Nat.ofDigits b (x :: xs) + Nat.ofDigits b (y :: ys) + c := by
            rw [here, Nat.ofDigits_cons, Nat.ofDigits_cons]
            ring

/-- A subtraction is an addition read backwards. -/
theorem Linked.backwards (linked : Linked (Subtracts b) xs ys c zs c') :
    Linked (Adds b) zs ys (1 - c) xs (1 - c') := by
  induction linked with
  | nil => exact .nil
  | cons here _ ih => exact .cons here ih

theorem Adds.unique {x y z z' c'' : Nat} (adds : Adds b x y c z c') (adds' : Adds b x y c z' c'')
    (small : z < b) (small' : z' < b) (bit : c' ≤ 1) (bit' : c'' ≤ 1) : z = z' ∧ c' = c'' := by
  rw [Adds] at adds adds'
  rcases Nat.le_one_iff_eq_zero_or_eq_one.1 bit with rfl | rfl
  · rcases Nat.le_one_iff_eq_zero_or_eq_one.1 bit' with rfl | rfl <;> omega
  · rcases Nat.le_one_iff_eq_zero_or_eq_one.1 bit' with rfl | rfl <;> omega

theorem Subtracts.unique {x y z z' c'' : Nat} (subtracts : Subtracts b x y c z c')
    (subtracts' : Subtracts b x y c z' c'') (small : z < b) (small' : z' < b) (bit : c' ≤ 1)
    (bit' : c'' ≤ 1) : z = z' ∧ c' = c'' := by
  rw [Subtracts] at subtracts subtracts'
  rcases Nat.le_one_iff_eq_zero_or_eq_one.1 bit with rfl | rfl
  · rcases Nat.le_one_iff_eq_zero_or_eq_one.1 bit' with rfl | rfl <;> omega
  · rcases Nat.le_one_iff_eq_zero_or_eq_one.1 bit' with rfl | rfl <;> omega

/-- Two digits are one digit in the square of the base. -/
theorem Adds.pair {x x' y y' z z' c'' : Nat} (low : Adds b x y c z c') (high : Adds b x' y' c' z' c'') :
    Adds (b * b) (x + b * x') (y + b * y') c (z + b * z') c'' := by
  rw [Adds] at *
  calc z + b * z' + c'' * (b * b) = z + b * (z' + c'' * b) := by ring
    _ = z + c' * b + b * (x' + y') := by
        rw [high]
        ring
    _ = x + b * x' + (y + b * y') + c := by
        rw [low]
        ring

theorem Linked.undo {q q' : Nat} {us : List Nat} (adds : Linked (Adds b) xs ys c zs c')
    (subtracts : Linked (Subtracts b) zs ys q us q') (base : 1 < b) (turned : 1 - q = c)
    (hx : ∀ x ∈ xs, x < b) (hu : ∀ u ∈ us, u < b) (le : c' ≤ 1) : us = xs ∧ 1 - q' = c' := by
  have forth := adds.sum
  have back := subtracts.backwards.sum
  have length : us.length = xs.length := (subtracts.lengths.2.trans adds.lengths.2)
  have few : 1 - q' ≤ 1 := Nat.sub_le 1 q'
  have small := Nat.ofDigits_lt_base_pow_length base hx
  have small' := Nat.ofDigits_lt_base_pow_length base hu
  rw [length, turned] at back
  rw [length] at small'
  have both : Nat.ofDigits b us = Nat.ofDigits b xs ∧ 1 - q' = c' := by
    generalize Nat.ofDigits b us = u at *
    generalize Nat.ofDigits b xs = x at *
    generalize b ^ xs.length = top at *
    rcases Nat.le_one_iff_eq_zero_or_eq_one.1 le with rfl | rfl
    · rcases Nat.le_one_iff_eq_zero_or_eq_one.1 few with eq | eq
      · rw [eq] at back ⊢
        omega
      · rw [eq] at back ⊢
        omega
    · rcases Nat.le_one_iff_eq_zero_or_eq_one.1 few with eq | eq
      · rw [eq] at back ⊢
        omega
      · rw [eq] at back ⊢
        omega
  exact ⟨Nat.ofDigits_inj_of_len_eq base length hu hx both.1, both.2⟩

end

end Positional
