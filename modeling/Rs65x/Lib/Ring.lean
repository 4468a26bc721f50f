import Mathlib.Algebra.Order.Ring.Nat
import Mathlib.Data.List.Induction
import Mathlib.Data.Nat.ModEq
import Mathlib.Logic.Function.Basic

/-!
# Rings of cells

The pointer of a stack on a ring wraps around, so the stack holds as many values as there are cells.
A list that is laid around a ring covers its own beginning.
-/

namespace Ring

/-- `top` is the cell of the next push. -/
structure Stack (w : Nat) (A : Type*) where
  top : BitVec w
  cells : BitVec w → A

namespace Stack
variable {w : Nat} {A : Type*} {r : Stack w A} {x : A} {xs : List A}

def push (r : Stack w A) (x : A) : Stack w A := ⟨r.top - 1, Function.update r.cells r.top x⟩

def peek (r : Stack w A) : A := r.cells (r.top + 1)

def drop (r : Stack w A) : Stack w A := ⟨r.top + 1, r.cells⟩

/-- The values on top of the stack are these, the last one pushed first. -/
def Holds : Stack w A → List A → Prop
  | _, [] => True
  | r, x :: xs => r.peek = x ∧ r.drop.Holds xs

theorem Holds.update (holds : r.Holds xs) {i : BitVec w}
    (free : ∀ k < xs.length, r.top + 1 + BitVec.ofNat w k ≠ i) :
    (⟨r.top, Function.update r.cells i x⟩ : Stack w A).Holds xs := by
  induction xs generalizing r with
  | nil => trivial
  | cons y ys ih =>
      obtain ⟨here, below⟩ := holds
      have first : r.top + 1 ≠ i := by simpa using free 0 (Nat.succ_pos _)
      refine ⟨(Function.update_of_ne first _ _).trans here, ih below fun k lt => ?_⟩
      have next : r.top + 1 + 1 + BitVec.ofNat w k = r.top + 1 + BitVec.ofNat w (k + 1) := by
        rw [BitVec.ofNat_add, BitVec.add_comm (BitVec.ofNat w k), ← BitVec.add_assoc]
        rfl
      rw [drop, next]
      exact free (k + 1) (Nat.succ_lt_succ lt)

theorem Holds.push (holds : r.Holds xs) (room : xs.length < 2 ^ w) (x : A) :
    (r.push x).Holds (x :: xs) := by
  have back : r.top - 1 + 1 = r.top := BitVec.sub_add_cancel _ _
  refine ⟨?_, ?_⟩
  · rw [peek, Stack.push, back]
    exact Function.update_self _ _ _
  · rw [drop, Stack.push, back]
    refine holds.update fun k lt eq => ?_
    have small : k + 1 < 2 ^ w := Nat.lt_of_le_of_lt lt room
    have steps : BitVec.ofNat w (k + 1) = 0#w := by
      rw [BitVec.ofNat_add, BitVec.add_comm, ← BitVec.add_right_eq_self (x := r.top),
        ← BitVec.add_assoc]
      exact eq
    have zero := congrArg BitVec.toNat steps
    rw [BitVec.toNat_ofNat, Nat.mod_eq_of_lt small] at zero
    exact Nat.succ_ne_zero k zero

end Stack

/-! ## Filling a ring -/

section
variable {w : Nat} {A : Type*} {x : A} {xs : List A}

/-- The values go into the cells from `start` on, as often around as it takes. -/
def fill (cells : BitVec w → A) (start : BitVec w) (xs : List A) : BitVec w → A :=
  xs.zipIdx.foldl (fun cells x => Function.update cells (start + BitVec.ofNat w x.2) x.1) cells

/-- The last entry that comes to lie at `k`, of a list laid around a ring of `n` cells. -/
def lastAt (n k : Nat) (xs : List A) : Option A := xs[k + n * ((xs.length - 1 - k) / n)]?

theorem lastAt_here {n k : Nat} (lands : xs.length % n = k) : lastAt n k (xs ++ [x]) = some x := by
  have pos : k + n * ((xs.length + 1 - 1 - k) / n) = xs.length := by
    rw [Nat.add_sub_cancel, ← lands, ← Nat.div_eq_sub_mod_div]
    exact Nat.mod_add_div _ _
  rw [lastAt, List.length_append, List.length_singleton, pos]
  exact List.getElem?_concat_length

theorem lastAt_elsewhere {n k : Nat} (lt : k < n) (other : xs.length % n ≠ k) :
    lastAt n k (xs ++ [x]) = lastAt n k xs := by
  rw [lastAt, lastAt, List.length_append, List.length_singleton, Nat.add_sub_cancel]
  rcases Nat.lt_trichotomy k xs.length with less | rfl | more
  · have indivisible : ¬ n ∣ xs.length - 1 - k + 1 := by
      intro divides
      rw [show xs.length - 1 - k + 1 = xs.length - k by omega] at divides
      have congruent : k % n = xs.length % n := (Nat.modEq_iff_dvd' less.le).2 divides
      exact other (congruent.symm.trans (Nat.mod_eq_of_lt lt))
    have bound := Nat.mul_div_le (xs.length - 1 - k) n
    have turns : (xs.length - k) / n = (xs.length - 1 - k) / n := by
      rw [show xs.length - k = xs.length - 1 - k + 1 by omega, Nat.succ_div, if_neg indivisible]
      rfl
    rw [turns, List.getElem?_append_left (by omega)]
  · exact absurd (Nat.mod_eq_of_lt lt) other
  · rw [List.getElem?_eq_none (by simp; omega), List.getElem?_eq_none (by omega)]

theorem fill_apply (cells : BitVec w → A) (start i : BitVec w) (xs : List A) :
    fill cells start xs i = (lastAt (2 ^ w) (i - start).toNat xs).getD (cells i) := by
  induction xs using List.reverseRecOn with
  | nil => rfl
  | append_singleton xs x ih =>
      have step : fill cells start (xs ++ [x]) =
          Function.update (fill cells start xs) (start + BitVec.ofNat w xs.length) x := by
        rw [fill, List.zipIdx_append, List.foldl_append, Nat.zero_add]
        rfl
      have lands : xs.length % 2 ^ w = (i - start).toNat ↔ i = start + BitVec.ofNat w xs.length := by
        rw [← BitVec.toNat_ofNat, BitVec.toNat_inj, eq_comm, BitVec.sub_eq_iff_eq_add, BitVec.add_comm]
      rw [step]
      by_cases here : xs.length % 2 ^ w = (i - start).toNat
      · rw [lastAt_here here, lands.1 here, Function.update_self]
        rfl
      · rw [lastAt_elsewhere (i - start).isLt here, Function.update_of_ne (mt lands.2 here), ih]

end

end Ring
