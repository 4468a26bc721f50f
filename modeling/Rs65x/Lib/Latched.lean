import Mathlib.Order.Nat

/-!
# A flag that events set and services clear

In every step an event may raise the flag, and then a service may take it down.
-/

namespace Latched
variable (event : Nat → Prop) (served : Nat → Prop)

/-- An event of step `n` or before that no step before `n` has served. -/
def Outstanding (n : Nat) : Prop :=
  ∃ k ≤ n, event k ∧ ∀ j, k ≤ j → j < n → ¬ served j

variable {event served}

theorem outstanding_zero : Outstanding event served 0 ↔ event 0 := by
  constructor
  · rintro ⟨k, le, raised, -⟩
    rwa [← Nat.le_zero.1 le]
  · exact fun raised => ⟨0, le_rfl, raised, fun j _ lt => absurd lt (Nat.not_lt_zero j)⟩

theorem outstanding_succ {n : Nat} : Outstanding event served (n + 1) ↔
    event (n + 1) ∨ Outstanding event served n ∧ ¬ served n := by
  constructor
  · rintro ⟨k, le, raised, unserved⟩
    obtain rfl | lt := le.eq_or_lt
    · exact .inl raised
    · exact .inr ⟨⟨k, by omega, raised, fun j ge lt' => unserved j ge (by omega)⟩,
        unserved n (by omega) (by omega)⟩
  · rintro (raised | ⟨⟨k, le, raised, unserved⟩, last⟩)
    · exact ⟨n + 1, le_rfl, raised, fun j ge lt => by omega⟩
    · refine ⟨k, by omega, raised, fun j ge lt => ?_⟩
      obtain rfl | lt' := (Nat.lt_succ_iff.1 lt).eq_or_lt
      · exact last
      · exact unserved j ge lt'

/-- A flag that starts low, rises with an event and falls with a service records what is
outstanding. -/
theorem flag_iff (flag : Nat → Prop) {length : Nat} (low : ¬ flag 0)
    (next : ∀ n < length, flag (n + 1) ↔ (event n ∨ flag n) ∧ ¬ served n) {n : Nat}
    (lt : n < length) : event n ∨ flag n ↔ Outstanding event served n := by
  induction n with
  | zero => simp [outstanding_zero, low]
  | succ n ih => rw [next n (by omega), outstanding_succ, ih (by omega)]

theorem flag_succ_iff (flag : Nat → Prop) {length : Nat} (low : ¬ flag 0)
    (next : ∀ n < length, flag (n + 1) ↔ (event n ∨ flag n) ∧ ¬ served n) {n : Nat}
    (lt : n < length) :
    flag (n + 1) ↔ ∃ k ≤ n, event k ∧ ∀ j, k ≤ j → j ≤ n → ¬ served j := by
  rw [next n lt, flag_iff flag low next lt]
  constructor
  · rintro ⟨⟨k, le, raised, unserved⟩, last⟩
    refine ⟨k, le, raised, fun j ge le' => ?_⟩
    obtain rfl | lt' := le'.eq_or_lt
    · exact last
    · exact unserved j ge lt'
  · rintro ⟨k, le, raised, unserved⟩
    exact ⟨⟨k, le, raised, fun j ge lt' => unserved j ge (by omega)⟩, unserved n le le_rfl⟩

end Latched
